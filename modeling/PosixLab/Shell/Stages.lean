/-
# The stages of a pipeline

The pipe branch of `main` hands each stage to `parseArgs` and from there to `execvp`.  The
single-command branch does two things more with a line: it drops a final `&`, and it takes the
redirections out of the words.  `stages_agree_iff` says for which stages that makes no
difference.
-/
import Mathlib.Data.List.Flatten
import PosixLab.Shell.Line

namespace PosixLab.Shell

/-- The words, input file and output file that the single-command branch computes for a line
alone, lines 74 to 134. -/
def alone (line : Bytes) : Option Command := single (stripBg line)

/-- Both processes of the pipeline `L | R` get the argument vector that the single-command
branch computes for their side alone, and it computes no file for them that the pipe branch
does not open. -/
def StagesAgree (L R : Bytes) : Prop :=
  ∃ l r, treat (L ++ 124 :: R) = some (.pipeline l r) ∧
    alone L = some ⟨l, none, none⟩ ∧ alone R = some ⟨r, none, none⟩

/-- A line `L | R` is a pipeline of the words of `L` and of the words of `R` without its
final `&`. -/
theorem treat_pipe {L : Bytes} (hpipe : 124 ∉ L) (R : Bytes) :
    treat (L ++ 124 :: R) =
      (vector L).bind fun l => (vector (stripBg R)).map fun r => .pipeline l r := by
  have hexit : L ++ 124 :: R ≠ utf8 "exit" := by
    intro h
    have hmem : 124 ∈ utf8 "exit" := h ▸ (by simp : (124 : Byte) ∈ L ++ 124 :: R)
    revert hmem
    decide
  unfold treat
  rw [if_neg (by simp), if_neg hexit, stripBg_append, splitPipe_append hpipe]

theorem treat_pipe_eq_some {L : Bytes} (hpipe : 124 ∉ L) {R : Bytes} {l r : List Bytes} :
    treat (L ++ 124 :: R) = some (.pipeline l r) ↔
      vector L = some l ∧ vector (stripBg R) = some r := by
  rw [treat_pipe hpipe]
  simp only [Option.bind_eq_some_iff, Option.map_eq_some_iff]
  constructor
  · rintro ⟨l', hl, r', hr, heq⟩
    cases heq
    exact ⟨hl, hr⟩
  · rintro ⟨hl, hr⟩
    exact ⟨l, hl, r, hr, rfl⟩

/-- On the words of a line the two branches agree when none of them is an operator. -/
theorem single_eq_words {line : Bytes} {ws : List Bytes} (h : vector line = some ws) :
    single line = some ⟨ws, none, none⟩ ↔ ∀ w ∈ ws, isOp w = false := by
  rw [single, h, Option.bind_some]
  exact scan_eq_words

/-- The arguments are made of bytes of the line. -/
theorem length_single_args {line : Bytes} (hnul : NulFree line) {c : Command}
    (h : single line = some c) :
    c.args.flatten.length ≤ (line.filter (!isBlank ·)).length := by
  obtain ⟨ws, hws, hscan⟩ := Option.bind_eq_some_iff.mp h
  obtain ⟨as, has, hsub, -⟩ := scanLoop_args hscan
  rw [← flatten_tokens, ((vector_eq_some hnul).mp hws).1, has, List.nil_append]
  exact hsub.flatten.length_le

/-- The pipe branch hands a final `&` of the left stage on, which the single-command branch
would have dropped. -/
theorem alone_ne_of_isBg {line : Bytes} (hnul : NulFree line) (hbg : isBg line = true)
    {ws : List Bytes} (hws : vector line = some ws) : alone line ≠ some ⟨ws, none, none⟩ := by
  obtain ⟨s, rfl⟩ := isBg_iff.mp hbg
  intro halone
  have hle := length_single_args (nulFree_stripBg hnul) halone
  rw [stripBg_concat_amp, ← flatten_tokens, tokens_rdropWhile_space, flatten_tokens,
    ← ((vector_eq_some hnul).mp hws).1, flatten_tokens, List.filter_append] at hle
  have hamp : ([38] : Bytes).filter (!isBlank ·) = [38] := by decide
  rw [hamp, List.length_append] at hle
  exact absurd hle (by simp)

/-- When the stages of a pipeline are what the sides of it are alone: the left side does not end
in `&`, no word of either stage is an operator, and both vectors have room for their words. -/
theorem stages_agree_iff {L R : Bytes} (hL : NulFree L) (hR : NulFree R) (hpipe : 124 ∉ L) :
    StagesAgree L R ↔
      isBg L = false ∧
        (∀ w ∈ tokens isBlank L, isOp w = false) ∧
        (∀ w ∈ tokens isBlank (stripBg R), isOp w = false) ∧
        (tokens isBlank L).length < maxArgLen ∧ (tokens isBlank (stripBg R)).length < maxArgLen := by
  constructor
  · rintro ⟨l, r, htreat, hl, hr⟩
    obtain ⟨hvl, hvr⟩ := (treat_pipe_eq_some hpipe).mp htreat
    have hbg : isBg L = false := by
      by_contra hbg
      exact alone_ne_of_isBg hL (by simpa using hbg) hvl hl
    rw [alone, stripBg_of_not_isBg hbg] at hl
    obtain ⟨htl, hlenl⟩ := (vector_eq_some hL).mp hvl
    obtain ⟨htr, hlenr⟩ := (vector_eq_some (nulFree_stripBg hR)).mp hvr
    rw [htl, htr]
    exact ⟨hbg, (single_eq_words hvl).mp hl, (single_eq_words hvr).mp hr, hlenl, hlenr⟩
  · rintro ⟨hbg, hopl, hopr, hlenl, hlenr⟩
    have hvl := (vector_eq_some hL).mpr ⟨rfl, hlenl⟩
    have hvr := (vector_eq_some (nulFree_stripBg hR)).mpr ⟨rfl, hlenr⟩
    refine ⟨_, _, (treat_pipe_eq_some hpipe).mpr ⟨hvl, hvr⟩, ?_, (single_eq_words hvr).mpr hopr⟩
    rw [alone, stripBg_of_not_isBg hbg]
    exact (single_eq_words hvl).mpr hopl

/-- The stages of `ls -l | wc &` are those of its sides. -/
theorem stages_agree_iff_ls : StagesAgree (utf8 "ls -l ") (utf8 " wc &") :=
  (stages_agree_iff (.of_notMem (by decide)) (.of_notMem (by decide))
    (by decide)).mpr (by decide)

/-- In `cat < f | wc` the program `cat` is given the operator and the file name as arguments. -/
theorem stages_redirected :
    treat (utf8 "cat < f | wc") =
        some (.pipeline [utf8 "cat", utf8 "<", utf8 "f"] [utf8 "wc"]) ∧
      alone (utf8 "cat < f ") = some ⟨[utf8 "cat"], some (utf8 "f"), none⟩ ∧
      ¬ StagesAgree (utf8 "cat < f ") (utf8 " wc") := by
  refine ⟨by decide +kernel, by decide +kernel, fun h => ?_⟩
  obtain ⟨l, r, -, hl, -⟩ := h
  have halone : alone (utf8 "cat < f ") = some ⟨[utf8 "cat"], some (utf8 "f"), none⟩ := by
    decide +kernel
  cases halone.symm.trans hl

end PosixLab.Shell
