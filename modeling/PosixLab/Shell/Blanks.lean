/-
# Blanks at the end of a line

`parseArgs` does not see blanks behind the last word, and neither does the split at the first
`|`.  The tests for `exit` and for a final `&` come before it and look at the last byte, so
there a blank decides: `trailing_blanks_iff` says that these two are the only lines whose
treatment blanks at the end change.
-/
import PosixLab.Shell.Scan
import PosixLab.Shell.Stages

namespace PosixLab.Shell

/-- What `main` does with a line that is neither `exit` nor ends in `&`. -/
def treatPlain (input : Bytes) : Option Treatment :=
  match splitPipe input with
  | some (left, right) =>
    (vector left).bind fun l => (vector right).map fun r => .pipeline l r
  | none => (single input).map (dispatched false)

theorem treat_of_plain {s : Bytes} (hbg : isBg s = false) (hexit : s ≠ utf8 "exit") :
    treat s = treatPlain s := by
  unfold treat treatPlain
  by_cases hnil : s = []
  · rw [if_pos hnil, hnil]
    rfl
  · have hstrip := stripBg_of_not_isBg hbg
    cases hsplit : splitPipe s <;> simp [hnil, hexit, hbg, hstrip, hsplit]

section

variable {s w : Bytes}

/-! ## 1. What does not see the blanks -/

/-- A text of blanks is free of NULs and of `|`. -/
theorem ne_of_isBlank {b : Byte} (hb : isBlank b = true) : b ≠ 0 ∧ b ≠ 124 ∧ b ≠ 38 := by
  refine ⟨?_, ?_, ?_⟩ <;> rintro rfl <;> exact absurd hb (by decide)

theorem nulFree_of_isBlank (hw : ∀ b ∈ w, isBlank b = true) : NulFree w :=
  fun b hb => (ne_of_isBlank (hw b hb)).1

theorem vector_append_blanks (hs : NulFree s) (hw : ∀ b ∈ w, isBlank b = true) :
    vector (s ++ w) = vector s := by
  have hnul : NulFree (s ++ w) := hs.append (nulFree_of_isBlank hw)
  unfold vector
  rw [← length_argv, ← length_argv, argv_eq_tokens hnul, argv_eq_tokens hs,
    tokens_append_seps s hw]

/-- The split is the same, and the blanks end up in the right stage. -/
theorem splitPipe_append_right (hw : 124 ∉ w) :
    splitPipe (s ++ w) = (splitPipe s).map fun p => (p.1, p.2 ++ w) := by
  cases h : splitPipe s with
  | none =>
    have hmem : 124 ∉ s := splitPipe_eq_none.mp h
    rw [Option.map_none, splitPipe_eq_none]
    simp [hmem, hw]
  | some p =>
    obtain ⟨rfl, hl⟩ := splitPipe_eq_some.mp h
    rw [List.append_assoc, List.cons_append, splitPipe_append hl]
    rfl

theorem treatPlain_append_blanks (hs : NulFree s) (hw : ∀ b ∈ w, isBlank b = true) :
    treatPlain (s ++ w) = treatPlain s := by
  have hpipe : 124 ∉ w := fun h => (ne_of_isBlank (hw _ h)).2.1 rfl
  unfold treatPlain
  rw [splitPipe_append_right hpipe]
  cases h : splitPipe s with
  | none => simp only [Option.map_none, single, vector_append_blanks hs hw]
  | some p =>
    have hr : NulFree p.2 := by
      obtain ⟨rfl, -⟩ := splitPipe_eq_some.mp h
      exact fun b hb => hs b (by simp [hb])
    simp only [Option.map_some, vector_append_blanks hr hw]

/-- A line that ends in a blank is neither `exit` nor a background line. -/
theorem treat_append_blanks (hs : NulFree s) (hw : ∀ b ∈ w, isBlank b = true) (hne : w ≠ []) :
    treat (s ++ w) = treatPlain s := by
  obtain ⟨v, b, rfl⟩ := (List.eq_nil_or_concat w).resolve_left hne
  have hb : isBlank b = true := hw b (by simp)
  rw [← treatPlain_append_blanks hs hw, List.concat_eq_append] at *
  refine treat_of_plain ?_ fun h => ?_
  · rw [← List.append_assoc, isBg_concat]
    simpa using (ne_of_isBlank hb).2.2
  · have hlast : b = 116 := by
      have := congrArg List.getLast? h
      rw [← List.append_assoc, List.getLast?_concat] at this
      exact Option.some.inj (this.trans (by decide))
    exact absurd (hlast ▸ hb) (by decide)

/-! ## 2. The two tests that do -/

/-- The commands of a foreground and of a background line are the same only if what the scan
found is. -/
theorem dispatched_inj {c c' : Command} (h : dispatched true c = dispatched false c') :
    c = c' := by
  obtain ⟨args, inf, outf⟩ := c
  obtain ⟨args', inf', outf'⟩ := c'
  unfold dispatched at h
  cases args with
  | nil =>
    cases args' with
    | nil => simpa using h
    | cons w ws =>
      dsimp only at h
      cases hd : dispatch w <;> simp [hd] at h
  | cons w ws =>
    dsimp only at h
    cases hd : dispatch w with
    | none =>
      cases args' with
      | nil => simp [hd] at h
      | cons w' ws' => cases hd' : dispatch w' <;> simp [hd, hd'] at h
    | some b =>
      cases args' with
      | nil => simp [hd] at h
      | cons w' ws' =>
        cases hd' : dispatch w' <;> simp [hd, hd'] at h
        simp [h]

theorem amp_isOp (u : Bytes) : isOp (u ++ [38]) = false := by
  refine not_isOp ?_ ?_ <;> intro h <;> have := congrArg List.getLast? h <;>
    rw [List.getLast?_concat] at this <;> exact absurd this (by decide)

/-- A final `&` that is not taken for the background test shows in the words, and so in what the
scan finds. -/
theorem single_amp_ne {t : Bytes} (ht : NulFree (t ++ [38])) {c : Command}
    (h : single (t.rdropWhile (· == 32)) = some c) : single (t ++ [38]) ≠ some c := by
  have hbg : stripBg (t ++ [38]) = t.rdropWhile (· == 32) := stripBg_concat_amp t
  have hnul : NulFree (t.rdropWhile (· == 32)) := hbg ▸ nulFree_stripBg ht
  intro h'
  obtain ⟨ws, hws, hscan⟩ := Option.bind_eq_some_iff.mp h
  obtain ⟨ws', hws', hscan'⟩ := Option.bind_eq_some_iff.mp h'
  have htok := ((vector_eq_some hnul).mp hws).1
  have htok' := ((vector_eq_some ht).mp hws').1
  rw [tokens_rdropWhile_space] at htok
  have hamp : isBlank 38 = false := by decide
  rcases tokens_concat hamp t with hone | ⟨vs, u, hu, hlong⟩
  · -- the `&` is a word of its own
    rw [← htok', hone, htok] at hscan'
    exact scanLoop_concat_ne hscan _ hscan'
  · -- the `&` ends the last word
    rw [← htok, hu] at hscan
    rw [← htok', hlong] at hscan'
    have heq := congrArg List.length (scanLoop_concat_inj hscan hscan' (amp_isOp u))
    simp at heq

/-- A background line is treated otherwise with a blank behind the `&`. -/
theorem treat_amp_ne {t : Bytes} (ht : NulFree (t ++ [38])) {x : Treatment}
    (h : treat (t ++ [38]) = some x) : treatPlain (t ++ [38]) ≠ some x := by
  have hexit : t ++ [38] ≠ utf8 "exit" := by
    intro heq
    have := congrArg List.getLast? heq
    rw [List.getLast?_concat] at this
    exact absurd this (by decide)
  have hbg : isBg (t ++ [38]) = true := isBg_iff.mpr ⟨t, rfl⟩
  unfold treat at h
  rw [if_neg (by simp), if_neg hexit, hbg] at h
  have hsplit : t ++ [38] =
      stripBg (t ++ [38]) ++ (t.rtakeWhile (· == 32) ++ [38]) := by
    rw [stripBg_concat_amp, ← List.append_assoc, List.rdropWhile_append_rtakeWhile]
  have hpipe : 124 ∉ t.rtakeWhile (· == (32 : Byte)) ++ [38] := by
    intro hmem
    rcases List.mem_append.mp hmem with hm | hm
    · exact absurd (List.mem_rtakeWhile_imp hm) (by decide)
    · exact absurd hm (by decide)
  unfold treatPlain
  intro h'
  rw [hsplit, splitPipe_append_right hpipe, ← hsplit] at h'
  cases hp : splitPipe (stripBg (t ++ [38])) with
  | none =>
    rw [hp] at h h'
    simp only [Option.map_none, stripBg_concat_amp, Option.map_eq_some_iff] at h h'
    obtain ⟨c, hc, rfl⟩ := h
    obtain ⟨c', hc', heq⟩ := h'
    obtain rfl := dispatched_inj heq.symm
    exact single_amp_ne ht hc hc'
  | some p =>
    -- the words of the right stage have one byte more
    obtain ⟨l, r⟩ := p
    rw [hp] at h h'
    simp only [Option.map_some, Option.bind_eq_some_iff, Option.map_eq_some_iff] at h h'
    obtain ⟨vl, -, vr, hvr, rfl⟩ := h
    obtain ⟨vl', -, vr', hvr', heq⟩ := h'
    cases heq
    have hstrip := (splitPipe_eq_some.mp hp).1
    have hr : NulFree (r ++ (t.rtakeWhile (· == 32) ++ [38])) := by
      intro b hb
      refine ht b ?_
      rw [hsplit, hstrip]
      simpa using .inr (.inr (by simpa using hb))
    have hr₀ : NulFree r := fun b hb => hr b (List.mem_append_left _ hb)
    have hlen := congrArg (·.flatten.length)
      (((vector_eq_some hr₀).mp hvr).1.trans ((vector_eq_some hr).mp hvr').1.symm)
    simp only [flatten_tokens, List.filter_append, List.length_append] at hlen
    have hamp : ([38] : Bytes).filter (!isBlank ·) = [38] := by decide
    rw [hamp, List.length_singleton] at hlen
    omega

/-- When blanks at the end of a line do not matter: there are none, or the line is not the word
`exit` alone and does not end in `&`.  Otherwise the line is treated the same with and without
them only where C gives neither a meaning. -/
theorem trailing_blanks_iff (hs : NulFree s) (hw : ∀ b ∈ w, isBlank b = true) :
    treat (s ++ w) = treat s ↔
      w = [] ∨ (s ≠ utf8 "exit" ∧ isBg s = false) ∨ (Overruns s ∧ Overruns (s ++ w)) := by
  by_cases hne : w = []
  · simp [hne]
  rw [← treat_eq_none hs, ← treat_eq_none (hs.append (nulFree_of_isBlank hw)),
    treat_append_blanks hs hw hne]
  constructor
  · intro h
    refine .inr ?_
    by_cases hexit : s = utf8 "exit"
    · subst hexit
      exact absurd h (by decide +kernel)
    by_cases hbg : isBg s = true
    · refine .inr ?_
      obtain ⟨t, rfl⟩ := isBg_iff.mp hbg
      cases ht : treat (t ++ [38]) with
      | none => exact ⟨rfl, h.trans ht⟩
      | some x => exact absurd (h.trans ht) (treat_amp_ne hs ht)
    · exact .inl ⟨hexit, by simpa using hbg⟩
  · rintro (h | ⟨hexit, hbg⟩ | ⟨h, h'⟩)
    · exact absurd h hne
    · exact (treat_of_plain hbg hexit).symm
    · rw [h, h']

end

/-- The line `ls -l` with a space and a tab behind it. -/
theorem trailing_blanks_iff_ls : treat (utf8 "ls -l" ++ [32, 9]) = treat (utf8 "ls -l") :=
  (trailing_blanks_iff (.of_notMem (by decide +kernel)) (by simp [isBlank])).mpr
    (.inr (.inl (by decide +kernel)))

/-- With a space behind it `sleep 9 &` runs in the foreground and passes the `&` on, and
`exit` is looked for among the programs. -/
theorem trailing_blank_background :
    treat (utf8 "sleep 9 &") = some (.background ⟨[utf8 "sleep", utf8 "9"], none, none⟩) ∧
      treat (utf8 "sleep 9 &" ++ [32]) =
        some (.foreground ⟨[utf8 "sleep", utf8 "9", utf8 "&"], none, none⟩) ∧
      treat (utf8 "exit") = some .exit ∧
      treat (utf8 "exit" ++ [32]) = some (.foreground ⟨[utf8 "exit"], none, none⟩) := by
  decide +kernel

end PosixLab.Shell
