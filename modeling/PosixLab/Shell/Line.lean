/-
# The line editor of myshell: from a line to what is done with it

`main` of the shell cuts a line up in four places, each of which looks at the raw bytes in its
own way: the test for `exit`, the background test, which drops a final `&` and the spaces
before it, `strchr` for the first `|`, and `parseArgs`, which splits at spaces and tabs by
writing NULs into the line.  The single-command branch then scans the words for redirections.
The module follows the source step by step, and shows of `parseArgs` that its words are the
tokens of the line (`argv_eq_tokens`) and of the redirection scan what one more word does.

Where the source writes behind an argument array, or reads past its final `NULL`, C gives the
line no meaning, and neither does the model: the result is `none`.
-/
import PosixLab.Basis.CString
import PosixLab.Basis.Tokens

namespace PosixLab.Shell

/-! ## 1. Words -/

/-- The two bytes `parseArgs` splits at. -/
def isBlank (b : Byte) : Bool := b == 32 || b == 9

/-- The loop of `parse_args` from index `i` on: the rest of the line after the edits, and the
indices that went into `args`. -/
def parseLoop (i : Nat) (inWord : Bool) : Bytes → Bytes × List Nat
  | [] => ([], [])
  | b :: rest =>
    if isBlank b then
      let r := parseLoop (i + 1) false rest
      if inWord then (0 :: r.1, r.2) else (b :: r.1, r.2)
    else
      let r := parseLoop (i + 1) true rest
      if inWord then (b :: r.1, r.2) else (b :: r.1, i :: r.2)

/-- The function `parse_args`: the edited line and the indices at which `args` points. -/
def parseArgs (input : Bytes) : Bytes × List Nat := parseLoop 0 false input

/-- The strings that `args` holds after `parse_args`, up to the final `NULL`. -/
def argv (input : Bytes) : List Bytes :=
  (parseArgs input).2.map fun i => cstr ((parseArgs input).1.drop i)

theorem le_of_mem_parseLoop {s : Bytes} {i k : Nat} {w : Bool}
    (h : k ∈ (parseLoop i w s).2) : i ≤ k := by
  induction s generalizing i w with
  | nil => simp [parseLoop] at h
  | cons b s ih =>
    have hcases : k = i ∨ ∃ w', k ∈ (parseLoop (i + 1) w' s).2 := by
      unfold parseLoop at h
      by_cases hb : isBlank b = true <;> cases w <;> simp [hb] at h
      · exact .inr ⟨_, h⟩
      · exact .inr ⟨_, h⟩
      · exact h.imp id fun h => ⟨_, h⟩
      · exact .inr ⟨_, h⟩
    rcases hcases with rfl | ⟨w', h'⟩
    · exact Nat.le_refl k
    · exact Nat.le_of_succ_le (ih h')

/-- What the pointers of the loop behind index `i` mean does not depend on the byte at `i`. -/
theorem map_parseLoop_succ (s e : Bytes) (b : Byte) (i : Nat) (w : Bool) :
    ((parseLoop (i + 1) w s).2.map fun k => cstr ((b :: e).drop (k - i))) =
      (parseLoop (i + 1) w s).2.map fun k => cstr (e.drop (k - (i + 1))) := by
  refine List.map_congr_left ?_
  intro k hk
  have hle := le_of_mem_parseLoop hk
  rw [show k - i = k - (i + 1) + 1 by omega, List.drop_succ_cons]

/-- Outside a word the loop finds the tokens of the rest.  Inside a word it ends the word at
the next blank, and then finds the tokens behind it. -/
theorem parseLoop_spec {s : Bytes} (hs : NulFree s) (i : Nat) :
    ((parseLoop i false s).2.map fun k => cstr ((parseLoop i false s).1.drop (k - i))) =
        tokens isBlank s ∧
      cstr (parseLoop i true s).1 = s.takeWhile (!isBlank ·) ∧
      ((parseLoop i true s).2.map fun k => cstr ((parseLoop i true s).1.drop (k - i))) =
        tokens isBlank (s.dropWhile (!isBlank ·)) := by
  induction s generalizing i with
  | nil => simp [parseLoop, cstr]
  | cons b s ih =>
    have hb0 : b ≠ 0 := hs b List.mem_cons_self
    obtain ⟨ih₁, ih₂, ih₃⟩ := ih (fun x hx => hs x (List.mem_cons_of_mem _ hx)) (i + 1)
    by_cases hb : isBlank b = true
    · refine ⟨?_, ?_, ?_⟩
      · simp only [parseLoop, hb, if_true, Bool.false_eq_true, if_false]
        rw [map_parseLoop_succ, ih₁, tokens_cons_sep hb]
      · simp [parseLoop, hb, cstr]
      · simp only [parseLoop, hb, if_true]
        rw [map_parseLoop_succ, ih₁]
        simp [hb, tokens_cons_sep hb]
    · have hb' : isBlank b = false := by simpa using hb
      have hword : cstr (b :: (parseLoop (i + 1) true s).1) =
          b :: s.takeWhile (!isBlank ·) := by
        rw [← ih₂]
        simp [cstr, hb0]
      refine ⟨?_, ?_, ?_⟩
      · simp only [parseLoop, hb', Bool.false_eq_true, if_false, List.map_cons, Nat.sub_self,
          List.drop_zero]
        rw [hword, map_parseLoop_succ, ih₃, tokens_cons hb']
      · simpa [parseLoop, hb'] using hword
      · simp only [parseLoop, hb', Bool.false_eq_true, if_false, if_true]
        rw [map_parseLoop_succ, ih₃]
        simp [hb']

/-- The words of `parse_args` are the tokens of the line. -/
theorem argv_eq_tokens {input : Bytes} (h : NulFree input) : argv input = tokens isBlank input :=
  (parseLoop_spec h 0).1

/-- The macro `MAX_ARG_LEN`: the number of pointers in each argument array. -/
def maxArgLen : Nat := 64

/-- The argument vector that `parse_args` leaves in an array of `MAX_ARG_LEN` pointers, which
has to have room for the final `NULL`. -/
def vector (input : Bytes) : Option (List Bytes) :=
  if (parseArgs input).2.length < maxArgLen then some (argv input) else none

theorem length_argv (input : Bytes) : (argv input).length = (parseArgs input).2.length :=
  List.length_map _

theorem vector_eq_some {input : Bytes} (h : NulFree input) {ws : List Bytes} :
    vector input = some ws ↔ tokens isBlank input = ws ∧ ws.length < maxArgLen := by
  unfold vector
  rw [← length_argv, argv_eq_tokens h]
  constructor
  · intro hv
    split at hv
    · cases hv
      exact ⟨rfl, ‹_›⟩
    · cases hv
  · rintro ⟨rfl, hlt⟩
    exact if_pos hlt

/-! ## 2. Background and pipe -/

/-- The test `input[len - 1] == '&'`. -/
def isBg (input : Bytes) : Bool := input.getLast? == some 38

/-- What is left of the line after lines 74 to 83: the final `&` and the spaces before it are
overwritten by NULs. -/
def stripBg (input : Bytes) : Bytes :=
  if isBg input then input.dropLast.rdropWhile (· == 32) else input

/-- The call `strchr(input, '|')` and the split at what it finds. -/
def splitPipe (input : Bytes) : Option (Bytes × Bytes) :=
  match input.dropWhile (· != 124) with
  | [] => none
  | _ :: right => some (input.takeWhile (· != 124), right)

theorem stripBg_of_not_isBg {input : Bytes} (h : isBg input = false) : stripBg input = input := by
  simp [stripBg, h]

theorem isBg_concat (s : Bytes) (b : Byte) : isBg (s ++ [b]) = (b == 38) := by
  simp [isBg]

theorem stripBg_concat_amp (s : Bytes) : stripBg (s ++ [38]) = s.rdropWhile (· == 32) := by
  simp [stripBg, isBg]

/-- A line is a background line exactly when it is another text with a final `&`. -/
theorem isBg_iff {input : Bytes} : isBg input = true ↔ ∃ s, input = s ++ [38] := by
  induction input using List.reverseRecOn with
  | nil => simp [isBg]
  | append_singleton s b _ => simp [isBg_concat]

/-- Behind a `|` the background test looks at the right stage alone. -/
theorem stripBg_append (l r : Bytes) : stripBg (l ++ 124 :: r) = l ++ 124 :: stripBg r := by
  induction r using List.reverseRecOn with
  | nil =>
    have hbg : isBg (l ++ [124]) = false := by rw [isBg_concat]; decide
    rw [stripBg_of_not_isBg hbg]
    rfl
  | append_singleton r b _ =>
    have hassoc : l ++ 124 :: (r ++ [b]) = (l ++ 124 :: r) ++ [b] := by simp
    by_cases hb : b = 38
    · -- the spaces before the `&` end at the latest at the `|`
      rw [hassoc, hb, stripBg_concat_amp, stripBg_concat_amp]
      exact rdropWhile_append_cons (by decide) l r
    · have hbg : (b == 38) = false := by simpa using hb
      rw [stripBg_of_not_isBg (by rw [hassoc, isBg_concat, hbg]),
        stripBg_of_not_isBg (by rw [isBg_concat, hbg])]

theorem nulFree_stripBg {input : Bytes} (h : NulFree input) : NulFree (stripBg input) := by
  unfold stripBg
  split
  · intro b hb
    exact h b (List.mem_of_mem_dropLast ((List.rdropWhile_prefix _ _).subset hb))
  · exact h

/-- The spaces before the `&` are behind the last word. -/
theorem tokens_rdropWhile_space (s : Bytes) :
    tokens isBlank (s.rdropWhile (· == 32)) = tokens isBlank s := by
  conv_rhs => rw [← List.rdropWhile_append_rtakeWhile (p := (· == (32 : Byte))) (l := s)]
  rw [tokens_append_seps]
  intro b hb
  have hspace : b = 32 := by simpa using List.mem_rtakeWhile_imp hb
  simp [isBlank, hspace]

theorem splitPipe_eq_none {input : Bytes} : splitPipe input = none ↔ 124 ∉ input := by
  unfold splitPipe
  cases h : input.dropWhile (· != 124) with
  | nil =>
    have hall := List.dropWhile_eq_nil_iff.mp h
    simp only [true_iff]
    intro hmem
    simpa using hall _ hmem
  | cons b r =>
    simp only [reduceCtorEq, false_iff, not_not]
    have hb : b = 124 := by
      have := List.head?_dropWhile_not (fun b : Byte => b != 124) input
      simpa [h] using this
    have hmem : b ∈ input.dropWhile (· != 124) := by simp [h]
    exact hb ▸ (List.dropWhile_suffix _).subset hmem

/-- The split is at the first `|`. -/
theorem splitPipe_append {l : Bytes} (hl : 124 ∉ l) (r : Bytes) :
    splitPipe (l ++ 124 :: r) = some (l, r) := by
  have hall : ∀ b ∈ l, (b != 124) = true := by
    intro b hb
    have hne : b ≠ 124 := fun h => hl (h ▸ hb)
    simpa using hne
  unfold splitPipe
  rw [List.dropWhile_append_of_pos hall, List.takeWhile_append_of_pos hall]
  simp

theorem splitPipe_eq_some {input l r : Bytes} :
    splitPipe input = some (l, r) ↔ input = l ++ 124 :: r ∧ 124 ∉ l := by
  constructor
  · intro h
    have hmem : 124 ∈ input := by
      by_contra hn
      rw [splitPipe_eq_none.mpr hn] at h
      cases h
    obtain ⟨a, b, rfl, ha⟩ := List.eq_append_cons_of_mem hmem
    rw [splitPipe_append ha] at h
    cases h
    exact ⟨rfl, ha⟩
  · rintro ⟨rfl, hl⟩
    exact splitPipe_append hl r

/-! ## 3. Redirections -/

/-- What the single-command branch computes from the words: `args`, `infile` and `outfile`. -/
structure Command where
  args : List Bytes
  infile : Option Bytes
  outfile : Option Bytes
deriving DecidableEq, Repr

/-- The words `<` and `>`. -/
def isOp (w : Bytes) : Bool := w == utf8 "<" || w == utf8 ">"

/-- The loop over `temp_args` from some word on, with what was found so far.  Behind an operator
at the end the loop steps over the final `NULL`. -/
def scanLoop (c : Command) : List Bytes → Option Command
  | [] => some c
  | w :: ws =>
    if w = utf8 "<" then
      match ws with
      | [] => none
      | f :: ws => scanLoop { c with infile := some f } ws
    else if w = utf8 ">" then
      match ws with
      | [] => none
      | f :: ws => scanLoop { c with outfile := some f } ws
    else scanLoop { c with args := c.args ++ [w] } ws

/-- The redirection scan of `main`. -/
def scan (ws : List Bytes) : Option Command := scanLoop ⟨[], none, none⟩ ws

/-- The single-command branch up to the dispatch, on the line left by the background test. -/
def single (input : Bytes) : Option Command := (vector input).bind scan

theorem scanLoop_nil (c : Command) : scanLoop c [] = some c := rfl

/-- An operator takes the word behind it. -/
theorem scanLoop_in (c : Command) (f : Bytes) (ws : List Bytes) :
    scanLoop c (utf8 "<" :: f :: ws) = scanLoop { c with infile := some f } ws := rfl

theorem scanLoop_out (c : Command) (f : Bytes) (ws : List Bytes) :
    scanLoop c (utf8 ">" :: f :: ws) = scanLoop { c with outfile := some f } ws := rfl

/-- An operator at the end has no operand. -/
theorem scanLoop_op {w : Bytes} (hw : isOp w = true) (c : Command) : scanLoop c [w] = none := by
  have h : w = utf8 "<" ∨ w = utf8 ">" := by simpa [isOp] using hw
  rcases h with rfl | rfl <;> rfl

/-- A word that is no operator goes to the arguments. -/
theorem scanLoop_word {w : Bytes} (hw : isOp w = false) (c : Command) (ws : List Bytes) :
    scanLoop c (w :: ws) = scanLoop { c with args := c.args ++ [w] } ws := by
  have h : w ≠ utf8 "<" ∧ w ≠ utf8 ">" := by simpa [isOp] using hw
  rw [scanLoop.eq_def]
  simp only [if_neg h.1, if_neg h.2]

theorem scanLoop_words {ws : List Bytes} (h : ∀ w ∈ ws, isOp w = false) (c : Command) :
    scanLoop c ws = some { c with args := c.args ++ ws } := by
  induction ws generalizing c with
  | nil => rw [scanLoop_nil, List.append_nil]
  | cons w ws ih =>
    rw [scanLoop_word (h w List.mem_cons_self), ih fun v hv => h v (List.mem_cons_of_mem _ hv)]
    simp

theorem not_isOp {w : Bytes} (h₁ : w ≠ utf8 "<") (h₂ : w ≠ utf8 ">") : isOp w = false := by
  simp [isOp, h₁, h₂]

/-- The arguments are some of the words, in order, and none of them is an operator. -/
theorem scanLoop_args {ws : List Bytes} {c c' : Command} (h : scanLoop c ws = some c') :
    ∃ as, c'.args = c.args ++ as ∧ as.Sublist ws ∧ ∀ w ∈ as, isOp w = false := by
  fun_induction scanLoop c ws with
  | case1 c =>
    obtain rfl : c = c' := by simpa using h
    exact ⟨[], by simp, .slnil, by simp⟩
  | case2 => cases h
  | case3 c f ws ih =>
    obtain ⟨as, ha, hsub, hop⟩ := ih h
    exact ⟨as, ha, (hsub.cons _).cons _, hop⟩
  | case4 => cases h
  | case5 c _ f ws ih =>
    obtain ⟨as, ha, hsub, hop⟩ := ih h
    exact ⟨as, ha, (hsub.cons _).cons _, hop⟩
  | case6 c w ws h₁ h₂ ih =>
    obtain ⟨as, ha, hsub, hop⟩ := ih h
    refine ⟨w :: as, by simp [ha], hsub.cons_cons _, fun v hv => ?_⟩
    rcases List.mem_cons.mp hv with rfl | hv
    · exact not_isOp h₁ h₂
    · exact hop v hv

/-- The scan leaves the words as they are exactly when none of them is an operator. -/
theorem scan_eq_words {ws : List Bytes} :
    scan ws = some ⟨ws, none, none⟩ ↔ ∀ w ∈ ws, isOp w = false := by
  constructor
  · intro h
    obtain ⟨as, ha, -, hop⟩ := scanLoop_args h
    obtain rfl : ws = as := by simpa using ha
    exact hop
  · intro h
    simpa [scan] using scanLoop_words h ⟨[], none, none⟩

/-- One more word always shows in the result. -/
theorem scanLoop_concat_ne {ws : List Bytes} {c c' : Command} (h : scanLoop c ws = some c')
    (w : Bytes) : scanLoop c (ws ++ [w]) ≠ some c' := by
  fun_induction scanLoop c ws with
  | case1 c =>
    obtain rfl : c = c' := by simpa using h
    by_cases hw : isOp w = true
    · simp [scanLoop_op hw]
    · rw [List.nil_append, scanLoop_word (by simpa using hw), scanLoop_nil]
      intro heq
      simpa using congrArg (Option.map (·.args.length)) heq
  | case2 => cases h
  | case3 c f ws ih =>
    rw [List.cons_append, List.cons_append, scanLoop_in]
    exact ih h
  | case4 => cases h
  | case5 c _ f ws ih =>
    rw [List.cons_append, List.cons_append, scanLoop_out]
    exact ih h
  | case6 c v ws h₁ h₂ ih =>
    rw [List.cons_append, scanLoop_word (not_isOp h₁ h₂)]
    exact ih h

/-- The last word shows in the result, wherever it goes. -/
theorem scanLoop_concat_inj {ws : List Bytes} {c c' : Command} {u v : Bytes}
    (hu : scanLoop c (ws ++ [u]) = some c') (hv : scanLoop c (ws ++ [v]) = some c')
    (hop : isOp v = false) : u = v := by
  fun_induction scanLoop c ws with
  | case1 c =>
    have hop' : isOp u = false := by
      by_contra hop'
      rw [List.nil_append, scanLoop_op (by simpa using hop')] at hu
      cases hu
    rw [List.nil_append, scanLoop_word hop', scanLoop_nil] at hu
    rw [List.nil_append, scanLoop_word hop, scanLoop_nil, ← hu] at hv
    simpa using congrArg (Option.map (·.args)) hv.symm
  | case2 c =>
    rw [List.singleton_append, scanLoop_in, scanLoop_nil] at hu hv
    simpa using congrArg (Option.map (·.infile)) (hu.trans hv.symm)
  | case3 c f ws ih =>
    rw [List.cons_append, List.cons_append, scanLoop_in] at hu hv
    exact ih hu hv
  | case4 c =>
    rw [List.singleton_append, scanLoop_out, scanLoop_nil] at hu hv
    simpa using congrArg (Option.map (·.outfile)) (hu.trans hv.symm)
  | case5 c _ f ws ih =>
    rw [List.cons_append, List.cons_append, scanLoop_out] at hu hv
    exact ih hu hv
  | case6 c w ws h₁ h₂ ih =>
    rw [List.cons_append, scanLoop_word (not_isOp h₁ h₂)] at hu hv
    exact ih hu hv

/-! ## 4. What the shell does with a line -/

/-- The commands that the shell runs itself. -/
inductive Builtin
  | cd | ls | pwd | mkdir | rmdir | ln | cp | rm | mv | cat | grep
deriving DecidableEq, Repr

/-- The built-in commands, in the order in which `main` compares. -/
def Builtin.all : List Builtin :=
  [.cd, .ls, .pwd, .mkdir, .rmdir, .ln, .cp, .rm, .mv, .cat, .grep]

def Builtin.word : Builtin → Bytes
  | .cd => utf8 "cd"
  | .ls => utf8 "ls"
  | .pwd => utf8 "pwd"
  | .mkdir => utf8 "mkdir"
  | .rmdir => utf8 "rmdir"
  | .ln => utf8 "ln"
  | .cp => utf8 "cp"
  | .rm => utf8 "rm"
  | .mv => utf8 "mv"
  | .cat => utf8 "cat"
  | .grep => utf8 "grep"

/-- The chain of `strcmp`s at the end of the single-command branch. -/
def dispatch (word : Bytes) : Option Builtin := Builtin.all.find? (·.word == word)

/-- What `main` does with a line.  A line without a command word is idle, whatever redirections
stand in it. -/
inductive Treatment
  | idle (infile outfile : Option Bytes)
  | exit
  | pipeline (left right : List Bytes)
  | builtin (b : Builtin) (cmd : Command)
  | foreground (cmd : Command)
  | background (cmd : Command)
deriving DecidableEq, Repr

/-- The single-command branch from the dispatch on. -/
def dispatched (bg : Bool) (cmd : Command) : Treatment :=
  match cmd.args with
  | [] => .idle cmd.infile cmd.outfile
  | word :: _ =>
    match dispatch word with
    | some b => .builtin b cmd
    | none => if bg then .background cmd else .foreground cmd

/-- The loop body of `main`, up to the point where something is run. -/
def treat (input : Bytes) : Option Treatment :=
  if input = [] then some (.idle none none)
  else if input = utf8 "exit" then some .exit
  else
    match splitPipe (stripBg input) with
    | some (left, right) =>
      (vector left).bind fun l => (vector right).map fun r => .pipeline l r
    | none => (single (stripBg input)).map (dispatched (isBg input))

example : treat (utf8 "sort < a > b &") =
    some (.background ⟨[utf8 "sort"], some (utf8 "a"), some (utf8 "b")⟩) := by
  decide +kernel

end PosixLab.Shell
