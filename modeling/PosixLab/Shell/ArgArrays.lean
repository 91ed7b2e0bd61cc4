/-
# Where the argument arrays are written

Three arrays are filled while a line of myshell is taken apart, all with room for `MAX_ARG_LEN`
pointers: `p_args` in each child of a pipe, `temp_args` by `parse_args`, and `args` by the
redirection scan.  The simple shell fills one, with room for 50.  None of the loops knows how much
room there is.  The module collects the indices at which a line makes them write, the final
`NULL`s included, and says for which lines they are inside of the arrays: `argument_arrays_iff`.
-/
import PosixLab.Shell.Scan
import PosixLab.Shell.SimpleShell

namespace PosixLab.Shell

/-! ## 1. The indices -/

/-- The indices at which `parse_args` writes, for a text. -/
def parseWrites (text : Bytes) : List Nat :=
  match parseRounds (text.length + 1) (.start (text ++ [0]) fun _ => none) with
  | some s => s.writes
  | none => []

/-- The indices at which the redirection scan writes `args`, in up to `fuel` tests of its
condition. -/
def scanWrites (temp : Nat → Option Bytes) : Nat → ScanState → List Nat
  | 0, _ => []
  | fuel + 1, s =>
    match temp s.i with
    | none => [s.argIdx]
    | some w =>
      if isOp w then scanWrites temp fuel (scanRound temp s w)
      else s.argIdx :: scanWrites temp fuel (scanRound temp s w)

/-- The indices at which `main` of myshell has the argument arrays written for a line; `stale` is
what stands behind the final `NULL` of `temp_args`. -/
def shellWrites (input : Bytes) (stale : Nat → Option Bytes) (fuel : Nat) : List Nat :=
  if input = [] ∨ input = utf8 "exit" then []
  else
    match splitPipe (stripBg input) with
    | some (left, right) => parseWrites left ++ parseWrites right
    | none =>
      parseWrites (stripBg input) ++
        scanWrites (tempArgs (argv (stripBg input)) stale) fuel (.start fun _ => none)

/-- The size of the array `argv` of the simple shell. -/
def maxArgv : Nat := 50

/-- The line that `main` of the simple shell hands to `getargs`: without the final newline. -/
def simpleLine (line : Bytes) : Bytes := if line.getLast? = some 10 then line.dropLast else line

/-- The indices at which `getargs` writes, for a line of the simple shell. -/
def simpleWrites (line : Bytes) : List Nat :=
  match getargsRounds ((simpleLine line).length + 1)
      (.start (simpleLine line ++ [0]) fun _ => none) with
  | some s => s.writes
  | none => []

/-! ## 2. The tokenizers -/

section

variable {text : Bytes}

theorem mem_append_nul (text : Bytes) : 0 ∈ text ++ [0] := by simp

theorem parseWrites_eq (h : NulFree text) : parseWrites text = List.range ((argv text).length + 1) := by
  obtain ⟨s, hs, -, -, -, hwrites, -⟩ := parseRounds_words (mem_append_nul text) fun _ => none
  rw [List.length_append, List.length_singleton] at hs
  rw [parseWrites, hs, argv_eq_tokens h]
  simpa [cstr_append_zero h] using hwrites

theorem simpleWrites_eq {line : Bytes} (h : NulFree line) :
    simpleWrites line = List.range ((tokens isBlank (simpleLine line)).length + 1) := by
  have hline : NulFree (simpleLine line) := by
    unfold simpleLine
    split
    · exact fun b hb => h b (List.mem_of_mem_dropLast hb)
    · exact h
  obtain ⟨t, ht, -, -, -, hwrites⟩ := getargsRounds_words (mem_append_nul (simpleLine line))
    fun _ => none
  rw [List.length_append, List.length_singleton] at ht
  rw [simpleWrites, ht]
  simpa [cstr_append_zero hline] using hwrites

/-- All indices up to the number of words are in range exactly when the number is. -/
theorem forall_mem_range_lt {n m : Nat} : (∀ k ∈ List.range (n + 1), k < m) ↔ n < m := by
  constructor
  · exact fun h => h n (by simp)
  · intro h k hk
    rw [List.mem_range] at hk
    omega

theorem parseWrites_lt_iff (h : NulFree text) :
    (∀ k ∈ parseWrites text, k < maxArgLen) ↔ (tokens isBlank text).length < maxArgLen := by
  rw [parseWrites_eq h, forall_mem_range_lt, argv_eq_tokens h]

end

/-! ## 3. The redirection scan -/

section

variable {temp : Nat → Option Bytes} {s : ScanState} {c c' : Command} {ws : List Bytes} {w : Bytes}

theorem argIdx_scanRound_op (hw : isOp w = true) : (scanRound temp s w).argIdx = s.argIdx := by
  have h : w = utf8 "<" ∨ w = utf8 ">" := by simpa [isOp] using hw
  unfold scanRound
  split
  · rfl
  · rw [if_pos (h.resolve_left ‹_›)]

theorem argIdx_scanRound_word (hw : isOp w = false) :
    (scanRound temp s w).argIdx = s.argIdx + 1 := by
  have h : w ≠ utf8 "<" ∧ w ≠ utf8 ">" := by simpa [isOp] using hw
  simp [scanRound, h.1, h.2]

/-- A scan that stays inside of the words writes no more pointers than there are words. -/
theorem scanWrites_le (h : scanLoop c ws = some c') (htemp : Holds (fun k => temp (s.i + k)) ws)
    {fuel k : Nat} (hk : k ∈ scanWrites temp fuel s) : k ≤ s.argIdx + ws.length := by
  -- behind an operator and its operand as many pointers are left as words
  have hop : ∀ {w f : Bytes} {ws : List Bytes} {s : ScanState} {fuel : Nat}, isOp w = true →
      Holds (fun k => temp (s.i + k)) (w :: f :: ws) → k ∈ scanWrites temp fuel s →
      (∀ {fuel}, Holds (fun k => temp ((scanRound temp s w).i + k)) ws →
        k ∈ scanWrites temp fuel (scanRound temp s w) →
        k ≤ (scanRound temp s w).argIdx + ws.length) →
      k ≤ s.argIdx + (w :: f :: ws).length := by
    intro w f ws s fuel hw htemp hk hrest
    obtain ⟨hi, -, htemp', -⟩ := scanRound_operand hw htemp
    cases fuel with
    | zero => cases hk
    | succ fuel =>
      rw [scanWrites, hi] at hk
      have hle := hrest htemp' (by simpa [hw] using hk)
      rw [argIdx_scanRound_op hw] at hle
      simp only [List.length_cons]
      omega
  fun_induction scanLoop c ws generalizing s fuel with
  | case1 c =>
    have hnull : temp s.i = none := by simpa using htemp 0 (Nat.le_refl _)
    cases fuel with
    | zero => cases hk
    | succ fuel =>
      rw [scanWrites, hnull] at hk
      rw [List.mem_singleton.mp hk]
      exact Nat.le_add_right _ _
  | case2 | case4 => cases h
  | case3 c f ws ih => exact hop isOp_in htemp hk fun htemp' hk' => ih h htemp' hk'
  | case5 c f ws hne ih => exact hop isOp_out htemp hk fun htemp' hk' => ih h htemp' hk'
  | case6 c w ws h₁ h₂ ih =>
    have hw := not_isOp h₁ h₂
    obtain ⟨hi, htemp', -⟩ := scanRound_argument hw htemp
    cases fuel with
    | zero => cases hk
    | succ fuel =>
      rw [scanWrites, hi] at hk
      simp only [hw, Bool.false_eq_true, if_false, List.mem_cons] at hk
      rw [List.length_cons]
      rcases hk with rfl | hk
      · omega
      · have hle := ih h htemp' hk
        rw [argIdx_scanRound_word hw] at hle
        omega

/-- Among words that are no operators the scan goes on writing. -/
theorem mem_scanWrites_of_words (hw : isOp w = false) (htemp : ∀ k ≥ s.i, temp k = some w)
    (n : Nat) : s.argIdx + n ∈ scanWrites temp (n + 1) s := by
  have hi := htemp s.i (Nat.le_refl _)
  induction n generalizing s with
  | zero =>
    rw [scanWrites, hi]
    simp [hw]
  | succ n ih =>
    have hnext := (scanRound_word temp hw s).1
    have hrest := ih (s := scanRound temp s w) (fun k hk => htemp k (by omega))
      (htemp _ (by omega))
    rw [argIdx_scanRound_word hw] at hrest
    rw [scanWrites, hi]
    simp only [hw, Bool.false_eq_true, if_false, List.mem_cons]
    exact .inr (by rwa [show s.argIdx + (n + 1) = s.argIdx + 1 + n by omega])

/-- A scan that steps over the final `NULL`, into words without an end, writes without an end. -/
theorem exists_mem_scanWrites (h : scanLoop c ws = none)
    (htemp : Holds (fun k => temp (s.i + k)) ws) (hw : isOp w = false)
    (hbehind : ∀ k > s.i + ws.length, temp k = some w) (n : Nat) :
    ∃ fuel, ∃ k ∈ scanWrites temp fuel s, n ≤ k := by
  -- what the next round makes the loop write is written
  have hnext : ∀ {v : Bytes} {s : ScanState}, temp s.i = some v →
      (∃ fuel, ∃ k ∈ scanWrites temp fuel (scanRound temp s v), n ≤ k) →
      ∃ fuel, ∃ k ∈ scanWrites temp fuel s, n ≤ k := by
    rintro v s hv ⟨fuel, k, hk, hle⟩
    refine ⟨fuel + 1, k, ?_, hle⟩
    rw [scanWrites, hv]
    cases hop : isOp v with
    | true => simpa [hop] using hk
    | false => simp [hop, hk]
  have hdangling : ∀ {v : Bytes} {s : ScanState}, isOp v = true →
      Holds (fun k => temp (s.i + k)) [v] → (∀ k > s.i + [v].length, temp k = some w) →
      ∃ fuel, ∃ k ∈ scanWrites temp fuel s, n ≤ k := by
    intro v s hv htemp hbehind
    have hi := (scanRound_op temp hv s).1
    refine hnext (holds_tail htemp).1 ⟨n + 1, _, mem_scanWrites_of_words hw (fun k hk => ?_) n, ?_⟩
    · rw [hi] at hk
      exact hbehind k (by simp only [List.length_singleton]; omega)
    · exact Nat.le_add_left _ _
  fun_induction scanLoop c ws generalizing s with
  | case1 => cases h
  | case2 c => exact hdangling isOp_in htemp hbehind
  | case4 c hne => exact hdangling isOp_out htemp hbehind
  | case3 c f ws ih =>
    obtain ⟨hv, -, htemp', hlen⟩ := scanRound_operand isOp_in htemp
    exact hnext hv (ih h htemp' (by rwa [hlen]))
  | case5 c f ws hne ih =>
    obtain ⟨hv, -, htemp', hlen⟩ := scanRound_operand isOp_out htemp
    exact hnext hv (ih h htemp' (by rwa [hlen]))
  | case6 c v ws h₁ h₂ ih =>
    obtain ⟨hv, htemp', hlen⟩ := scanRound_argument (not_isOp h₁ h₂) htemp
    exact hnext hv (ih h htemp' (by rwa [hlen]))

end

/-! ## 4. A line -/

/-- The lines of myshell that keep inside of the arrays, whatever `temp_args` held before. -/
theorem shellWrites_lt_iff {input : Bytes} (h : NulFree input) :
    (∀ stale fuel, ∀ k ∈ shellWrites input stale fuel, k < maxArgLen) ↔ ¬ Overruns input := by
  have hstrip := nulFree_stripBg h
  by_cases hidle : input = [] ∨ input = utf8 "exit"
  · have hnone : ∀ stale fuel, shellWrites input stale fuel = [] := fun _ _ => if_pos hidle
    simp only [hnone, List.not_mem_nil, false_imp_iff, implies_true, true_iff]
    rintro ⟨hnil, hexit, -⟩
    exact hidle.elim hnil hexit
  obtain ⟨hnil, hexit⟩ := not_or.mp hidle
  unfold Overruns shellWrites
  simp only [if_neg hidle]
  cases hsplit : splitPipe (stripBg input) with
  | some p =>
    obtain ⟨hleft, hright⟩ := nulFree_of_splitPipe hstrip hsplit
    simp only [List.mem_append, or_imp, forall_and, parseWrites_lt_iff hleft,
      parseWrites_lt_iff hright, forall_const, ne_eq, hnil, hexit, not_false_eq_true, true_and,
      not_or, Nat.not_le]
  | none =>
    simp only [List.mem_append, or_imp, forall_and, parseWrites_lt_iff hstrip, forall_const, ne_eq,
      hnil, hexit, not_false_eq_true, true_and, not_or, Nat.not_le, ← scan_eq_none,
      argv_eq_tokens hstrip]
    refine and_congr_right fun hlen => ⟨fun hscan hnone => ?_, fun hscan stale fuel k hk => ?_⟩
    · -- behind the `NULL` there may be words without an end
      obtain ⟨fuel, k, hk, hle⟩ := exists_mem_scanWrites (s := .start fun _ => none)
        (w := utf8 "x") hnone (holds_tempArgs _ fun _ => some (utf8 "x")) (by decide)
        (fun k hk => if_neg (by simpa [ScanState.start] using hk)) maxArgLen
      exact absurd (hscan _ fuel k hk) (Nat.not_lt.mpr hle)
    · obtain ⟨c, hc⟩ := Option.ne_none_iff_exists'.mp hscan
      have hle := scanWrites_le hc (holds_tempArgs _ stale) hk
      simp only [ScanState.start, Nat.zero_add] at hle
      omega

/-- For every line of myshell, whatever the arrays held before, and for every line of the simple
shell: all indices at which an argument array is written are inside of it exactly when, in
myshell, every stage has fewer than 64 words and the only stage does not end in an operator
without an operand, and when, in the simple shell, the line has fewer than 50 words. -/
theorem argument_arrays_iff {input line : Bytes} (hinput : NulFree input) (hline : NulFree line) :
    ((∀ stale fuel, ∀ k ∈ shellWrites input stale fuel, k < maxArgLen) ↔ ¬ Overruns input) ∧
      ((∀ k ∈ simpleWrites line, k < maxArgv) ↔
        (tokens isBlank (simpleLine line)).length < maxArgv) := by
  refine ⟨shellWrites_lt_iff hinput, ?_⟩
  rw [simpleWrites_eq hline, forall_mem_range_lt]

/-- A pipe of short stages, and a short line. -/
theorem argument_arrays_iff_short :
    (∀ stale fuel, ∀ k ∈ shellWrites (utf8 "cat a | sort -r &") stale fuel, k < maxArgLen) ∧
      ∀ k ∈ simpleWrites (utf8 "ls -l\n"), k < maxArgv := by
  have hinput : NulFree (utf8 "cat a | sort -r &") := .of_notMem (by decide)
  have hline : NulFree (utf8 "ls -l\n") := .of_notMem (by decide)
  obtain ⟨hshell, hsimple⟩ := argument_arrays_iff hinput hline
  refine ⟨hshell.mpr ?_, hsimple.mpr (by decide)⟩
  rw [← treat_eq_none hinput]
  decide

/-- A line of so many words of one letter. -/
def manyWords (n : Nat) : Bytes := (List.replicate n (utf8 "a ")).flatten

/-- A line of 64 words has the final `NULL` written behind the arrays of myshell, and one of 50
words, which is well under 255 characters long, behind the array of the simple shell. -/
theorem arrays_overrun :
    (¬ ∀ stale fuel, ∀ k ∈ shellWrites (manyWords 64) stale fuel, k < maxArgLen) ∧
      (manyWords 50).length ≤ 255 ∧ ¬ ∀ k ∈ simpleWrites (manyWords 50), k < maxArgv := by
  have hfree : ∀ n, NulFree (manyWords n) := by
    intro n b hb
    obtain ⟨w, hw, hbw⟩ := List.mem_flatten.mp hb
    rw [List.eq_of_mem_replicate hw] at hbw
    exact NulFree.of_notMem (a := utf8 "a ") (by decide) b hbw
  have h64 : treat (manyWords 64) = none := by decide
  have h50 : 49 < (tokens isBlank (simpleLine (manyWords 50))).length := by decide
  refine ⟨?_, by decide, ?_⟩
  · rw [shellWrites_lt_iff (hfree 64), not_not, ← treat_eq_none (hfree 64)]
    exact h64
  · rw [simpleWrites_eq (hfree 50), forall_mem_range_lt]
    exact Nat.not_lt.mpr h50

end PosixLab.Shell
