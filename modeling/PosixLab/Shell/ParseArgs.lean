/-
# The loop of parse_args over its arrays

`parseLoop` of `Line` goes through the text as a list and collects indices.  The function of the
source walks an index over the text, which it edits on the way, and writes a pointer into `args`
where a word starts, before it knows where the word ends.  This module has that loop, with every
index at which it writes `args`.  `parse_args_correct` says what it leaves: the words of the text
as C strings inside it, a final `NULL`, and a text in which only blanks have changed.

A pointer into the text is an index, and `NULL` is `none`.
-/
import Mathlib.Data.List.Forall2
import PosixLab.Shell.Line

namespace PosixLab.Shell

/-! ## 1. Arrays of pointers -/

section

variable {α : Type*}

/-- Write pointers into an array from index `n` on, and a `NULL` behind them. -/
def fill (args : Nat → Option α) (n : Nat) : List α → Nat → Option α
  | [] => Function.update args n none
  | p :: ps => fill (Function.update args n (some p)) (n + 1) ps

/-- What stands before the first pointer stays. -/
theorem fill_of_lt {args : Nat → Option α} {n k : Nat} (h : k < n) (ps : List α) :
    fill args n ps k = args k := by
  induction ps generalizing args n with
  | nil => exact Function.update_of_ne (Nat.ne_of_lt h) _ _
  | cons p ps ih =>
    rw [fill, ih (Nat.lt_succ_of_lt h)]
    exact Function.update_of_ne (Nat.ne_of_lt h) _ _

/-- The pointers, and the `NULL`, from index `n` on. -/
theorem fill_add (args : Nat → Option α) (n : Nat) {k : Nat} {ps : List α} (h : k ≤ ps.length) :
    fill args n ps (n + k) = ps[k]? := by
  induction ps generalizing args n k with
  | nil =>
    obtain rfl : k = 0 := Nat.le_zero.mp h
    simp [fill]
  | cons p ps ih =>
    cases k with
    | zero =>
      have hlt : n < n + 1 := Nat.lt_succ_self n
      change fill (Function.update args n (some p)) (n + 1) ps n = some p
      rw [fill_of_lt hlt, Function.update_self]
    | succ k =>
      rw [fill, show n + (k + 1) = n + 1 + k by omega, ih _ _ (Nat.le_of_succ_le_succ h)]
      simp

end

/-- The C strings that the first `n` pointers of an array point to. -/
def strings (text : Bytes) (args : Nat → Option Nat) (n : Nat) : List (Option Bytes) :=
  (List.range n).map fun k => (args k).map fun p => cstr (text.drop p)

/-- The strings of an array that has been filled. -/
theorem strings_fill (text : Bytes) (args : Nat → Option Nat) (ps : List Nat) :
    strings text (fill args 0 ps) ps.length = ps.map fun p => some (cstr (text.drop p)) := by
  refine List.ext_getElem (by simp [strings]) fun k hk hk' => ?_
  have hlt : k < ps.length := by simpa [strings] using hk
  have hget := fill_add args 0 (Nat.le_of_lt hlt)
  rw [Nat.zero_add] at hget
  simp [strings, hget, hlt]

/-! ## 2. The loop -/

/-- The text, the variables of `parse_args`, the array it fills, and the indices at which it has
written the array. -/
structure ParseState where
  input : Bytes
  i : Nat
  argCount : Nat
  inWord : Bool
  args : Nat → Option Nat
  writes : List Nat

/-- The variables before the loop; the array holds what it held before. -/
def ParseState.start (input : Bytes) (args : Nat → Option Nat) : ParseState :=
  ⟨input, 0, 0, false, args, []⟩

/-- The body of the loop, for the character `b` at `input[i]`. -/
def parseRound (s : ParseState) (b : Byte) : ParseState :=
  if isBlank b then
    if s.inWord then { s with input := s.input.set s.i 0, inWord := false, i := s.i + 1 }
    else { s with i := s.i + 1 }
  else if s.inWord then { s with i := s.i + 1 }
  else
    { s with
      args := Function.update s.args s.argCount (some s.i)
      argCount := s.argCount + 1
      inWord := true
      i := s.i + 1
      writes := s.writes ++ [s.argCount] }

/-- The loop, for up to `fuel` tests of its condition, and the final `NULL` of `args`.  There is
no result where the text has no end. -/
def parseRounds : Nat → ParseState → Option ParseState
  | 0, _ => none
  | fuel + 1, s =>
    match s.input[s.i]? with
    | none => none
    | some b =>
      if b = 0 then
        some { s with
          args := Function.update s.args s.argCount none
          writes := s.writes ++ [s.argCount] }
      else parseRounds fuel (parseRound s b)

/-! ## 3. What the loop does -/

/-- Only blanks change, and become NULs. -/
def Edited (text text' : Bytes) : Prop :=
  List.Forall₂ (fun b b' => b' = b ∨ isBlank b = true ∧ b' = 0) text text'

theorem Edited.refl (text : Bytes) : Edited text text := List.forall₂_same.mpr fun _ _ => .inl rfl

/-- One character of the text, whether or not it is blank and stands in a word. -/
theorem parseLoop_cons (i : Nat) (w : Bool) (b : Byte) (s : Bytes) :
    parseLoop i w (b :: s) =
      ((if isBlank b && w then 0 else b) :: (parseLoop (i + 1) (!isBlank b) s).1,
        (if isBlank b || w then [] else [i]) ++ (parseLoop (i + 1) (!isBlank b) s).2) := by
  cases hb : isBlank b <;> cases w <;> simp [parseLoop, hb]

theorem edited_parseLoop (s : Bytes) (i : Nat) (w : Bool) : Edited s (parseLoop i w s).1 := by
  induction s generalizing i w with
  | nil => exact .nil
  | cons b s ih =>
    rw [parseLoop_cons]
    refine .cons ?_ (ih _ _)
    split
    · rename_i h
      exact .inr ⟨(Bool.and_eq_true_iff.mp h).1, rfl⟩
    · exact .inl rfl

theorem length_parseLoop (s : Bytes) (i : Nat) (w : Bool) : (parseLoop i w s).1.length = s.length :=
  (edited_parseLoop s i w).length_eq.symm

/-- The pointers point into the text. -/
theorem lt_of_mem_parseLoop {s : Bytes} {i k : Nat} {w : Bool} (h : k ∈ (parseLoop i w s).2) :
    k < i + s.length := by
  induction s generalizing i w with
  | nil => simp [parseLoop] at h
  | cons b s ih =>
    rw [parseLoop_cons] at h
    rw [List.length_cons]
    rcases List.mem_append.mp h with h | h
    · split at h
      · cases h
      · rw [List.mem_singleton.mp h]
        omega
    · have := ih h
      omega

/-- What one round does: the pointers `ps` that it writes, if any, go in front of those that
follow. -/
theorem parseRound_spec {s : ParseState} {b : Byte} (hb : s.input[s.i]? = some b) {ps : List Nat}
    (hps : ps = if isBlank b || s.inWord then [] else [s.i]) :
    (parseRound s b).i = s.i + 1 ∧ (parseRound s b).inWord = (!isBlank b) ∧
      (parseRound s b).input = s.input.set s.i (if isBlank b && s.inWord then 0 else b) ∧
      (parseRound s b).argCount = s.argCount + ps.length ∧
      (∀ qs, fill (parseRound s b).args (parseRound s b).argCount qs =
        fill s.args s.argCount (ps ++ qs)) ∧
      ∀ m, (parseRound s b).writes ++ List.range' (parseRound s b).argCount m =
        s.writes ++ List.range' s.argCount (ps.length + m) := by
  have hsame : s.input.set s.i b = s.input := by
    obtain ⟨hlt, rfl⟩ := List.getElem?_eq_some_iff.mp hb
    exact List.set_getElem_self hlt
  cases hblank : isBlank b <;> cases hw : s.inWord <;>
    simp only [hblank, hw, Bool.or_self, Bool.or_true, Bool.or_false, Bool.false_eq_true, if_false,
      if_true] at hps <;> subst hps
  · -- a word starts
    refine ⟨by simp [parseRound, hblank, hw], by simp [parseRound, hblank, hw],
      by simp [parseRound, hblank, hw, hsame], by simp [parseRound, hblank, hw],
      fun qs => by simp [parseRound, hblank, hw, fill], fun m => ?_⟩
    simp [parseRound, hblank, hw, Nat.add_comm 1 m, List.range'_succ]
  · simp [parseRound, hblank, hw, hsame]
  · simp [parseRound, hblank, hw, hsame]
  · simp [parseRound, hblank, hw]

/-- The loop from index `i` on: it edits the text as `parseLoop` does, and fills the array with
the indices that `parseLoop` collects. -/
theorem parseRounds_eq {rest : Bytes} (hrest : NulFree rest) {fuel : Nat}
    (hfuel : rest.length < fuel) {s : ParseState} {p junk : Bytes}
    (hinput : s.input = p ++ (rest ++ 0 :: junk)) (hi : s.i = p.length) :
    ∃ t, parseRounds fuel s = some t ∧
      t.input = p ++ ((parseLoop s.i s.inWord rest).1 ++ 0 :: junk) ∧
      t.argCount = s.argCount + (parseLoop s.i s.inWord rest).2.length ∧
      t.args = fill s.args s.argCount (parseLoop s.i s.inWord rest).2 ∧
      t.writes = s.writes ++
        List.range' s.argCount ((parseLoop s.i s.inWord rest).2.length + 1) := by
  induction rest generalizing fuel s p with
  | nil =>
    obtain ⟨fuel, rfl⟩ := Nat.exists_eq_succ_of_ne_zero (Nat.ne_of_gt hfuel)
    have hget : s.input[s.i]? = some 0 := by simp [hinput, hi]
    rw [parseRounds, hget]
    exact ⟨_, rfl, hinput, rfl, rfl, rfl⟩
  | cons b rest ih =>
    obtain ⟨fuel, rfl⟩ := Nat.exists_eq_succ_of_ne_zero (Nat.ne_of_gt (Nat.zero_lt_of_lt hfuel))
    have hb : b ≠ 0 := hrest b List.mem_cons_self
    have hget : s.input[s.i]? = some b := by simp [hinput, hi]
    have hround : parseRounds (fuel + 1) s = parseRounds fuel (parseRound s b) := by
      rw [parseRounds, hget]
      exact if_neg hb
    obtain ⟨hi', hw', hinput', hcount', hargs', hwrites'⟩ := parseRound_spec hget rfl
    obtain ⟨t, ht, hin, hcount, hargs, hwrites⟩ := ih
      (fun x hx => hrest x (List.mem_cons_of_mem _ hx)) (Nat.lt_of_succ_lt_succ hfuel)
      (s := parseRound s b) (p := p ++ [if isBlank b && s.inWord then 0 else b])
      (by simp [hinput', hinput, hi]) (by simp [hi', hi])
    rw [hi', hw'] at hin hcount hargs hwrites
    rw [parseLoop_cons]
    refine ⟨t, hround.trans ht, by simpa using hin, ?_, hargs.trans (hargs' _), ?_⟩
    · rw [hcount, hcount', List.length_append, Nat.add_assoc]
    · rw [hwrites, hwrites', List.length_append, Nat.add_assoc]

/-! ## 4. What the function leaves -/

/-- A text with a NUL in it is its C string, the NUL, and what is behind. -/
theorem exists_eq_cstr_append {a : Bytes} (h : 0 ∈ a) : ∃ junk, a = cstr a ++ 0 :: junk := by
  obtain ⟨l, r, rfl, hl⟩ := List.eq_append_cons_of_mem h
  have hfree : NulFree l := fun b hb h0 => hl (h0 ▸ hb)
  exact ⟨r, by rw [cstr_append_zero hfree]⟩

/-- What the function leaves, and where it writes the array. -/
theorem parseRounds_words {input : Bytes} (hnul : 0 ∈ input) (args : Nat → Option Nat) :
    ∃ s, parseRounds input.length (.start input args) = some s ∧
      s.argCount = (tokens isBlank (cstr input)).length ∧
      strings s.input s.args s.argCount = (tokens isBlank (cstr input)).map some ∧
      s.args s.argCount = none ∧
      s.writes = List.range ((tokens isBlank (cstr input)).length + 1) ∧
      Edited input s.input := by
  obtain ⟨junk, hsplit⟩ := exists_eq_cstr_append hnul
  have hlen : (cstr input).length < input.length := by
    conv_rhs => rw [hsplit]
    simp
  obtain ⟨s, hs, hinput, hcount, hargs, hwrites⟩ := parseRounds_eq (nulFree_cstr input) hlen
    (s := .start input args) (p := []) hsplit rfl
  simp only [ParseState.start, List.nil_append, Nat.zero_add] at hinput hcount hargs hwrites
  have hwords : (parseLoop 0 false (cstr input)).2.map (fun p => some (cstr (s.input.drop p))) =
      (tokens isBlank (cstr input)).map some := by
    rw [← argv_eq_tokens (nulFree_cstr input), argv, List.map_map]
    refine List.map_congr_left fun p hp => ?_
    have hp' : p ≤ (parseLoop 0 false (cstr input)).1.length := by
      have := lt_of_mem_parseLoop hp
      rw [length_parseLoop]
      omega
    -- the NUL that ends the text ends its last word too
    simp only [hinput, Function.comp_apply, parseArgs]
    rw [List.drop_append_of_le_length hp', cstr_append_nul]
  have hnum : (parseLoop 0 false (cstr input)).2.length = (tokens isBlank (cstr input)).length := by
    simpa using congrArg List.length hwords
  refine ⟨s, hs, hcount.trans hnum, ?_, ?_, ?_, ?_⟩
  · rw [hcount, hargs, strings_fill, hwords]
  · have hget := fill_add args 0 (Nat.le_refl (parseLoop 0 false (cstr input)).2.length)
    rw [hcount, hargs]
    simpa using hget
  · rw [hwrites, hnum, List.range_eq_range']
  · rw [hsplit, hinput]
    exact List.rel_append (edited_parseLoop _ _ _) (Edited.refl _)

/-- For every text that a NUL ends, and whatever `args` and the bytes behind the NUL hold: the
function returns the number of words, `args` points to the words, in order, and ends with a
`NULL`, nothing is written outside of an array that has room for them, and of the text only
blanks have changed. -/
theorem parse_args_correct {input : Bytes} (hnul : 0 ∈ input) {cap : Nat}
    (hcap : (tokens isBlank (cstr input)).length < cap) (args : Nat → Option Nat) :
    ∃ s, parseRounds input.length (.start input args) = some s ∧
      s.argCount = (tokens isBlank (cstr input)).length ∧
      strings s.input s.args s.argCount = (tokens isBlank (cstr input)).map some ∧
      s.args s.argCount = none ∧ (∀ k ∈ s.writes, k < cap) ∧ Edited input s.input := by
  obtain ⟨s, hs, hcount, hstrings, hnull, hwrites, hedited⟩ := parseRounds_words hnul args
  refine ⟨s, hs, hcount, hstrings, hnull, fun k hk => ?_, hedited⟩
  rw [hwrites, List.mem_range] at hk
  omega

/-- Three words with blanks around them, in an array of four pointers. -/
theorem parse_args_three_words :
    ∃ s, parseRounds 12 (.start (utf8 " cp \t-i a " ++ [0, 98]) fun _ => some 7) = some s ∧
      s.argCount = 3 ∧
      strings s.input s.args 3 = [some (utf8 "cp"), some (utf8 "-i"), some (utf8 "a")] ∧
      s.args 3 = none ∧ (∀ k ∈ s.writes, k < 4) ∧
      Edited (utf8 " cp \t-i a " ++ [0, 98]) s.input := by
  have htokens : tokens isBlank (cstr (utf8 " cp \t-i a " ++ [0, 98])) =
      [utf8 "cp", utf8 "-i", utf8 "a"] := by
    decide
  obtain ⟨s, hs, hcount, hstrings, hnull, hwrites, hedited⟩ :=
    @parse_args_correct (utf8 " cp \t-i a " ++ [0, 98]) (by decide) 4
      (by rw [htokens]; decide) fun _ => some 7
  rw [htokens] at hcount hstrings
  have hthree : s.argCount = 3 := hcount
  rw [hthree] at hstrings hnull
  exact ⟨s, hs, hthree, hstrings, hnull, hwrites, hedited⟩

end PosixLab.Shell
