/-
# The words of the simple shell

`getargs` of `simplesh.c` is a second tokenizer.  It takes a word at a time, with an inner loop to
the end of the word, and overwrites every blank, where `parse_args` of myshell walks through the
text once and overwrites the first blank behind each word.  Both point at the places where words
start (`getargsRounds_eq`), so the two find the same words: `shells_tokenize_alike`.
-/
import PosixLab.Shell.ParseArgs

namespace PosixLab.Shell

/-! ## 1. The loops -/

/-- The text, the variables of `getargs`, the array it fills, and the indices at which it has
written the array.  The pointer `cmd` is an index into the text. -/
structure GetargsState where
  buf : Bytes
  cmd : Nat
  narg : Nat
  argv : Nat → Option Nat
  writes : List Nat

/-- The variables before the loop; the array holds what it held before. -/
def GetargsState.start (buf : Bytes) (argv : Nat → Option Nat) : GetargsState :=
  ⟨buf, 0, 0, argv, []⟩

/-- The inner loop: from `cmd` on to the next blank or to the end of the text. -/
def skipWord (buf : Bytes) (cmd : Nat) : Nat :=
  cmd + ((buf.drop cmd).takeWhile fun b => b != 0 && !isBlank b).length

/-- The body of the outer loop, for the character `b` at `*cmd`. -/
def getargsRound (s : GetargsState) (b : Byte) : GetargsState :=
  if isBlank b then { s with buf := s.buf.set s.cmd 0, cmd := s.cmd + 1 }
  else
    { s with
      argv := Function.update s.argv s.narg (some s.cmd)
      narg := s.narg + 1
      cmd := skipWord s.buf (s.cmd + 1)
      writes := s.writes ++ [s.narg] }

/-- The outer loop, for up to `fuel` tests of its condition, and the final `NULL` of `argv`. -/
def getargsRounds : Nat → GetargsState → Option GetargsState
  | 0, _ => none
  | fuel + 1, s =>
    match s.buf[s.cmd]? with
    | none => none
    | some b =>
      if b = 0 then
        some { s with
          argv := Function.update s.argv s.narg none
          writes := s.writes ++ [s.narg] }
      else getargsRounds fuel (getargsRound s b)

/-! ## 2. What they do -/

/-- Every blank becomes a NUL. -/
def blanked (s : Bytes) : Bytes := s.map fun b => if isBlank b then 0 else b

@[simp] theorem length_blanked (s : Bytes) : (blanked s).length = s.length := List.length_map _

/-- In the edited text a word ends at the next blank. -/
theorem cstr_blanked {s : Bytes} (hs : NulFree s) : cstr (blanked s) = s.takeWhile (!isBlank ·) := by
  induction s with
  | nil => rfl
  | cons b s ih =>
    have hb : b ≠ 0 := hs b List.mem_cons_self
    have ih' := ih fun x hx => hs x (List.mem_cons_of_mem _ hx)
    cases hblank : isBlank b with
    | true => simp [blanked, cstr, hblank]
    | false =>
      rw [List.takeWhile_cons_of_pos (by simp [hblank]), ← ih']
      simp [blanked, cstr, hblank, hb]

/-- A word stays as it is. -/
theorem blanked_cons {b : Byte} (hb : isBlank b = false) (s : Bytes) :
    blanked (b :: s) = b :: (s.takeWhile (!isBlank ·) ++ blanked (s.dropWhile (!isBlank ·))) := by
  have hword : blanked (s.takeWhile (!isBlank ·)) = s.takeWhile (!isBlank ·) := by
    refine (List.map_congr_left fun c hc => ?_).trans (List.map_id _)
    have hblank : isBlank c = false := by simpa using List.mem_takeWhile_imp hc
    simp [hblank]
  have hsplit : blanked s =
      blanked (s.takeWhile (!isBlank ·)) ++ blanked (s.dropWhile (!isBlank ·)) := by
    rw [blanked, blanked, blanked, ← List.map_append, List.takeWhile_append_dropWhile]
  rw [← hword, ← hsplit]
  simp [blanked, hb]

/-- Inside a word `parse_args` finds the pointers that stand behind it. -/
theorem parseLoop_word (s : Bytes) (i : Nat) :
    (parseLoop i true s).2 =
      (parseLoop (i + (s.takeWhile (!isBlank ·)).length) false (s.dropWhile (!isBlank ·))).2 := by
  induction s generalizing i with
  | nil => rfl
  | cons b s ih =>
    cases hblank : isBlank b with
    | true =>
      rw [List.takeWhile_cons_of_neg (by simp [hblank]),
        List.dropWhile_cons_of_neg (by simp [hblank])]
      simp [parseLoop_cons, hblank]
    | false =>
      rw [List.takeWhile_cons_of_pos (by simp [hblank]), List.dropWhile_cons_of_pos (by simp [hblank]),
        List.length_cons, show ∀ n, i + (n + 1) = i + 1 + n by omega, ← ih, parseLoop_cons]
      simp [hblank]

/-- Each pointer of `parse_args` points at the start of a token. -/
theorem map_parseLoop_eq_tokens (s : Bytes) (i : Nat) :
    ((parseLoop i false s).2.map fun p => (s.drop (p - i)).takeWhile (!isBlank ·)) =
        tokens isBlank s ∧
      ((parseLoop i true s).2.map fun p => (s.drop (p - i)).takeWhile (!isBlank ·)) =
        tokens isBlank (s.dropWhile (!isBlank ·)) := by
  induction s generalizing i with
  | nil => simp [parseLoop]
  | cons b s ih =>
    obtain ⟨ih₁, ih₂⟩ := ih (i + 1)
    -- the pointers of the rest point behind `b`
    have hshift : ∀ w, ((parseLoop (i + 1) w s).2.map fun p =>
        ((b :: s).drop (p - i)).takeWhile (!isBlank ·)) =
          (parseLoop (i + 1) w s).2.map fun p => (s.drop (p - (i + 1))).takeWhile (!isBlank ·) := by
      intro w
      refine List.map_congr_left fun p hp => ?_
      have hle := le_of_mem_parseLoop hp
      rw [show p - i = p - (i + 1) + 1 by omega, List.drop_succ_cons]
    cases hblank : isBlank b with
    | true =>
      rw [tokens_cons_sep hblank, List.dropWhile_cons_of_neg (by simp [hblank]),
        tokens_cons_sep hblank, parseLoop_cons, parseLoop_cons]
      simp only [hblank, Bool.true_or, if_true, List.nil_append, Bool.not_true, hshift, ih₁,
        and_self]
    | false =>
      rw [tokens_cons hblank, List.dropWhile_cons_of_pos (by simp [hblank]), parseLoop_cons,
        parseLoop_cons]
      simp only [hblank, Bool.or_false, Bool.or_true, if_true, Bool.false_eq_true, if_false,
        List.nil_append, List.singleton_append, Bool.not_false, List.map_cons, Nat.sub_self,
        List.drop_zero, hshift, ih₂, and_true]
      rw [List.takeWhile_cons_of_pos (by simp [hblank])]

/-- The inner loop stops behind the word. -/
theorem skipWord_eq {buf pre rest junk : Bytes} (hrest : NulFree rest)
    (hbuf : buf = pre ++ (rest ++ 0 :: junk)) :
    skipWord buf pre.length = pre.length + (rest.takeWhile (!isBlank ·)).length := by
  subst hbuf
  have hword : ((rest ++ 0 :: junk).takeWhile fun b => b != 0 && !isBlank b) =
      rest.takeWhile (!isBlank ·) := by
    induction rest with
    | nil => simp
    | cons b rest ih =>
      have hb : b ≠ 0 := hrest b List.mem_cons_self
      have ih' := ih (fun x hx => hrest x (List.mem_cons_of_mem _ hx))
      cases hblank : isBlank b <;> simp [hblank, hb, ih']
  rw [skipWord, List.drop_left, hword]

/-- The loops from `cmd` on: every blank is overwritten, and the array is filled with the indices
that `parse_args` finds. -/
theorem getargsRounds_eq {fuel : Nat} {rest : Bytes} (hrest : NulFree rest)
    (hfuel : rest.length < fuel) {s : GetargsState} {p junk : Bytes}
    (hbuf : s.buf = p ++ (rest ++ 0 :: junk)) (hcmd : s.cmd = p.length) :
    ∃ t, getargsRounds fuel s = some t ∧ t.buf = p ++ (blanked rest ++ 0 :: junk) ∧
      t.narg = s.narg + (parseLoop s.cmd false rest).2.length ∧
      t.argv = fill s.argv s.narg (parseLoop s.cmd false rest).2 ∧
      t.writes = s.writes ++
        List.range' s.narg ((parseLoop s.cmd false rest).2.length + 1) := by
  induction fuel generalizing rest s p with
  | zero => exact absurd hfuel (Nat.not_lt_zero _)
  | succ fuel ih =>
    cases rest with
    | nil =>
      have hget : s.buf[s.cmd]? = some 0 := by simp [hbuf, hcmd]
      rw [getargsRounds, hget]
      exact ⟨_, rfl, hbuf, rfl, rfl, rfl⟩
    | cons b rest =>
      have hb : b ≠ 0 := hrest b List.mem_cons_self
      have hrest' : NulFree rest := fun x hx => hrest x (List.mem_cons_of_mem _ hx)
      have hlen : rest.length < fuel := Nat.lt_of_succ_lt_succ hfuel
      have hget : s.buf[s.cmd]? = some b := by simp [hbuf, hcmd]
      have hround : getargsRounds (fuel + 1) s = getargsRounds fuel (getargsRound s b) := by
        rw [getargsRounds, hget]
        exact if_neg hb
      rw [hround]
      cases hblank : isBlank b with
      | true =>
        obtain ⟨t, ht, hbuf', hnarg, hargv, hwrites⟩ := ih hrest' hlen (s := getargsRound s b)
          (p := p ++ [0]) (by simp [getargsRound, hblank, hbuf, hcmd])
          (by simp [getargsRound, hblank, hcmd])
        have hpointers : (parseLoop s.cmd false (b :: rest)).2 =
            (parseLoop (s.cmd + 1) false rest).2 := by
          simp [parseLoop_cons, hblank]
        have hs : getargsRound s b = { s with buf := s.buf.set s.cmd 0, cmd := s.cmd + 1 } :=
          if_pos hblank
        rw [hpointers]
        rw [hs] at hnarg hargv hwrites
        exact ⟨t, ht, by simpa [blanked, hblank] using hbuf', hnarg, hargv, hwrites⟩
      | false =>
        -- the inner loop takes the rest of the word
        have hsplit : s.buf = (p ++ [b]) ++ (rest ++ 0 :: junk) := by simp [hbuf]
        have hskip : skipWord s.buf (s.cmd + 1) =
            s.cmd + 1 + (rest.takeWhile (!isBlank ·)).length := by
          have h := skipWord_eq hrest' hsplit
          rwa [List.length_append, List.length_singleton, ← hcmd] at h
        have hdrop : NulFree (rest.dropWhile (!isBlank ·)) :=
          fun x hx => hrest' x ((List.dropWhile_suffix _).subset hx)
        have hs : getargsRound s b =
            { s with
              argv := Function.update s.argv s.narg (some s.cmd)
              narg := s.narg + 1
              cmd := s.cmd + 1 + (rest.takeWhile (!isBlank ·)).length
              writes := s.writes ++ [s.narg] } := by
          rw [← hskip]
          exact if_neg (by simp [hblank])
        obtain ⟨t, ht, hbuf', hnarg, hargv, hwrites⟩ := ih hdrop
          (Nat.lt_of_le_of_lt (List.dropWhile_suffix _).length_le hlen) (s := getargsRound s b)
          (p := p ++ b :: rest.takeWhile (!isBlank ·))
          (by rw [hs, List.append_assoc, List.cons_append, ← List.append_assoc (List.takeWhile _ _),
            List.takeWhile_append_dropWhile]; exact hbuf)
          (by simp [hs, hcmd]; omega)
        have hpointers : (parseLoop s.cmd false (b :: rest)).2 =
            s.cmd :: (parseLoop (s.cmd + 1 + (rest.takeWhile (!isBlank ·)).length) false
              (rest.dropWhile (!isBlank ·))).2 := by
          rw [← parseLoop_word, parseLoop_cons]
          simp [hblank]
        rw [hs] at hnarg hargv hwrites
        rw [hpointers]
        refine ⟨t, ht, ?_, ?_, ?_, ?_⟩
        · rw [hbuf', blanked_cons hblank]
          simp
        · rw [hnarg, List.length_cons]
          dsimp only
          omega
        · rw [hargv, fill]
        · rw [hwrites, List.length_cons]
          simp [List.range'_succ]

/-! ## 3. The words of both -/

/-- What `getargs` leaves, and where it writes the array. -/
theorem getargsRounds_words {buf : Bytes} (hnul : 0 ∈ buf) (argv : Nat → Option Nat) :
    ∃ t, getargsRounds buf.length (.start buf argv) = some t ∧
      t.narg = (tokens isBlank (cstr buf)).length ∧
      strings t.buf t.argv t.narg = (tokens isBlank (cstr buf)).map some ∧
      t.argv t.narg = none ∧ t.writes = List.range ((tokens isBlank (cstr buf)).length + 1) := by
  obtain ⟨junk, hsplit⟩ := exists_eq_cstr_append hnul
  have hlen : (cstr buf).length < buf.length := by
    conv_rhs => rw [hsplit]
    simp
  obtain ⟨t, ht, hbuf, hnarg, hargv, hwrites⟩ := getargsRounds_eq (nulFree_cstr buf) hlen
    (s := .start buf argv) (p := []) hsplit rfl
  simp only [GetargsState.start, List.nil_append, Nat.zero_add] at hbuf hnarg hargv hwrites
  have hwords : (parseLoop 0 false (cstr buf)).2.map (fun p => some (cstr (t.buf.drop p))) =
      (tokens isBlank (cstr buf)).map some := by
    rw [← (map_parseLoop_eq_tokens (cstr buf) 0).1, List.map_map]
    refine List.map_congr_left fun p hp => ?_
    have hp' : p ≤ (blanked (cstr buf)).length := by
      have := lt_of_mem_parseLoop hp
      rw [length_blanked]
      omega
    have hfree : NulFree ((cstr buf).drop p) :=
      fun x hx => nulFree_cstr buf x (List.mem_of_mem_drop hx)
    simp only [hbuf, Function.comp_apply, Nat.sub_zero]
    rw [List.drop_append_of_le_length hp', cstr_append_nul, ← cstr_blanked hfree, blanked, blanked,
      List.map_drop]
  have hnum : (parseLoop 0 false (cstr buf)).2.length = (tokens isBlank (cstr buf)).length := by
    simpa using congrArg List.length hwords
  refine ⟨t, ht, hnarg.trans hnum, ?_, ?_, ?_⟩
  · rw [hnarg, hargv, strings_fill, hwords]
  · have hget := fill_add argv 0 (Nat.le_refl (parseLoop 0 false (cstr buf)).2.length)
    rw [hnarg, hargv]
    simpa using hget
  · rw [hwrites, hnum, List.range_eq_range']

/-- For every text that a NUL ends: both tokenizers come to an end with the same number of words,
and the arrays of both point to the same strings, which are the words of the text. -/
theorem shells_tokenize_alike {input : Bytes} (hnul : 0 ∈ input) (args argv : Nat → Option Nat) :
    ∃ s t, parseRounds input.length (.start input args) = some s ∧
      getargsRounds input.length (.start input argv) = some t ∧ t.narg = s.argCount ∧
      strings t.buf t.argv t.narg = strings s.input s.args s.argCount ∧
      strings s.input s.args s.argCount = (tokens isBlank (cstr input)).map some := by
  obtain ⟨s, hs, hcount, hstrings, -⟩ := parseRounds_words hnul args
  obtain ⟨t, ht, hnarg, hstrings', -⟩ := getargsRounds_words hnul argv
  exact ⟨s, t, hs, ht, hnarg.trans hcount.symm, hstrings'.trans hstrings.symm, hstrings⟩

/-- Two words with two blanks between them and one behind. -/
theorem shells_tokenize_alike_two_blanks :
    ∃ s t, parseRounds 8 (.start (utf8 "ls  -l " ++ [0]) fun _ => none) = some s ∧
      getargsRounds 8 (.start (utf8 "ls  -l " ++ [0]) fun _ => none) = some t ∧
      t.narg = s.argCount ∧ strings t.buf t.argv t.narg = strings s.input s.args s.argCount ∧
      strings s.input s.args s.argCount = [some (utf8 "ls"), some (utf8 "-l")] := by
  have htokens : tokens isBlank (cstr (utf8 "ls  -l " ++ [0])) = [utf8 "ls", utf8 "-l"] := by
    decide
  obtain ⟨s, t, hs, ht, hcount, hstrings, hwords⟩ :=
    @shells_tokenize_alike (utf8 "ls  -l " ++ [0]) (by decide) (fun _ => none)
      fun _ => none
  rw [htokens] at hwords
  exact ⟨s, t, hs, ht, hcount, hstrings, hwords⟩

example :
    (parseRounds 8 (.start (utf8 "ls  -l " ++ [0]) fun _ => none)).map (·.input) =
        some (utf8 "ls" ++ [0, 32] ++ utf8 "-l" ++ [0, 0]) ∧
      (getargsRounds 8 (.start (utf8 "ls  -l " ++ [0]) fun _ => none)).map (·.buf) =
        some (utf8 "ls" ++ [0, 0] ++ utf8 "-l" ++ [0, 0]) := by
  decide

end PosixLab.Shell
