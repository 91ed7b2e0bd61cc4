/-
# The password prompt

`password.c` reads attempts from the terminal until one of them is the password, or the input
ends.  In canonical mode a `read` gives what is left of a line, as far as the array holds it, so
the attempts are the chunks of the typed text (`attempts`); the last byte of each is overwritten,
whether it is the end of a line or not.  Both exits of the loop lead to the same message, so it is
printed whatever was typed (`success_iff`).
-/
import PosixLab.Basis.CString
import PosixLab.Basis.Lines

namespace PosixLab.Programs

open PosixLab

/-! ## 1. The program -/

/-- `PASSWORDSIZE`. -/
def passwordSize : Nat := 12

/-- `passwd`. -/
def passwd : Bytes := utf8 "secret"

/-- A text that is written to the terminal, or printed. -/
inductive Output
  | write (text : Bytes)
  | printf (text : Bytes)
deriving DecidableEq

def wrongText : Bytes := utf8 "패스워드가 틀렸습니다.\n"

def successText : Bytes := utf8 "패스워드 입력이 성공했습니다.\n"

/-- The end of a line. -/
def isEol (b : Byte) : Bool := b == 10

/-- The array `buf` behind a read and `buf[nread-1] = '\0'`. -/
def afterRead (buf r : Bytes) : Bytes := (store buf r).set (r.length - 1) 0

/-- The loop, on what the calls of `read` give until one of them gives nothing. -/
def attemptLoop (buf : Bytes) : List Bytes → List Output
  | [] => []
  | r :: rs =>
    .printf (utf8 "\n") ::
      if cstr (afterRead buf r) = passwd then []
      else .printf wrongText :: .write (utf8 "Password: " ++ [0]) ::
        attemptLoop (afterRead buf r) rs

/-- What the calls of `read` give when the text is typed, each line to its end. -/
def attempts (typed : Bytes) : List Bytes := chunks isEol (passwordSize - 1) typed

/-- All that `main` writes; the array is not set at first. -/
def passwordMain (buf typed : Bytes) : List Output :=
  .write (utf8 "Password: ") :: attemptLoop buf (attempts typed) ++ [.printf successText]

/-- The program reports success. -/
def ReportsSuccess (out : List Output) : Prop := .printf successText ∈ out

/-- Some whole line is the password. -/
def Entered (typed : Bytes) : Prop := passwd ++ [10] ∈ lines isEol typed

instance (out : List Output) : Decidable (ReportsSuccess out) := inferInstanceAs (Decidable (_ ∈ _))

instance (typed : Bytes) : Decidable (Entered typed) := inferInstanceAs (Decidable (_ ∈ _))

/-! ## 2. What is compared -/

/-- What a read has to give for its attempt to be the password. -/
def matchesPasswd (r : Bytes) : Bool := cstr r.dropLast == passwd

/-- The array holds what was read, without its last byte. -/
theorem cstr_afterRead (buf : Bytes) {r : Bytes} (hr : r ≠ []) :
    cstr (afterRead buf r) = cstr r.dropLast := by
  obtain ⟨q, b, rfl⟩ : ∃ q b, r = q ++ [b] :=
    ⟨r.dropLast, r.getLast hr, (List.dropLast_append_getLast hr).symm⟩
  have hset : afterRead buf (q ++ [b]) = q ++ 0 :: buf.drop (q ++ [b]).length := by
    simp [afterRead, store]
  rw [hset, cstr_append_nul, List.dropLast_concat]

/-- The program says of each attempt before the first right one that it is wrong. -/
theorem count_wrongText (buf : Bytes) {rs : List Bytes} (hrs : [] ∉ rs) :
    (attemptLoop buf rs).count (.printf wrongText) =
      (rs.takeWhile (!matchesPasswd ·)).length := by
  have hne : Output.printf (utf8 "\n") ≠ .printf wrongText := by decide
  induction rs generalizing buf with
  | nil => rfl
  | cons r rs ih =>
    have hr : r ≠ [] := fun h => hrs (h ▸ List.mem_cons_self)
    have hrest : [] ∉ rs := fun h => hrs (List.mem_cons_of_mem _ h)
    rw [attemptLoop, cstr_afterRead buf hr, List.count_cons_of_ne hne, List.takeWhile_cons]
    by_cases h : cstr r.dropLast = passwd
    · simp [h, matchesPasswd]
    · rw [if_neg h, List.count_cons_self, List.count_cons_of_ne (by simp), ih _ hrest]
      simp [h, matchesPasswd]

/-- If no line is too long for the array, and none has a NUL or no end, then an attempt is the
password exactly if a line is. -/
theorem exists_matchesPasswd_iff {typed : Bytes}
    (hshort : ∀ l ∈ lines isEol typed, l.length ≤ passwordSize)
    (hended : ∀ l ∈ lines isEol typed, ∃ q, l = q ++ [10] ∧ NulFree q) :
    (∃ r ∈ attempts typed, matchesPasswd r = true) ↔ Entered typed := by
  have hattempts : attempts typed = lines isEol typed := by
    have hline : ∀ l ∈ lines isEol typed, chunks isEol (passwordSize - 1) l = [l] :=
      fun l hl => (chunks_eq_singleton_iff hl).mpr (hshort l hl)
    rw [attempts, chunks_eq_flatMap_lines, List.flatMap_congr hline, List.flatMap_singleton']
  rw [hattempts, Entered]
  constructor
  · rintro ⟨l, hl, hmatch⟩
    obtain ⟨q, rfl, hq⟩ := hended l hl
    have heq : q = passwd := by
      simpa [matchesPasswd, cstr_of_nulFree hq] using hmatch
    exact heq ▸ hl
  · intro h
    exact ⟨_, h, by decide⟩

/-! ## 3. What is reported -/

theorem reportsSuccess (buf typed : Bytes) : ReportsSuccess (passwordMain buf typed) :=
  List.mem_append_right _ (List.mem_singleton_self _)

/-- For every finite input: success is reported exactly when some whole line is the password, if
and only if some whole line is the password. -/
theorem success_iff (buf typed : Bytes) :
    (ReportsSuccess (passwordMain buf typed) ↔ Entered typed) ↔ Entered typed :=
  ⟨fun h => h.mp (reportsSuccess buf typed), fun h => iff_of_true (reportsSuccess buf typed) h⟩

/-- At the end of the input success is reported to a user who has typed something else. -/
theorem success_at_eof :
    ¬(ReportsSuccess (passwordMain (List.replicate passwordSize 0) (utf8 "wrong\n")) ↔
      Entered (utf8 "wrong\n")) := by
  intro h
  exact absurd (h.mp (reportsSuccess _ _)) (by decide)

/-- Of a line that is too long only the end is compared, and it is the password here. -/
example : (attempts (utf8 "it is not a secret\n")).map matchesPasswd = [false, true] := by decide

end PosixLab.Programs
