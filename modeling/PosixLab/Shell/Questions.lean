/-
# Questions and answers

`confirm_action` reads the answer with one `getchar` and drops the rest of the line with others.
After an empty line the answer is the end of the line itself, and what is dropped is the line
behind it.  `questions_answered_iff` says when the questions of a session and the lines of the
input still go together.
-/
import PosixLab.Shell.Interactive
import PosixLab.Shell.TextFiles

namespace PosixLab.Shell

open Prog

/-! ## 1. One question -/

/-- What `confirm_action` returns. -/
def answer (inp : Bytes) : Bool := decide (inp.head? = some 121 ∨ inp.head? = some 89)

/-- What it leaves of the input. -/
def afterQuestion (inp : Bytes) : Bytes := (inp.tail.dropWhile (!isNewline ·)).tail

/-- The state behind a question. -/
def Disk.asked (s : Disk) (msg file : Bytes) : Disk :=
  { s with
    out := s.out ++ (msg ++ utf8 " '" ++ file ++ utf8 "'? (y/n): ")
    stdin := afterQuestion s.stdin }

/-- The second loop of `confirm_action`. -/
def dropLine : Cmd Unit :=
  iterate (fun _ : Unit => do
    let c ← perform .getchar
    if c = some 10 ∨ c = none then pure (.inr ()) else pure (.inl ())) ()

section

variable {s : Disk}

/-- Dropping a line comes to an end. -/
theorem exec_dropLine (s : Disk) :
    Exec diskSys dropLine s () { s with stdin := (s.stdin.dropWhile (!isNewline ·)).tail } := by
  obtain ⟨fs, cwd, stdin, files, out, errors⟩ := s
  induction stdin with
  | nil => exact .done (Exec.step none ⟨rfl, rfl⟩ .ret) .ret
  | cons b rest ih =>
    by_cases hb : b = 10
    · subst hb
      exact .done (Exec.step (some 10) ⟨rfl, rfl⟩ .ret) .ret
    · have hdrop : (b :: rest).dropWhile (!isNewline ·) = rest.dropWhile (!isNewline ·) := by
        simp [isNewline, hb]
      dsimp only
      rw [hdrop]
      refine .again (Exec.step (some b) ⟨rfl, rfl⟩ ?_) ih
      rw [if_neg (by simp [hb])]
      exact .ret

theorem wp_dropLine :
    wp diskSys dropLine
      (fun _ s' => s' = { s with stdin := (s.stdin.dropWhile (!isNewline ·)).tail }) s := by
  refine ⟨fun _ s₁ => { s₁ with stdin := (s₁.stdin.dropWhile (!isNewline ·)).tail } =
    { s with stdin := (s.stdin.dropWhile (!isNewline ·)).tail }, rfl, ?_⟩
  rintro _ s₁ hs₁
  rw [wp_bind, wp_perform]
  rintro c s₂ ⟨rfl, rfl⟩
  rw [← hs₁]
  cases hin : s₁.stdin with
  | nil => rfl
  | cons b rest =>
    by_cases hb : b = 10
    · subst hb
      rfl
    · rw [if_neg (by simp [hb])]
      change _ = _
      simp [isNewline, hb]

theorem exec_question (s : Disk) (msg file : Bytes) :
    Exec diskSys (confirmAction msg file) s (answer s.stdin) (s.asked msg file) :=
  Exec.step () rfl (Exec.step s.stdin.head? ⟨rfl, rfl⟩ ((exec_dropLine _).bind .ret))

/-- What one question does to the input, and what it returns. -/
theorem wp_question (msg file : Bytes) :
    wp diskSys (confirmAction msg file)
      (fun a s' => a = answer s.stdin ∧ s' = s.asked msg file) s := by
  rw [confirmAction, wp_bind, printText, wp_perform]
  rintro _ s₁ rfl
  rw [wp_bind, wp_perform]
  rintro _ s₂ ⟨rfl, rfl⟩
  rw [wp_bind]
  refine wp_mono wp_dropLine ?_
  rintro _ s₃ rfl
  exact ⟨rfl, rfl⟩

end

/-! ## 2. A session -/

/-- One question after the other, and their answers. -/
def askAll : List (Bytes × Bytes) → Cmd (List Bool)
  | [] => pure []
  | (msg, file) :: qs => do
    let a ← confirmAction msg file
    let as ← askAll qs
    pure (a :: as)

/-- The answers to so many questions. -/
def answers (inp : Bytes) (n : Nat) : List Bool :=
  (List.range n).map fun k => answer (afterQuestion^[k] inp)

theorem answers_succ (inp : Bytes) (n : Nat) :
    answers inp (n + 1) = answer inp :: answers (afterQuestion inp) n := by
  rw [answers, List.range_succ_eq_map, List.map_cons, List.map_map]
  rfl

theorem exec_askAll (qs : List (Bytes × Bytes)) (s : Disk) :
    ∃ s', Exec diskSys (askAll qs) s (answers s.stdin qs.length) s' := by
  induction qs generalizing s with
  | nil => exact ⟨s, .ret⟩
  | cons q qs ih =>
    obtain ⟨s', hs'⟩ := ih (s.asked q.1 q.2)
    rw [List.length_cons, answers_succ]
    exact ⟨s', (exec_question s q.1 q.2).bind (hs'.bind .ret)⟩

theorem wp_askAll (qs : List (Bytes × Bytes)) (s : Disk) :
    wp diskSys (askAll qs) (fun as s' => as = answers s.stdin qs.length ∧
      s'.stdin = afterQuestion^[qs.length] s.stdin) s := by
  induction qs generalizing s with
  | nil => exact ⟨rfl, rfl⟩
  | cons q qs ih =>
    rw [askAll, wp_bind]
    refine wp_mono (wp_question _ _) ?_
    rintro a s₁ ⟨rfl, rfl⟩
    rw [wp_bind]
    refine wp_mono (ih _) ?_
    rintro as s₂ ⟨rfl, hs₂⟩
    rw [List.length_cons, answers_succ]
    exact ⟨rfl, hs₂⟩

/-! ## 3. Questions and lines -/

/-- One question takes one line, unless that line is empty and another one follows. -/
theorem afterQuestion_eq_iff (inp : Bytes) :
    afterQuestion inp = ((lines isNewline inp).drop 1).flatten ↔
      ((lines isNewline inp)[0]? = some [10] → (lines isNewline inp).length = 1) := by
  cases inp with
  | nil => simp [afterQuestion, lines]
  | cons b rest =>
    rw [afterQuestion, List.tail_cons, tail_dropWhile_not, lines]
    by_cases hb : b = 10
    · have hline : isNewline b = true := by simp [isNewline, hb]
      subst hb
      cases hrest : lines isNewline rest with
      | nil => simp [hline]
      | cons q qs =>
        have hq : q ≠ [] := by
          rintro rfl
          exact nil_notMem_lines rest (hrest ▸ List.mem_cons_self)
        simp [hline, hq]
    · have hline : isNewline b = false := by simp [isNewline, hb]
      cases lines isNewline rest <;> simp [hline, glue, hb]

/-- The answer stands in the line. -/
theorem answer_flatten_drop (inp : Bytes) (k : Nat) :
    answer ((lines isNewline inp).drop k).flatten =
      answer ((lines isNewline inp).getD k []) := by
  cases hk : (lines isNewline inp)[k]? with
  | none =>
    rw [List.getD_eq_getElem?_getD, hk, List.drop_eq_nil_of_le (List.getElem?_eq_none_iff.mp hk)]
    rfl
  | some p =>
    obtain ⟨hlt, hp⟩ := List.getElem?_eq_some_iff.mp hk
    have hne : p ≠ [] := by
      rintro rfl
      exact nil_notMem_lines inp (List.mem_of_getElem? hk)
    obtain ⟨b, q, rfl⟩ := List.exists_cons_of_ne_nil hne
    rw [List.getD_eq_getElem?_getD, hk, List.drop_eq_getElem_cons hlt, hp]
    rfl

/-- Questions and lines go together as long as no line is empty, but the last one of the input. -/
theorem iterate_afterQuestion_iff (inp : Bytes) (n : Nat) :
    (∀ k ≤ n, afterQuestion^[k] inp = ((lines isNewline inp).drop k).flatten) ↔
      ∀ k < n, (lines isNewline inp)[k]? = some [10] → k + 1 = (lines isNewline inp).length := by
  -- what the next question takes, if all is well up to it
  have hstep : ∀ k, afterQuestion ((lines isNewline inp).drop k).flatten =
        ((lines isNewline inp).drop (k + 1)).flatten ↔
      ((lines isNewline inp)[k]? = some [10] → k + 1 = (lines isNewline inp).length) := by
    intro k
    have h := afterQuestion_eq_iff ((lines isNewline inp).drop k).flatten
    rw [lines_drop, List.drop_drop, List.getElem?_drop, List.length_drop, Nat.add_zero] at h
    rw [h]
    refine imp_congr_right fun _ => ?_
    omega
  constructor
  · intro h k hk
    have hnext := h (k + 1) hk
    rw [Function.iterate_succ_apply', h k (Nat.le_of_lt hk)] at hnext
    exact (hstep k).mp hnext
  · intro h k hk
    induction k with
    | zero => simp [flatten_lines]
    | succ k ih =>
      rw [Function.iterate_succ_apply', ih (Nat.le_of_succ_le hk)]
      exact (hstep k).mpr (h k hk)

/-- In a session each question takes one line of the input and is answered by it, exactly as long
as no question meets an empty line with another one behind it. -/
theorem questions_answered_iff (qs : List (Bytes × Bytes)) (s : Disk) :
    (∀ k ≤ qs.length, ∀ as s', Exec diskSys (askAll (qs.take k)) s as s' →
        s'.stdin = ((lines isNewline s.stdin).drop k).flatten ∧
          as = (List.range k).map fun j => answer ((lines isNewline s.stdin).getD j [])) ↔
      ∀ k < qs.length, (lines isNewline s.stdin)[k]? = some [10] →
        k + 1 = (lines isNewline s.stdin).length := by
  rw [← iterate_afterQuestion_iff]
  constructor
  · intro h k hk
    obtain ⟨s', hs'⟩ := exec_askAll (qs.take k) s
    have hin := (hs'.wp (wp_askAll _ _)).2
    rw [List.length_take_of_le hk] at hin
    rw [← hin]
    exact (h k hk _ _ hs').1
  · intro h k hk as s' hs'
    obtain ⟨has, hin⟩ := hs'.wp (wp_askAll _ _)
    rw [List.length_take_of_le hk] at has hin
    refine ⟨hin.trans (h k hk), has.trans (List.map_congr_left fun j hj => ?_)⟩
    rw [h j (Nat.le_trans (Nat.le_of_lt (List.mem_range.mp hj)) hk), answer_flatten_drop]

/-- The answer to the first question is an empty line: it takes the second line with it, and the
second question is not answered by the `y` that stands there. -/
theorem empty_line_takes_two :
    ¬ ∀ k ≤ 2, ∀ as s',
      Exec diskSys (askAll ([(utf8 "remove", utf8 "a"), (utf8 "remove", utf8 "b")].take k))
        { dangling with stdin := utf8 "\ny\n" } as s' →
      s'.stdin = ((lines isNewline (utf8 "\ny\n")).drop k).flatten ∧
        as = (List.range k).map fun j => answer ((lines isNewline (utf8 "\ny\n")).getD j []) := by
  intro h
  obtain ⟨s', hs'⟩ := exec_askAll [(utf8 "remove", utf8 "a"), (utf8 "remove", utf8 "b")]
    { dangling with stdin := utf8 "\ny\n" }
  have has := (h 2 (Nat.le_refl _) _ s' hs').2
  exact absurd has (by decide)

end PosixLab.Shell
