/-
# Too few operands, and too many

`cmd_cp`, `cmd_mv`, `cmd_ln` and `cmd_rm` each walk over their arguments in a loop of their own
and check behind it that every operand they need was found.  The first three keep the first two
operands, `cmd_rm` keeps the last one.  So too few operands are refused, and what is left over is
ignored: `operands_used_or_refused`.
-/
import PosixLab.Shell.Interactive

namespace PosixLab.Shell

open Prog

/-! ## 1. Usage lines -/

/-- What the usage line of a command names: the flag and the number of operands. -/
structure Usage where
  flag : Bytes
  count : Nat
  line : Bytes

def usage : Builtin → Option Usage
  | .cp => some ⟨utf8 "-i", 2, utf8 "usage: cp [-i] src dest\n"⟩
  | .mv => some ⟨utf8 "-i", 2, utf8 "usage: mv [-i] src dest\n"⟩
  | .ln => some ⟨utf8 "-s", 2, utf8 "usage: ln [-s] target linkname\n"⟩
  | .rm => some ⟨utf8 "-i", 1, utf8 "usage: rm [-i] file\n"⟩
  | _ => none

/-- The operands that a command uses. -/
def used : Builtin → List Bytes → List Bytes
  | .rm, ops => ops.getLast?.toList
  | _, ops => ops.take 2

/-- The flag, if it is among the words, and these operands. -/
def reduced (flag : Bytes) (as ops : List Bytes) : List Bytes :=
  (if flag ∈ as then [flag] else []) ++ ops

/-- The same command with nothing left over. -/
def trimmed (b : Builtin) (u : Usage) (args : List Bytes) : List Bytes :=
  args.take 1 ++ reduced u.flag args.tail (used b (operands u.flag args.tail))

/-! ## 2. The loops over the arguments -/

section

variable {flag : Bytes} {as ops : List Bytes}

theorem operands_reduced (h : ops ⊆ operands flag as) :
    operands flag (reduced flag as ops) = ops := by
  have hne : ∀ a ∈ ops, (a != flag) = true := fun a ha => (List.mem_filter.mp (h ha)).2
  rw [reduced, operands, List.filter_append, List.filter_eq_self.mpr hne]
  split <;> simp

theorem contains_reduced (h : ops ⊆ operands flag as) :
    (reduced flag as ops).contains flag = as.contains flag := by
  have hno : flag ∉ ops := by
    intro hmem
    simpa using (List.mem_filter.mp (h hmem)).2
  by_cases hflag : flag ∈ as <;> simp [reduced, hflag, hno]

/-- The loop finds no more in the words than in the flag and the first two operands. -/
theorem scanTwo_reduced :
    scanTwo flag (false, none, none) (reduced flag as ((operands flag as).take 2)) =
      scanTwo flag (false, none, none) as := by
  have hsub := List.take_subset 2 (operands flag as)
  have h := scanTwo_eq flag false [] (reduced flag as ((operands flag as).take 2))
  have h' := scanTwo_eq flag false [] as
  rw [operands_reduced hsub, contains_reduced hsub] at h
  rw [List.nil_append, List.getElem?_take_of_lt Nat.zero_lt_two,
    List.getElem?_take_of_lt Nat.one_lt_two] at h
  exact h.trans h'.symm

theorem scanLast_reduced :
    scanLast flag (false, none) (reduced flag as (operands flag as).getLast?.toList) =
      scanLast flag (false, none) as := by
  have hsub : (operands flag as).getLast?.toList ⊆ operands flag as := by
    intro a ha
    exact List.mem_of_getLast? (Option.mem_toList.mp ha)
  rw [scanLast_eq, scanLast_eq, operands_reduced hsub, contains_reduced hsub]
  cases (operands flag as).getLast? <;> rfl

/-- The second operand is missing. -/
theorem scanTwo_of_few (h : (operands flag as).length < 2) :
    ∃ f x, scanTwo flag (false, none, none) as = (f, x, none) := by
  have h' := scanTwo_eq flag false [] as
  rw [List.nil_append, List.getElem?_eq_none (Nat.le_of_lt_succ h)] at h'
  exact ⟨_, _, h'⟩

theorem scanLast_of_few (h : (operands flag as).length < 1) :
    ∃ f, scanLast flag (false, none) as = (f, none) := by
  have hnil : operands flag as = [] := List.eq_nil_of_length_eq_zero (Nat.lt_one_iff.mp h)
  exact ⟨_, by rw [scanLast_eq, hnil]; rfl⟩

end

/-! ## 3. The commands -/

section

variable {b : Builtin} {u : Usage} {args : List Bytes}

/-- With too few operands a command is its usage line. -/
theorem run_of_few (hu : usage b = some u)
    (h : (operands u.flag args.tail).length < u.count) : b.run args = printText u.line := by
  cases b with
  | cp =>
    cases hu
    obtain ⟨f, x, hscan⟩ := scanTwo_of_few h
    change cmdCp args = _
    rw [cmdCp, hscan]
    cases x <;> rfl
  | mv =>
    cases hu
    obtain ⟨f, x, hscan⟩ := scanTwo_of_few h
    change cmdMv args = _
    rw [cmdMv, hscan]
    cases x <;> rfl
  | ln =>
    cases hu
    obtain ⟨f, x, hscan⟩ := scanTwo_of_few h
    change cmdLn args = _
    rw [cmdLn, hscan]
    cases x <;> rfl
  | rm =>
    cases hu
    obtain ⟨f, hscan⟩ := scanLast_of_few h
    change cmdRm args = _
    rw [cmdRm, hscan]
  | _ => cases hu

theorem tail_trimmed (h : args ≠ []) :
    (trimmed b u args).tail = reduced u.flag args.tail (used b (operands u.flag args.tail)) := by
  obtain ⟨a, as, rfl⟩ := List.exists_cons_of_ne_nil h
  rfl

/-- With enough operands a command does what it does without those it does not use. -/
theorem run_trimmed (hu : usage b = some u)
    (h : u.count ≤ (operands u.flag args.tail).length) :
    b.run args = b.run (trimmed b u args) := by
  have hne : args ≠ [] := by
    rintro rfl
    cases b <;> cases hu <;> simp [operands] at h
  cases b with
  | cp =>
    cases hu
    change cmdCp args = cmdCp _
    rw [cmdCp, cmdCp, tail_trimmed hne]
    simp only [used, scanTwo_reduced]
  | mv =>
    cases hu
    change cmdMv args = cmdMv _
    rw [cmdMv, cmdMv, tail_trimmed hne]
    simp only [used, scanTwo_reduced]
  | ln =>
    cases hu
    change cmdLn args = cmdLn _
    rw [cmdLn, cmdLn, tail_trimmed hne]
    simp only [used, scanTwo_reduced]
  | rm =>
    cases hu
    change cmdRm args = cmdRm _
    rw [cmdRm, cmdRm, tail_trimmed hne]
    simp only [used, scanLast_reduced]
  | _ => cases hu

theorem length_used (hu : usage b = some u) {ops : List Bytes} (h : u.count ≤ ops.length) :
    (used b ops).length = u.count := by
  cases b with
  | cp | mv | ln =>
    cases hu
    simpa [used] using h
  | rm =>
    cases hu
    cases ops with
    | nil => cases h
    | cons a ops => simp [used, List.getLast?_cons]
  | _ => cases hu

theorem exec_printText_iff {text : Bytes} {s s' : Disk} :
    Exec diskSys (printText text) s () s' ↔ s' = { s with out := s.out ++ text } := by
  constructor
  · intro h
    have hw : wp diskSys (printText text)
        (fun _ t => t = { s with out := s.out ++ text }) s := fun _ _ hc => hc
    exact h.wp hw
  · rintro rfl
    exact Exec.perform rfl

/-- With fewer operands than its usage line names a command prints that line and does nothing
else.  With as many or more it is the command on the operands it uses, the last one for `cmd_rm`
and the first two otherwise, as many as the usage line names. -/
theorem operands_used_or_refused (hu : usage b = some u) (args : List Bytes) (s : Disk) :
    ((operands u.flag args.tail).length < u.count →
      ∀ s', Exec diskSys (b.run args) s () s' ↔ s' = { s with out := s.out ++ u.line }) ∧
    (u.count ≤ (operands u.flag args.tail).length →
      (used b (operands u.flag args.tail)).length = u.count ∧
        b.run args = b.run (trimmed b u args)) := by
  constructor
  · intro hfew s'
    rw [run_of_few hu hfew]
    exact exec_printText_iff
  · exact fun henough => ⟨length_used hu henough, run_trimmed hu henough⟩

end

theorem operands_used_or_refused_words :
    (∀ s', Exec diskSys (Builtin.ln.run [utf8 "ln", utf8 "a", utf8 "-s"]) dangling () s' ↔
      s' = { dangling with out := utf8 "usage: ln [-s] target linkname\n" }) ∧
    Builtin.mv.run [utf8 "mv", utf8 "a", utf8 "-i", utf8 "b", utf8 "c"] =
      Builtin.mv.run [utf8 "mv", utf8 "-i", utf8 "a", utf8 "b"] := by
  have hln := (operands_used_or_refused (b := .ln) rfl [utf8 "ln", utf8 "a", utf8 "-s"] dangling).1
    (by decide)
  have hmv := ((operands_used_or_refused (b := .mv) rfl
    [utf8 "mv", utf8 "a", utf8 "-i", utf8 "b", utf8 "c"] dangling).2 (by decide)).2
  have htrim : trimmed .mv ⟨utf8 "-i", 2, utf8 "usage: mv [-i] src dest\n"⟩
      [utf8 "mv", utf8 "a", utf8 "-i", utf8 "b", utf8 "c"] =
      [utf8 "mv", utf8 "-i", utf8 "a", utf8 "b"] := by decide
  rw [htrim] at hmv
  exact ⟨hln, hmv⟩

/-- The command `rm a l` has one operand too many: it says nothing and removes `l`. -/
theorem surplus_operand_dropped :
    (operands (utf8 "-i") [utf8 "a", utf8 "l"]).length ≠ 1 ∧
      ¬ ∀ s', Exec diskSys (Builtin.rm.run [utf8 "rm", utf8 "a", utf8 "l"]) dangling () s' →
        s'.fs = dangling.fs ∧ s'.out = dangling.out ++ utf8 "usage: rm [-i] file\n" := by
  refine ⟨by decide, fun h => ?_⟩
  have hentry : dangling.fs.entryAt dangling.cwd (utf8 "l") = some (0, utf8 "l", 2) := by
    decide
  have hunlinks : dangling.fs.Unlinks dangling.cwd (utf8 "l")
      (dangling.fs.setEntry 0 (utf8 "l") none) :=
    ⟨0, utf8 "l", 2, hentry, by decide, by decide, rfl⟩
  have hscan : scanLast (utf8 "-i") (false, none) [utf8 "a", utf8 "l"] =
      (false, some (utf8 "l")) := by decide
  have hrun : Exec diskSys (Builtin.rm.run [utf8 "rm", utf8 "a", utf8 "l"]) dangling ()
      { dangling with fs := dangling.fs.setEntry 0 (utf8 "l") none } := by
    rw [Builtin.run, cmdRm, List.tail_cons, hscan]
    refine (Exec.ret (a := true)).bind ?_
    rw [if_pos rfl]
    refine Exec.step true ?_ .ret
    simpa [diskSys] using hunlinks
  have hfs : dangling.fs.setEntry 0 (utf8 "l") none = dangling.fs := (h _ hrun).1
  have hdir : dangling.fs.isDir 0 = true := rfl
  have hlook := FileSys.lookup_setEntry_self hdir (utf8 "l") none
  rw [hfs] at hlook
  exact absurd hlook (by decide)

end PosixLab.Shell
