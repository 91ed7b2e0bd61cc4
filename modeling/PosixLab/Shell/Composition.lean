/-
# Commands in a row

What two commands of the shell do to the file system, one after the other.  `ln a b` and then
`rm a` is `mv a b`, as long as `a` is no directory and there is nothing at `b` (`ln_rm_iff_mv`);
`mv a b` and then `mv b a` is nothing, as long as there was nothing else at `b`
(`mv_mv_restores_iff`).

A command that fails says so, and then the file system is as it was (`Outcome`); so the statements
are about the runs that say nothing.
-/
import PosixLab.Basis.FileMoves
import PosixLab.Shell.Copy

namespace PosixLab.Shell

open Prog FileSys

/-! ## 1. Commands that change entries -/

/-- A command reported nothing and did `does` to the file system, or it reported something and
left the file system as it was. -/
def Outcome (does : FileSys → Prop) (s s' : Disk) : Prop :=
  s'.cwd = s.cwd ∧ (s'.errors = s.errors ∧ does s'.fs ∨
    (∃ msg, s'.errors = s.errors ++ [msg]) ∧ s'.fs = s.fs)

section

variable {s s' : Disk} {old new path : Bytes} {fs' : FileSys}

theorem scanTwo_pair {flag : Bytes} (hold : old ≠ flag) (hnew : new ≠ flag) :
    scanTwo flag (false, none, none) [old, new] = (false, some old, some new) := by
  simp [scanTwo, hold, hnew]

/-- The end of a command that makes one call that changes the file system. -/
theorem wp_outcome {does : FileSys → Prop} {msg : String} {rest : Cmd Unit} {ok : Bool}
    (h : if ok then ∃ fs', does fs' ∧ s' = { s with fs := fs' } else s' = s)
    (hrest : ∀ t, wp diskSys rest
      (fun _ t' => t'.fs = t.fs ∧ t'.cwd = t.cwd ∧ t'.errors = t.errors) t) :
    wp diskSys (if ok then rest else complain msg) (fun _ t => Outcome does s t) s' := by
  rcases ok with _ | _
  · obtain rfl : s' = s := by simpa using h
    rintro _ t rfl
    exact ⟨rfl, .inr ⟨⟨utf8 msg, rfl⟩, rfl⟩⟩
  · obtain ⟨fs', hfs', rfl⟩ : ∃ fs', does fs' ∧ s' = { s with fs := fs' } := by simpa using h
    refine wp_mono (hrest _) ?_
    rintro _ t ⟨hfs, hcwd, herrors⟩
    refine ⟨hcwd, .inl ⟨herrors, ?_⟩⟩
    rw [hfs]
    exact hfs'

theorem wp_ln (hold : old ≠ utf8 "-s") (hnew : new ≠ utf8 "-s") :
    wp diskSys (cmdLn [utf8 "ln", old, new])
      (fun _ s' => Outcome (s.fs.Links s.cwd old new) s s') s := by
  rw [cmdLn, List.tail_cons, scanTwo_pair hold hnew]
  change wp diskSys (perform (.link old new) >>= _) _ s
  rw [wp_bind, wp_perform]
  intro ok s₁ h
  refine wp_outcome h ?_
  rintro t _ _ rfl
  exact ⟨rfl, rfl, rfl⟩

theorem wp_rm (hpath : path ≠ utf8 "-i") :
    wp diskSys (cmdRm [utf8 "rm", path])
      (fun _ s' => Outcome (s.fs.Unlinks s.cwd path) s s') s := by
  rw [cmdRm, List.tail_cons, show scanLast (utf8 "-i") (false, none) [path] = (false, some path) by
    simp [scanLast, hpath]]
  change wp diskSys (perform (.unlink path) >>= _) _ s
  rw [wp_bind, wp_perform]
  intro ok s₁ h
  exact wp_outcome h fun t => ⟨rfl, rfl, rfl⟩

theorem wp_mv (hold : old ≠ utf8 "-i") (hnew : new ≠ utf8 "-i") :
    wp diskSys (cmdMv [utf8 "mv", old, new])
      (fun _ s' => Outcome (s.fs.Renames s.cwd old new) s s') s := by
  rw [cmdMv, List.tail_cons, scanTwo_pair hold hnew]
  change wp diskSys (perform (.rename old new) >>= _) _ s
  rw [wp_bind, wp_perform]
  intro ok s₁ h
  exact wp_outcome h fun t => ⟨rfl, rfl, rfl⟩

/-! ### The calls succeed -/

theorem exec_ln (hold : old ≠ utf8 "-s") (hnew : new ≠ utf8 "-s")
    (h : s.fs.Links s.cwd old new fs') :
    ∃ s', Exec diskSys (cmdLn [utf8 "ln", old, new]) s () s' ∧ s'.errors = s.errors ∧
      s'.cwd = s.cwd ∧ s'.fs = fs' := by
  rw [cmdLn, List.tail_cons, scanTwo_pair hold hnew]
  exact ⟨_, Exec.step true ⟨fs', h, rfl⟩ (Exec.perform rfl), rfl, rfl, rfl⟩

theorem exec_rm (hpath : path ≠ utf8 "-i") (h : s.fs.Unlinks s.cwd path fs') :
    ∃ s', Exec diskSys (cmdRm [utf8 "rm", path]) s () s' ∧ s'.errors = s.errors ∧
      s'.cwd = s.cwd ∧ s'.fs = fs' := by
  rw [cmdRm, List.tail_cons, show scanLast (utf8 "-i") (false, none) [path] = (false, some path) by
    simp [scanLast, hpath]]
  have hcall : diskSys s (.unlink path) true { s with fs := fs' } := ⟨fs', h, rfl⟩
  exact ⟨_, Exec.step true hcall .ret, rfl, rfl, rfl⟩

theorem exec_mv (hold : old ≠ utf8 "-i") (hnew : new ≠ utf8 "-i")
    (h : s.fs.Renames s.cwd old new fs') :
    ∃ s', Exec diskSys (cmdMv [utf8 "mv", old, new]) s () s' ∧ s'.errors = s.errors ∧
      s'.cwd = s.cwd ∧ s'.fs = fs' := by
  rw [cmdMv, List.tail_cons, scanTwo_pair hold hnew]
  have hcall : diskSys s (.rename old new) true { s with fs := fs' } := ⟨fs', h, rfl⟩
  exact ⟨_, Exec.step true hcall .ret, rfl, rfl, rfl⟩

/-! ## 2. A link and a removal -/

/-- A command that said nothing has done its work. -/
theorem Outcome.silent {does : FileSys → Prop} (h : Outcome does s s')
    (herrors : s'.errors = s.errors) : s'.cwd = s.cwd ∧ does s'.fs := by
  obtain ⟨hcwd, ⟨-, hdoes⟩ | ⟨⟨msg, hmsg⟩, -⟩⟩ := h
  · exact ⟨hcwd, hdoes⟩
  · rw [hmsg] at herrors
    simp at herrors

/-- What was said stays said. -/
theorem Outcome.errors_prefix {does : FileSys → Prop} (h : Outcome does s s') :
    s.errors <+: s'.errors := by
  obtain ⟨-, ⟨herrors, -⟩ | ⟨⟨msg, hmsg⟩, -⟩⟩ := h
  · rw [herrors]
  · rw [hmsg]
    exact List.prefix_append _ _

/-- Two commands in a row that said nothing have both done their work. -/
theorem Outcome.silent_pair {does does' : FileSys → Prop} {s₁ s₂ : Disk}
    (h : Outcome does s s₁) (h' : Outcome does' s₁ s₂) (herrors : s₂.errors = s.errors) :
    s₁.errors = s.errors ∧ s₁.cwd = s.cwd ∧ does s₁.fs ∧ does' s₂.fs := by
  have hfirst : s₁.errors = s.errors := by
    have hle := h'.errors_prefix
    rw [herrors] at hle
    exact (h.errors_prefix.eq_of_length_le hle.length_le).symm
  obtain ⟨hcwd, hdoes⟩ := h.silent hfirst
  exact ⟨hfirst, hcwd, hdoes, (h'.silent (herrors.trans hfirst.symm)).2⟩

/-- `ln old new` and then `rm old` can end, with nothing said, with the same file systems as
`mv old new`; except that `mv` also moves directories, and replaces what stands at `new`. -/
theorem ln_rm_iff_mv (hold : old ≠ utf8 "-s" ∧ old ≠ utf8 "-i")
    (hnew : new ≠ utf8 "-s" ∧ new ≠ utf8 "-i") :
    (∃ s₁ s₂, Exec diskSys (cmdLn [utf8 "ln", old, new]) s () s₁ ∧
        Exec diskSys (cmdRm [utf8 "rm", old]) s₁ () s₂ ∧ s₂.errors = s.errors ∧ s₂.fs = fs') ↔
      (∃ s', Exec diskSys (cmdMv [utf8 "mv", old, new]) s () s' ∧ s'.errors = s.errors ∧
        s'.fs = fs') ∧ s.fs.NoDir s.cwd old ∧ s.fs.Missing s.cwd new := by
  constructor
  · rintro ⟨s₁, s₂, hln, hrm, herrors, rfl⟩
    obtain ⟨-, hcwd, hlinks, hunlinks⟩ :=
      (hln.wp (wp_ln hold.1 hnew.1)).silent_pair (hrm.wp (wp_rm hold.2)) herrors
    rw [hcwd] at hunlinks
    obtain ⟨hrenames, hplace⟩ := links_unlinks_iff.mp ⟨s₁.fs, hlinks, hunlinks⟩
    obtain ⟨s', hmv, hsilent, -, hfs⟩ := exec_mv hold.2 hnew.2 hrenames
    exact ⟨⟨s', hmv, hsilent, hfs⟩, hplace⟩
  · rintro ⟨⟨s', hmv, herrors, rfl⟩, hplace⟩
    obtain ⟨-, hrenames⟩ := (hmv.wp (wp_mv hold.2 hnew.2)).silent herrors
    obtain ⟨fs₁, hlinks, hunlinks⟩ := links_unlinks_iff.mpr ⟨hrenames, hplace⟩
    obtain ⟨s₁, hln, hsilent, hcwd, hfs⟩ := exec_ln hold.1 hnew.1 hlinks
    rw [← hfs, ← hcwd] at hunlinks
    obtain ⟨s₂, hrm, hsilent', -, hfs'⟩ := exec_rm hold.2 hunlinks
    exact ⟨s₁, s₂, hln, hrm, hsilent'.trans hsilent, hfs'⟩

end

/-- The file `a` moved to `d`. -/
theorem ln_rm_iff_mv_missing :
    ∃ s₁ s₂, Exec diskSys (cmdLn [utf8 "ln", utf8 "a", utf8 "d"]) twoFiles () s₁ ∧
      Exec diskSys (cmdRm [utf8 "rm", utf8 "a"]) s₁ () s₂ ∧ s₂.errors = [] ∧
      s₂.fs = twoFiles.fs.move 0 (utf8 "a") 0 (utf8 "d") 1 := by
  have hno : twoFiles.fs.lookup 0 (utf8 "d") = none := by decide
  have hrenames : twoFiles.fs.Renames twoFiles.cwd (utf8 "a") (utf8 "d")
      (twoFiles.fs.move 0 (utf8 "a") 0 (utf8 "d") 1) :=
    ⟨0, utf8 "a", 1, 0, utf8 "d", by decide, by decide, by decide,
      .inr ⟨by decide, fun h => absurd h (by decide),
        fun _ h => absurd (hno.symm.trans h) (by simp), rfl⟩⟩
  obtain ⟨s', hmv, herrors, -, hfs⟩ := exec_mv (by decide) (by decide) hrenames
  exact (ln_rm_iff_mv (by decide) (by decide)).mpr ⟨⟨s', hmv, herrors, hfs⟩,
    ⟨0, utf8 "a", 1, by decide, by decide⟩, ⟨0, utf8 "d", by decide, hno⟩⟩

/-! ## 3. There and back -/

/-- After `mv old new` and `mv new old`, with nothing said, the file system is the one before,
exactly if nothing but the file itself stood at `new`; and whatever stood there, the file has taken
its place after the first command. -/
theorem mv_mv_restores_iff {s s₁ s₂ : Disk} {old new name text : Bytes} {d i : Ino}
    (hold : old ≠ utf8 "-i") (hnew : new ≠ utf8 "-i")
    (hentry : s.fs.entryAt s.cwd old = some (d, name, i)) (hfile : s.fs.data i = some text)
    (hgo : Exec diskSys (cmdMv [utf8 "mv", old, new]) s () s₁)
    (hback : Exec diskSys (cmdMv [utf8 "mv", new, old]) s₁ () s₂)
    (herrors : s₂.errors = s.errors) :
    (s₂.fs = s.fs ↔ ∀ d' name' j, s.fs.entryAt s.cwd new = some (d', name', j) → j = i) ∧
      ∀ d' name' j, s.fs.entryAt s.cwd new = some (d', name', j) →
        s₁.errors = s.errors ∧ s₁.fs.lookup d' name' = some i := by
  obtain ⟨hsaid, hcwd, hthere, hhome⟩ :=
    (hgo.wp (wp_mv hold hnew)).silent_pair (hback.wp (wp_mv hnew hold)) herrors
  rw [hcwd] at hhome
  exact ⟨renames_back_iff hentry hfile hthere hhome,
    fun d' name' j hnew => ⟨hsaid, hthere.replaced hentry hfile hnew⟩⟩

/-- The file `b` does not come back after `a` was moved over it. -/
theorem mv_mv_restores_iff_lost :
    ∃ s₁ s₂, Exec diskSys (cmdMv [utf8 "mv", utf8 "a", utf8 "b"]) twoFiles () s₁ ∧
      Exec diskSys (cmdMv [utf8 "mv", utf8 "b", utf8 "a"]) s₁ () s₂ ∧ s₂.errors = [] ∧
      s₂.fs ≠ twoFiles.fs := by
  have hgo : twoFiles.fs.Renames twoFiles.cwd (utf8 "a") (utf8 "b")
      (twoFiles.fs.move 0 (utf8 "a") 0 (utf8 "b") 1) := by
    refine ⟨0, utf8 "a", 1, 0, utf8 "b", by decide, by decide, by decide,
      .inr ⟨by decide, fun h => absurd h (by decide), ?_, rfl⟩⟩
    intro j hj
    obtain rfl : 2 = j := Option.some.inj hj
    exact ⟨by decide, fun _ => rfl⟩
  obtain ⟨s₁, hmv, herrors, hcwd, hfs⟩ := exec_mv (by decide) (by decide) hgo
  have hback : s₁.fs.Renames s₁.cwd (utf8 "b") (utf8 "a")
      (s₁.fs.move 0 (utf8 "b") 0 (utf8 "a") 1) := by
    have hno : (twoFiles.fs.move 0 (utf8 "a") 0 (utf8 "b") 1).lookup 0 (utf8 "a") = none := by
      decide
    rw [hfs, hcwd]
    exact ⟨0, utf8 "b", 1, 0, utf8 "a", by decide, by decide, by decide,
      .inr ⟨by decide, fun h => absurd h (by decide),
        fun _ h => absurd (hno.symm.trans h) (by simp), rfl⟩⟩
  obtain ⟨s₂, hmv', herrors', -, hfs'⟩ := exec_mv (by decide) (by decide) hback
  refine ⟨s₁, s₂, hmv, hmv', herrors'.trans herrors, ?_⟩
  intro hsame
  have hentry : twoFiles.fs.entryAt twoFiles.cwd (utf8 "a") = some (0, utf8 "a", 1) := by decide
  have hfile : twoFiles.fs.data 1 = some (utf8 "text") := by decide
  have hall := (mv_mv_restores_iff (by decide) (by decide) hentry hfile hmv hmv'
    (herrors'.trans herrors)).1.mp hsame
  exact absurd (hall 0 (utf8 "b") 2 (by decide)) (by decide)

end PosixLab.Shell
