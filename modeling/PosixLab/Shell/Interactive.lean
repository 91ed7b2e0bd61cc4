/-
# The commands that ask

`cp -i`, `mv -i` and `rm -i`, read over a file system with links.  The question of `cmd_cp` and
`cmd_mv` depends on `access`, which follows a symbolic link in the last place, while `rename`
replaces the entry itself.  `interactive_iff` says exactly when a refusal protects what stands at
the destination: always for `cp` and `rm`, and for `mv` unless the destination is an entry that
leads nowhere, for which nothing is asked.
-/
import PosixLab.Basis.FileSystem
import PosixLab.Shell.Commands

namespace PosixLab.Shell

open Prog

/-! ## 1. The calls over a file system -/

/-- A file system, with a process in a directory of it: its open files with their offsets, what is
left of its standard input, and what it printed and reported. -/
structure Disk where
  fs : FileSys
  cwd : Ino
  stdin : Bytes
  files : Fd → Option (Ino × Nat)
  out : Bytes
  errors : List Bytes

/-- The contents of a file after `data` was written at an offset. -/
def overwritten (content : Bytes) (off : Nat) (data : Bytes) : Bytes :=
  content.take off ++ List.replicate (off - content.length) 0 ++ data ++
    content.drop (off + data.length)

namespace Disk

/-- Open a file under the descriptor `fd`. -/
def opened (s : Disk) (fd : Fd) (i : Ino) : Disk :=
  { s with files := Function.update s.files fd (some (i, 0)) }

/-- Move the offset of the descriptor `fd`. -/
def seek (s : Disk) (fd : Fd) (i : Ino) (off : Nat) : Disk :=
  { s with files := Function.update s.files fd (some (i, off)) }

end Disk

/-- What the calls of `cmd_cp`, `cmd_mv`, `cmd_rm` and `cmd_ln` do.  A call that changes the file
system can also fail for reasons of its own; a read or write can stop short. -/
def diskSys (s : Disk) : (c : Call) → c.Result → Disk → Prop
  | .print text, _, s' => s' = { s with out := s.out ++ text }
  | .perror msg, _, s' => s' = { s with errors := s.errors ++ [msg] }
  | .getchar, r, s' => r = s.stdin.head? ∧ s' = { s with stdin := s.stdin.tail }
  | .access path, r, s' => r = s.fs.accessible s.cwd path ∧ s' = s
  | .openFile _ _, none, s' => s' = s
  | .openFile path .read, some fd, s' =>
    s.files fd = none ∧ ∃ i, s.fs.target s.cwd path = some i ∧ (s.fs.node i).isSome = true ∧
      s' = s.opened fd i
  | .openFile path .write, some fd, s' =>
    s.files fd = none ∧ ∃ fs' i, s.fs.OpensForWriting s.cwd path fs' i ∧
      s' = { s with fs := fs' }.opened fd i
  | .read _ _, none, s' => s' = s
  | .read fd size, some data, s' =>
    ∃ i off content, s.files fd = some (i, off) ∧ s.fs.node i = some (.file content) ∧
      data <+: content.drop off ∧ data.length ≤ size ∧ (data = [] → content.drop off = []) ∧
      s' = s.seek fd i (off + data.length)
  | .write _ _, none, s' => s' = s
  | .write fd data, some n, s' =>
    ∃ i off content, s.files fd = some (i, off) ∧ s.fs.node i = some (.file content) ∧
      n ≤ data.length ∧
      s' = { s with fs := s.fs.setNode i (.file (overwritten content off (data.take n))) }.seek
        fd i (off + n)
  | .close fd, _, s' => s' = { s with files := Function.update s.files fd none }
  | .unlink path, ok, s' =>
    if ok then ∃ fs', s.fs.Unlinks s.cwd path fs' ∧ s' = { s with fs := fs' } else s' = s
  | .rename src dest, ok, s' =>
    if ok then ∃ fs', s.fs.Renames s.cwd src dest fs' ∧ s' = { s with fs := fs' } else s' = s
  | .link old new, ok, s' =>
    if ok then ∃ fs', s.fs.Links s.cwd old new fs' ∧ s' = { s with fs := fs' } else s' = s
  | .symlink text new, ok, s' =>
    if ok then ∃ fs', s.fs.Symlinks s.cwd text new fs' ∧ s' = { s with fs := fs' } else s' = s
  | _, _, _ => False

/-! ## 2. Operands -/

/-- The arguments other than the flag. -/
def operands (flag : Bytes) (as : List Bytes) : List Bytes := as.filter (· != flag)

/-- The loop finds the flag and the first two operands; `l` are the operands before. -/
theorem scanTwo_eq (flag : Bytes) (f : Bool) (l as : List Bytes) :
    scanTwo flag (f, l[0]?, l[1]?) as =
      (f || as.contains flag, (l ++ operands flag as)[0]?, (l ++ operands flag as)[1]?) := by
  induction as generalizing f l with
  | nil => simp [scanTwo, operands]
  | cons a as ih =>
    by_cases ha : a = flag
    · have hop : operands flag (a :: as) = operands flag as := by simp [operands, ha]
      rw [scanTwo, if_pos ha, ih, hop]
      simp [ha]
    · have hop : l ++ operands flag (a :: as) = (l ++ [a]) ++ operands flag as := by
        simp [operands, ha]
      have hstep : scanTwo flag (f, l[0]?, l[1]?) (a :: as) =
          scanTwo flag (f, (l ++ [a])[0]?, (l ++ [a])[1]?) as := by
        rw [scanTwo, if_neg ha]
        match l with
        | [] => simp
        | [x] => simp
        | x :: y :: l => simp
      rw [hstep, ih, hop]
      have hcon : (a :: as).contains flag = as.contains flag := by
        simp [Ne.symm ha]
      rw [hcon]

/-- The loop finds the flag and the last operand. -/
theorem scanLast_eq (flag : Bytes) (f : Bool) (x : Option Bytes) (as : List Bytes) :
    scanLast flag (f, x) as =
      (f || as.contains flag, (operands flag as).getLast?.or x) := by
  induction as generalizing f x with
  | nil => simp [scanLast, operands]
  | cons a as ih =>
    by_cases ha : a = flag
    · have hop : operands flag (a :: as) = operands flag as := by simp [operands, ha]
      rw [scanLast, if_pos ha, ih, hop]
      simp [ha]
    · have hop : operands flag (a :: as) = a :: operands flag as := by simp [operands, ha]
      have hcon : (a :: as).contains flag = as.contains flag := by
        simp [Ne.symm ha]
      rw [scanLast, if_neg ha, ih, hop, hcon, List.getLast?_cons]
      cases (operands flag as).getLast? <;> rfl

/-! ## 3. The question -/

/-- The first character of the answer is neither `y` nor `Y`. -/
def Refuses (s : Disk) : Prop := s.stdin.head? ≠ some 121 ∧ s.stdin.head? ≠ some 89

instance (s : Disk) : Decidable (Refuses s) := inferInstanceAs (Decidable (_ ∧ _))

/-- The calls that only talk to the user. -/
def Talks : Call → Prop
  | .print _ | .perror _ | .getchar => True
  | _ => False

theorem fs_of_talks {s s' : Disk} {c : Call} {r : c.Result} (hc : Talks c)
    (h : diskSys s c r s') : s'.fs = s.fs := by
  cases c with
  | print text =>
    obtain rfl : s' = _ := h
    rfl
  | perror msg =>
    obtain rfl : s' = _ := h
    rfl
  | getchar =>
    obtain ⟨-, rfl⟩ : _ ∧ s' = _ := h
    rfl
  | _ => exact hc.elim

section

variable {s : Disk}

/-- A refusal is understood, and asking changes no file. -/
theorem wp_confirmAction (h : Refuses s) (msg file : Bytes) :
    wp diskSys (confirmAction msg file) (fun go s' => go = false ∧ s'.fs = s.fs) s := by
  rw [confirmAction, wp_bind, printText, wp_perform]
  rintro _ s₁ rfl
  rw [wp_bind, wp_perform]
  rintro ans s₂ ⟨rfl, rfl⟩
  have hrest : Uses Talks (iterate (fun _ : Unit => do
      let c ← perform .getchar
      if c = some 10 ∨ c = none then pure (.inr ()) else pure (.inl ())) () : Cmd Unit) :=
    Uses.iterate (fun _ => (uses_perform.mpr trivial).bind fun _ => uses_pure.ite uses_pure) ()
  rw [wp_bind]
  refine wp_mono (hrest.wp (I := fun s' => s'.fs = s.fs) rfl ?_) ?_
  · exact fun _ _ _ _ hc hs hI => (fs_of_talks hc hs).trans hI
  · intro _ s₃ h₃
    refine ⟨?_, h₃⟩
    simpa [Refuses] using h

/-- The command goes on without consent only where `access` finds nothing, and has then asked
nothing. -/
theorem wp_mayOverwrite (h : Refuses s) (dest : Bytes) :
    wp diskSys (mayOverwrite true dest) (fun go s' => s'.fs = s.fs ∧
      (go = true → s' = s ∧ s.fs.accessible s.cwd dest = false)) s := by
  rw [mayOverwrite, if_pos rfl, wp_bind, wp_perform]
  rintro found s₁ ⟨hfound, rfl⟩
  split
  · refine wp_mono (wp_confirmAction h _ _) ?_
    rintro go s' ⟨rfl, hfs⟩
    exact ⟨hfs, fun hgo => by cases hgo⟩
  · rename_i hno
    refine ⟨rfl, fun _ => ⟨rfl, ?_⟩⟩
    rw [← hfound]
    exact Bool.eq_false_iff.mpr hno

/-- The rule for a command behind the question: it was refused, or there was nothing to ask. -/
theorem wp_asked (h : Refuses s) {dest : Bytes} {rest : Bool → Cmd Unit}
    {Q : Unit → Disk → Prop} (hno : ∀ s', s'.fs = s.fs → wp diskSys (rest false) Q s')
    (hgo : s.fs.accessible s.cwd dest = false → wp diskSys (rest true) Q s) :
    wp diskSys (mayOverwrite true dest >>= rest) Q s := by
  rw [wp_bind]
  refine wp_mono (wp_mayOverwrite h dest) ?_
  rintro go s' ⟨hfs, hs'⟩
  cases go with
  | false => exact hno s' hfs
  | true =>
    obtain ⟨heq, hacc⟩ := hs' rfl
    rw [heq]
    exact hgo hacc

end

/-! ## 4. What a command leaves -/

/-- The entry at a path still refers to the same object, and the object is as it was. -/
def Preserved (s s' : Disk) (path : Bytes) : Prop :=
  ∀ d name i, s.fs.entryAt s.cwd path = some (d, name, i) →
    s'.fs.lookup d name = some i ∧ s'.fs.node i = s.fs.node i

/-- Nothing is asked about the destination, and `rename` replaces the entry that stands there. -/
def Unasked (s : Disk) (src dest : Bytes) : Prop :=
  s.fs.accessible s.cwd dest = false ∧ slash src = false ∧ slash dest = false ∧
    ∃ d name i d' name' i', s.fs.entryAt s.cwd src = some (d, name, i) ∧ s.fs.isDir i = false ∧
      s.fs.entryAt s.cwd dest = some (d', name', i') ∧ i ≠ i'

section

open FileSys

variable {s s' : Disk} {src dest : Bytes} {fs' : FileSys}

theorem preserved_of_fs (h : s'.fs = s.fs) (path : Bytes) : Preserved s s' path := by
  intro d name i hi
  rw [h]
  exact ⟨(entryAt_eq_some.mp hi).2, rfl⟩

/-- An entry that `access` does not find is no directory. -/
theorem not_isDir_of_not_accessible {d i : Ino} {name : Bytes}
    (hacc : s.fs.accessible s.cwd dest = false)
    (h : s.fs.entryAt s.cwd dest = some (d, name, i)) : s.fs.isDir i = false := by
  by_contra hdir
  rw [Bool.not_eq_false] at hdir
  cases hnode : s.fs.node i with
  | none => simp [isDir, hnode] at hdir
  | some x => simp [accessible_of_entryAt h hnode (.inl hdir)] at hacc

/-- A move for which nothing was asked preserves the destination, unless it is one of these. -/
theorem preserved_of_renames (hacc : s.fs.accessible s.cwd dest = false)
    (h : s.fs.Renames s.cwd src dest fs') (hno : ¬ Unasked s src dest) :
    Preserved s { s with fs := fs' } dest := by
  intro d' name' i' hdest
  obtain ⟨hloc', hi'⟩ := entryAt_eq_some.mp hdest
  obtain ⟨d, name, i, d₁, name₁, hsrc, hloc, hslash, hcase⟩ := h
  obtain ⟨rfl, rfl⟩ : d' = d₁ ∧ name' = name₁ := by simpa [hloc'] using hloc
  rcases hcase with ⟨-, rfl⟩ | ⟨hne, -, hrep, -⟩
  · exact ⟨hi', rfl⟩
  · refine absurd ?_ hno
    have hdir : s.fs.isDir i = false := by
      rw [← (hrep i' hi').1]
      exact not_isDir_of_not_accessible hacc hdest
    have hii : i ≠ i' := by
      rintro rfl
      exact hne hi'
    exact ⟨hacc, (hslash hdir).1, (hslash hdir).2, d, name, i, d', name', i', hsrc, hdir, hdest,
      hii⟩

/-- And these do replace the entry. -/
theorem Unasked.renames (h : Unasked s src dest) :
    ∃ fs', s.fs.Renames s.cwd src dest fs' ∧ ¬ Preserved s { s with fs := fs' } dest := by
  obtain ⟨hacc, hsl, hsl', d, name, i, d', name', i', hsrc, hdir, hdest, hii⟩ := h
  obtain ⟨hloc', hi'⟩ := entryAt_eq_some.mp hdest
  have hi := (entryAt_eq_some.mp hsrc).2
  have hdir' := not_isDir_of_not_accessible hacc hdest
  have hne : s.fs.lookup d' name' ≠ some i := by
    rw [hi']
    exact fun h => hii (Option.some.inj h).symm
  refine ⟨s.fs.move d name d' name' i, ⟨d, name, i, d', name', hsrc, hloc', fun _ => ⟨hsl, hsl'⟩,
    .inr ⟨hne, fun h => ?_, fun j hj => ?_, rfl⟩⟩, fun hp => ?_⟩
  · rw [hdir] at h
    cases h
  · obtain rfl : j = i' := by simpa [hi'] using hj.symm
    refine ⟨hdir'.trans hdir.symm, fun x => ?_⟩
    by_contra hx
    obtain ⟨k, hk⟩ := Option.ne_none_iff_exists'.mp hx
    rw [isDir_of_lookup hk] at hdir'
    cases hdir'
  · have hmoved := @lookup_move s.fs d name i d' name' (isDir_of_lookup hi)
      (isDir_of_lookup hi') hdir
    have hkept := (hp d' name' i' hdest).1
    rw [hmoved] at hkept
    exact hii (Option.some.inj hkept)

/-- Writing to a new file and reading elsewhere, the copying loop leaves every entry that was
there. -/
theorem wp_copyLoop {sfd dfd : Fd} {d i j : Ino} {name : Bytes} {off : Nat} (hfd : sfd ≠ dfd)
    (hfile : s.files dfd = some (i, off)) (hj : s.fs.lookup d name = some j) (hji : j ≠ i) :
    wp diskSys (copyLoop sfd dfd)
      (fun _ s' => s'.fs.lookup d name = some j ∧ s'.fs.node j = s.fs.node j) s := by
  have huses : Uses (fun c => c = .read sfd 4096 ∨ ∃ data, c = .write dfd data)
      (copyLoop sfd dfd) := by
    refine Uses.iterate (fun _ => (uses_perform.mpr (.inl rfl)).bind fun r => ?_) ()
    match r with
    | none => exact uses_pure
    | some [] => exact uses_pure
    | some (b :: bs) =>
      exact (uses_perform.mpr (.inr ⟨_, rfl⟩)).bind fun _ => uses_pure
  refine wp_mono (huses.wp (I := fun s' => s'.fs.lookup d name = some j ∧
    s'.fs.node j = s.fs.node j ∧ ∃ off, s'.files dfd = some (i, off)) ⟨hj, rfl, off, hfile⟩ ?_) ?_
  · rintro s₁ c r s₂ (rfl | ⟨data, rfl⟩) hc ⟨hj₁, hnode₁, off₁, hfile₁⟩
    · cases r with
      | none =>
        obtain rfl : s₂ = s₁ := hc
        exact ⟨hj₁, hnode₁, off₁, hfile₁⟩
      | some data =>
        obtain ⟨k, off, content, -, -, -, -, -, rfl⟩ := hc
        exact ⟨hj₁, hnode₁, off₁, by simp [Disk.seek, hfd.symm, hfile₁]⟩
    · cases r with
      | none =>
        obtain rfl : s₂ = s₁ := hc
        exact ⟨hj₁, hnode₁, off₁, hfile₁⟩
      | some n =>
        obtain ⟨k, off, content, hk, hcontent, -, rfl⟩ := hc
        obtain ⟨rfl, rfl⟩ : i = k ∧ off₁ = off := by simpa [hfile₁] using hk
        -- the directory of the entry is not the file that is written
        have hdi : d ≠ i := by
          rintro rfl
          simp [lookup, hcontent] at hj₁
        refine ⟨?_, ?_, off₁ + n, by simp [Disk.seek]⟩
        · exact (lookup_setNode_of_ne hdi _ _).trans hj₁
        · exact (node_setNode_of_ne hji _).trans hnode₁
  · exact fun _ s' h => ⟨h.1, h.2.1⟩

/-- What is opened for writing where `access` finds nothing is a new file. -/
theorem newEntry_of_opensForWriting {cwd i : Ino} {fs : FileSys}
    (hacc : fs.accessible cwd dest = false) (h : fs.OpensForWriting cwd dest fs' i) :
    fs.NewEntry (fs.reach cwd dest) (.file []) fs' i := by
  rcases h with ⟨htarget, ⟨data, hdata⟩, -⟩ | hnew
  · simp [accessible, htarget, hdata] at hacc
  · exact hnew

end

/-! ## 5. The commands -/

section

variable {s : Disk} {args : List Bytes}

/-- Closing a file changes no file. -/
theorem fs_of_close {s s' : Disk} {fd : Fd} {r : Unit} (h : diskSys s (.close fd) r s') :
    s'.fs = s.fs := by
  obtain rfl : s' = _ := h
  rfl

/-- `cmd_rm` asks before anything else. -/
theorem wp_rm_refused (hflag : utf8 "-i" ∈ args.tail) (hs : Refuses s) :
    wp diskSys (cmdRm args) (fun _ s' => s'.fs = s.fs) s := by
  rw [cmdRm, scanLast_eq, List.contains_iff_mem.mpr hflag]
  cases (operands (utf8 "-i") args.tail).getLast? with
  | none =>
    rintro _ s' hout
    exact fs_of_talks (c := .print _) trivial hout
  | some file =>
    change wp diskSys (mayRemove true file >>= _) _ s
    rw [wp_bind, mayRemove, if_pos rfl]
    refine wp_mono (wp_confirmAction hs _ _) ?_
    rintro go s₁ ⟨rfl, hfs⟩
    exact hfs

/-- What the loop over the arguments of `cmd_cp` and `cmd_mv` finds. -/
theorem scanTwo_of_mem (hflag : utf8 "-i" ∈ args.tail) :
    scanTwo (utf8 "-i") (false, none, none) args.tail =
      (true, (operands (utf8 "-i") args.tail)[0]?, (operands (utf8 "-i") args.tail)[1]?) := by
  have h := scanTwo_eq (utf8 "-i") false [] args.tail
  rw [List.contains_iff_mem.mpr hflag] at h
  exact h

/-- `cmd_cp` opens the destination only if nothing is found there, and then makes a new file
next to the entries that exist. -/
theorem wp_cp_refused {dest name : Bytes} {d j : Ino} (hflag : utf8 "-i" ∈ args.tail)
    (hs : Refuses s) (hdest : (operands (utf8 "-i") args.tail)[1]? = some dest)
    (hentry : s.fs.entryAt s.cwd dest = some (d, name, j)) :
    wp diskSys (cmdCp args)
      (fun _ s' => s'.fs.lookup d name = some j ∧ s'.fs.node j = s.fs.node j) s := by
  have hkeep : ∀ {s' : Disk}, s'.fs = s.fs →
      s'.fs.lookup d name = some j ∧ s'.fs.node j = s.fs.node j := by
    exact fun h => preserved_of_fs h dest d name j hentry
  rw [cmdCp, scanTwo_of_mem hflag, hdest]
  cases (operands (utf8 "-i") args.tail)[0]? with
  | none =>
    rintro _ s' hout
    exact hkeep (fs_of_talks (c := .print _) trivial hout)
  | some src =>
    refine wp_asked hs (fun s' hfs => hkeep hfs) fun hacc => ?_
    rw [if_pos rfl, wp_bind, wp_perform]
    rintro (_ | sfd) s₁ hsrc
    · obtain rfl : s₁ = s := hsrc
      rintro _ s₂ hout
      exact hkeep (fs_of_talks (c := .perror _) trivial hout)
    · obtain ⟨-, i₀, -, -, rfl⟩ := hsrc
      rw [wp_bind, wp_perform]
      rintro (_ | dfd) s₂ hdst
      · obtain rfl : s₂ = s.opened sfd i₀ := hdst
        rintro _ s₃ hout _ s₄ hclose
        have hfs₃ : s₃.fs = (s.opened sfd i₀).fs := fs_of_talks (c := .perror _) trivial hout
        exact hkeep ((fs_of_close hclose).trans hfs₃)
      · obtain ⟨hfree, fs', i, hopen, rfl⟩ := hdst
        have hfd : sfd ≠ dfd := by
          rintro rfl
          simp [Disk.opened] at hfree
        obtain ⟨hj, hnode, hji⟩ := (newEntry_of_opensForWriting hacc hopen).keeps
          (FileSys.entryAt_eq_some.mp hentry).2
        have hfile : (({ s.opened sfd i₀ with fs := fs' }).opened dfd i).files dfd =
            some (i, 0) := by simp [Disk.opened]
        rw [wp_bind]
        refine wp_mono (wp_copyLoop hfd hfile hj hji) ?_
        rintro _ s₃ hkept _ s₄ hclose _ s₅ hclose'
        have hfs₅ : s₅.fs = s₃.fs := (fs_of_close hclose').trans (fs_of_close hclose)
        change s₅.fs.lookup d name = some j ∧ s₅.fs.node j = s.fs.node j
        rw [hfs₅]
        exact ⟨hkept.1, hkept.2.trans (hnode (not_isDir_of_not_accessible hacc hentry))⟩

/-- `cmd_mv` renames without a question only if nothing is found at the destination. -/
theorem wp_mv_refused {src dest : Bytes} (hflag : utf8 "-i" ∈ args.tail) (hs : Refuses s)
    (hsrc : (operands (utf8 "-i") args.tail)[0]? = some src)
    (hdest : (operands (utf8 "-i") args.tail)[1]? = some dest) :
    wp diskSys (cmdMv args) (fun _ s' => s'.fs = s.fs ∨
      s.fs.accessible s.cwd dest = false ∧ s.fs.Renames s.cwd src dest s'.fs) s := by
  rw [cmdMv, scanTwo_of_mem hflag, hsrc, hdest]
  refine wp_asked hs (fun s' hfs => .inl hfs) fun hacc => ?_
  rw [if_pos rfl, wp_bind, wp_perform]
  rintro ok s₂ hren
  cases ok with
  | false =>
    obtain rfl : s₂ = s := by simpa [diskSys] using hren
    rintro _ s₃ hout
    exact .inl (fs_of_talks (c := .perror _) trivial hout)
  | true =>
    have hren' : ∃ fs', s.fs.Renames s.cwd src dest fs' ∧ s₂ = { s with fs := fs' } := by
      simpa [diskSys] using hren
    obtain ⟨fs', hfs', rfl⟩ := hren'
    exact .inr ⟨hacc, hfs'⟩

/-- Where nothing is asked, the destination can be lost. -/
theorem Unasked.lost {src dest : Bytes} (h : Unasked s src dest)
    (hflag : utf8 "-i" ∈ args.tail)
    (hsrc : (operands (utf8 "-i") args.tail)[0]? = some src)
    (hdest : (operands (utf8 "-i") args.tail)[1]? = some dest) :
    ∃ s', Exec diskSys (cmdMv args) s () s' ∧ ¬ Preserved s s' dest := by
  obtain ⟨fs', hren, hlost⟩ := h.renames
  refine ⟨{ s with fs := fs' }, ?_, hlost⟩
  have hgo : Exec diskSys (mayOverwrite true dest) s true s := by
    rw [mayOverwrite, if_pos rfl]
    exact Exec.step false ⟨h.1.symm, rfl⟩ .ret
  rw [cmdMv, scanTwo_of_mem hflag, hsrc, hdest]
  refine hgo.bind ?_
  rw [if_pos rfl]
  refine Exec.step true ?_ .ret
  simpa [diskSys] using hren

/-- What a refusal is to protect: the operand of `rm`, the destination of `cp` and `mv`. -/
def destination (b : Builtin) (args : List Bytes) : Option Bytes :=
  match b with
  | .rm => (operands (utf8 "-i") args.tail).getLast?
  | _ => (operands (utf8 "-i") args.tail)[1]?

/-- Under `-i` and without consent, what stands at the destination survives in every outcome,
unless `mv` finds an entry there that leads nowhere: then nothing is asked and the entry is
replaced. -/
theorem interactive_iff {b : Builtin} (hb : b = .cp ∨ b = .mv ∨ b = .rm)
    (hflag : utf8 "-i" ∈ args.tail) (hs : Refuses s) :
    (∀ s', Exec diskSys (b.run args) s () s' →
        ∀ path ∈ destination b args, Preserved s s' path) ↔
      ¬ (b = .mv ∧ ∃ src ∈ (operands (utf8 "-i") args.tail)[0]?,
        ∃ dest ∈ (operands (utf8 "-i") args.tail)[1]?, Unasked s src dest) := by
  constructor
  · rintro hsafe ⟨rfl, src, hsrc, dest, hdest, hun⟩
    obtain ⟨s', hexec, hlost⟩ := hun.lost hflag hsrc hdest
    exact hlost (hsafe s' hexec dest hdest)
  · rintro hno s' hexec path hpath
    rcases hb with rfl | rfl | rfl
    · intro d name j hentry
      exact hexec.wp (wp_cp_refused hflag hs hpath hentry)
    · obtain ⟨src, hsrc⟩ : ∃ src, (operands (utf8 "-i") args.tail)[0]? = some src := by
        have hlen := (List.getElem?_eq_some_iff.mp hpath).1
        exact ⟨_, List.getElem?_eq_getElem (by omega)⟩
      rcases hexec.wp (wp_mv_refused hflag hs hsrc hpath) with hfs | ⟨hacc, hren⟩
      · exact preserved_of_fs hfs path
      · exact preserved_of_renames hacc hren fun hun => hno ⟨rfl, src, hsrc, path, hpath, hun⟩
    · exact preserved_of_fs (hexec.wp (wp_rm_refused hflag hs)) path

end

/-- A directory with a file `a` and a symbolic link `l` that leads nowhere; the user says no. -/
def dangling : Disk where
  fs.root := 0
  fs.node
    | 0 => some (.dir 0 fun name =>
        if name = utf8 "a" then some 1 else if name = utf8 "l" then some 2 else none)
    | 1 => some (.file (utf8 "text"))
    | 2 => some (.symlink (utf8 "gone"))
    | _ => none
  cwd := 0
  stdin := utf8 "n\n"
  files _ := none
  out := []
  errors := []

theorem interactive_iff_file :
    Refuses dangling ∧ ∀ s',
      Exec diskSys (Builtin.mv.run [utf8 "mv", utf8 "l", utf8 "a", utf8 "-i"]) dangling () s' →
      ∀ path ∈ destination .mv [utf8 "mv", utf8 "l", utf8 "a", utf8 "-i"],
        Preserved dangling s' path := by
  have hs : Refuses dangling := by decide
  refine ⟨hs, (interactive_iff (.inr (.inl rfl)) (by decide) hs).mpr ?_⟩
  rintro ⟨-, src, -, dest, hdest, hacc, -⟩
  obtain rfl : dest = utf8 "a" := by
    have h : (operands (utf8 "-i") [utf8 "mv", utf8 "l", utf8 "a", utf8 "-i"].tail)[1]? =
        some (utf8 "a") := by decide
    exact Option.some.inj (hdest.symm.trans h)
  have hfound : dangling.fs.accessible dangling.cwd (utf8 "a") = true := by decide
  simp [hfound] at hacc

/-- The command `mv -i a l` asks nothing and replaces the link. -/
theorem link_replaced :
    Refuses dangling ∧ ¬ ∀ s',
      Exec diskSys (Builtin.mv.run [utf8 "mv", utf8 "-i", utf8 "a", utf8 "l"]) dangling () s' →
      ∀ path ∈ destination .mv [utf8 "mv", utf8 "-i", utf8 "a", utf8 "l"],
        Preserved dangling s' path := by
  have hun : Unasked dangling (utf8 "a") (utf8 "l") := by
    refine ⟨by decide, by decide, by decide, 0, utf8 "a", 1, 0, utf8 "l",
      2, by decide, by decide, by decide, by decide⟩
  have hdest : destination .mv [utf8 "mv", utf8 "-i", utf8 "a", utf8 "l"] = some (utf8 "l") := by
    decide
  refine ⟨by decide, fun h => ?_⟩
  have hflag : utf8 "-i" ∈ [utf8 "mv", utf8 "-i", utf8 "a", utf8 "l"].tail := by decide
  obtain ⟨s', hexec, hlost⟩ := hun.lost hflag (by decide) hdest
  exact hlost (h s' hexec (utf8 "l") hdest)

end PosixLab.Shell
