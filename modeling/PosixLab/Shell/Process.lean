/-
# What the shell process holds

The calls of the shell, read over what a process holds: its open descriptors, which include
those under directory and file streams, and its working directory.  A call may succeed or fail
at any time, `open` may return any free descriptor, and `close` always releases.  The log is
not part of the process; it keeps which commands were run, with what on their standard streams,
and the successful calls of `chdir`.

`line_keeps` is the frame of the loop body: at the prompt again the shell holds what it held,
whatever failed, and only `cd` has moved it.
-/
import Mathlib.Data.Finmap
import PosixLab.Shell.Main

namespace PosixLab.Shell

/-! ## 1. Processes -/

/-- What a descriptor is open on. -/
inductive Obj
  | terminal
  | file (path : Bytes) (mode : OpenMode)
  | pipeRead
  | pipeWrite
  | dirStream (path : Bytes)
  | fileStream (path : Bytes)
deriving DecidableEq

/-- A command that was run, with its arguments and its standard streams, or a move of the working
directory. -/
inductive Event
  | ran (args : List Bytes) (stdin stdout : Option Obj)
  | moved (path : Option Bytes)
deriving DecidableEq

structure Proc where
  fds : Finmap fun _ : Fd => Obj
  cwd : Bytes
  log : List Event

namespace Proc

/-- Open the descriptor `fd` on `o`. -/
def attach (p : Proc) (fd : Fd) (o : Obj) : Proc := { p with fds := p.fds.insert fd o }

/-- Close the descriptor `fd`. -/
def release (p : Proc) (fd : Fd) : Proc := { p with fds := p.fds.erase fd }

/-- Record the run of a command in the process. -/
def ran (p : Proc) (args : List Bytes) : Proc :=
  { p with log := p.log ++ [.ran args (p.fds.lookup 0) (p.fds.lookup 1)] }

/-- Closing what was just opened leaves nothing behind. -/
theorem release_attach {p : Proc} {fd : Fd} (h : fd ∉ p.fds) (o : Obj) :
    (p.attach fd o).release fd = p := by
  obtain ⟨fds, cwd, log⟩ := p
  simp only [attach, release, Proc.mk.injEq, and_true]
  refine Finmap.ext_lookup fun x => ?_
  by_cases hx : x = fd
  · rw [hx, Finmap.lookup_erase, eq_comm, Finmap.lookup_eq_none]
    exact h
  · rw [Finmap.lookup_erase_ne hx, Finmap.lookup_insert_of_ne _ hx]

/-- Descriptors are released in any order. -/
theorem release_comm (p : Proc) (fd fd' : Fd) :
    (p.release fd).release fd' = (p.release fd').release fd := by
  simp only [release, Finmap.erase_erase]

end Proc

/-- An `open`, `opendir` or `fopen`: it fails, or it opens some free descriptor. -/
def Opens (p : Proc) (o : Obj) (r : Option Fd) (p' : Proc) : Prop :=
  match r with
  | none => p' = p
  | some fd => fd ∉ p.fds ∧ p' = p.attach fd o

/-- What a call of a built-in command does to the process. -/
def cmdSys (p : Proc) : (c : Call) → c.Result → Proc → Prop
  | .chdir path, ok, p' =>
    if ok then ∃ dir, p' = { p with cwd := dir, log := p.log ++ [.moved path] } else p' = p
  | .opendir path, r, p' => Opens p (.dirStream path) r p'
  | .openFile path mode, r, p' => Opens p (.file path mode) r p'
  | .fopen path, r, p' => Opens p (.fileStream path) r p'
  | .closedir dp, _, p' => p' = p.release dp
  | .close fd, _, p' => p' = p.release fd
  | .fclose fp, _, p' => p' = p.release fp
  | _, _, p' => p' = p

/-- What a call of `main` does to the process.  The copy that `fork` makes holds what the process
holds, so an execution can go on in either. -/
def mainSys (p : Proc) : (c : MainCall) → c.Result → Proc → Prop
  | .pipe, none, p' => p' = p
  | .pipe, some (rd, wr), p' =>
    rd ∉ p.fds ∧ wr ∉ p.fds ∧ rd ≠ wr ∧ p' = (p.attach rd .pipeRead).attach wr .pipeWrite
  | .openFile path mode, r, p' => Opens p (.file path mode) r p'
  | .dup2 old new, _, p' => p' = p ∨ ∃ o, old.bind p.fds.lookup = some o ∧ p' = p.attach new o
  | .close fd, _, p' => p' = (fd.map p.release).getD p
  | .execvp args, replaced, p' => p' = if replaced then p.ran args else p
  | .builtin b args, _, p' => Prog.Exec cmdSys (b.run args) (p.ran args) () p'
  | _, _, p' => p' = p

/-! ## 2. The built-in commands -/

open Prog

variable {α β : Type}

/-- The calls that open, close and move nothing. -/
def Quiet : Call → Prop
  | .chdir _ | .opendir _ | .openFile _ _ | .fopen _ | .closedir _ | .close _ | .fclose _ => False
  | _ => True

theorem eq_of_quiet {p p' : Proc} {c : Call} {r : c.Result} (hc : Quiet c)
    (h : cmdSys p c r p') : p' = p := by
  cases c <;> first | exact h | exact hc.elim

theorem uses_quiet {c : Call} (hc : Quiet c) : Uses Quiet (perform c) := uses_perform.mpr hc

theorem uses_call {c : Call} {f : c.Result → Cmd α} (hc : Quiet c)
    (hf : ∀ r, Uses Quiet (f r)) : Uses Quiet (perform c >>= f) :=
  (uses_quiet hc).bind hf

theorem uses_print (text : Bytes) : Uses Quiet (printText text) := uses_quiet (by trivial)

theorem uses_complain (msg : String) : Uses Quiet (complain msg) := uses_quiet (by trivial)

theorem uses_confirmAction (msg file : Bytes) : Uses Quiet (confirmAction msg file) := by
  refine (uses_print _).bind fun _ => uses_call (by trivial) fun ans => ?_
  exact (Uses.iterate (fun _ => uses_call (by trivial) fun c => uses_pure.ite uses_pure) ()).bind
    fun _ => uses_pure

theorem uses_mayOverwrite (i : Bool) (dest : Bytes) : Uses Quiet (mayOverwrite i dest) := by
  refine Uses.ite (uses_call (by trivial) fun found => ?_) uses_pure
  exact (uses_confirmAction _ _).ite uses_pure

theorem uses_mayRemove (i : Bool) (file : Bytes) : Uses Quiet (mayRemove i file) :=
  (uses_confirmAction _ _).ite uses_pure

theorem uses_lsTarget (kind : FileKind) (fullpath : Bytes) :
    Uses Quiet (lsTarget kind fullpath) := by
  refine Uses.ite (uses_call (by trivial) fun r => ?_) uses_pure
  split
  · exact uses_print _
  · exact uses_pure

theorem uses_lsLong (path name : Bytes) : Uses Quiet (lsLong path name) := by
  refine uses_call (by trivial) fun r => ?_
  split
  · exact uses_pure
  · exact (uses_print _).bind fun _ => uses_call (by trivial) fun pw =>
      uses_call (by trivial) fun gr => uses_call (by trivial) fun timebuf =>
      (uses_print _).bind fun _ => (uses_lsTarget _ _).bind fun _ => uses_print _

theorem uses_lsEnd (l : Bool) : Uses Quiet (lsEnd l) := uses_pure.ite (uses_print _)

theorem uses_printLine (n : Bool) (number line : Bytes) :
    Uses Quiet (printLine n number line) :=
  ((uses_print _).bind fun _ => uses_print _).ite (uses_print _)

/-! ### Commands that open nothing -/

theorem uses_cmdPwd (args : List Bytes) : Uses Quiet (cmdPwd args) := by
  refine uses_call (by trivial) fun r => ?_
  split
  · exact uses_print _
  · exact uses_complain _

theorem uses_cmdMkdir (args : List Bytes) : Uses Quiet (cmdMkdir args) := by
  unfold cmdMkdir
  split
  · exact uses_print _
  · exact uses_call (by trivial) fun ok => uses_pure.ite (uses_complain _)

theorem uses_cmdRmdir (args : List Bytes) : Uses Quiet (cmdRmdir args) := by
  unfold cmdRmdir
  split
  · exact uses_print _
  · exact uses_call (by trivial) fun ok => uses_pure.ite (uses_complain _)

theorem uses_cmdLn (args : List Bytes) : Uses Quiet (cmdLn args) := by
  unfold cmdLn
  split
  · refine Uses.ite ?_ ?_
    · exact uses_call (by trivial) fun ok => (uses_print _).ite (uses_complain _)
    · exact uses_call (by trivial) fun ok => (uses_print _).ite (uses_complain _)
  · exact uses_print _

theorem uses_cmdRm (args : List Bytes) : Uses Quiet (cmdRm args) := by
  unfold cmdRm
  split
  · refine (uses_mayRemove _ _).bind fun go => Uses.ite ?_ uses_pure
    exact uses_call (by trivial) fun ok => uses_pure.ite (uses_complain _)
  · exact uses_print _

theorem uses_cmdMv (args : List Bytes) : Uses Quiet (cmdMv args) := by
  unfold cmdMv
  split
  · refine (uses_mayOverwrite _ _).bind fun go => Uses.ite ?_ uses_pure
    exact uses_call (by trivial) fun ok => uses_pure.ite (uses_complain _)
  · exact uses_print _

/-! ### Commands that close what they open -/

section

variable {p : Proc}

/-- Quiet calls leave the process as it is. -/
theorem wp_quiet {c : Cmd α} (h : Uses Quiet c) : wp cmdSys c (fun _ p' => p' = p) p :=
  h.wp rfl fun _ _ _ _ hq hs hI => (eq_of_quiet hq hs).trans hI

/-- Quiet calls can be skipped. -/
theorem wp_quiet_bind {c : Cmd α} {f : α → Cmd β} {Q : β → Proc → Prop} (h : Uses Quiet c)
    (hf : ∀ a, wp cmdSys (f a) Q p) : wp cmdSys (c >>= f) Q p :=
  wp_bind.mpr (wp_mono (wp_quiet h) fun a _ hp => hp ▸ hf a)

/-- What is opened, used by quiet calls and closed leaves nothing behind. -/
theorem wp_close {fd : Fd} {o : Obj} (hfd : fd ∉ p.fds) {c : Cmd α} (h : Uses Quiet c)
    {close : Call}
    (hclose : ∀ {q r q'}, cmdSys q close r q' → q' = q.release fd) :
    wp cmdSys (c >>= fun _ => perform close) (fun _ p' => p' = p) (p.attach fd o) := by
  refine wp_quiet_bind h fun _ => ?_
  intro r p' hp'
  exact (hclose hp').trans (Proc.release_attach hfd o)

theorem wp_cmdLs (args : List Bytes) : wp cmdSys (cmdLs args) (fun _ p' => p' = p) p := by
  unfold cmdLs
  rw [wp_bind, wp_perform]
  intro r p₁ h₁
  cases r with
  | none =>
    obtain rfl : p₁ = p := h₁
    exact wp_quiet (uses_complain _)
  | some dp =>
    obtain ⟨hdp, rfl⟩ := h₁
    refine wp_quiet_bind (Uses.iterate (fun _ => ?_) ()) fun _ =>
      wp_close hdp (uses_lsEnd _) fun h => h
    refine uses_call (by trivial) fun entry => ?_
    split
    · exact uses_pure
    · refine Uses.ite uses_pure (Uses.ite ?_ ?_)
      · exact (uses_lsLong _ _).bind fun _ => uses_pure
      · exact (uses_print _).bind fun _ => uses_pure

theorem uses_copyLoop (sfd dfd : Fd) : Uses Quiet (copyLoop sfd dfd) := by
  refine Uses.iterate (fun _ => uses_call (by trivial) fun data => ?_) ()
  split
  · exact uses_pure
  · exact uses_pure
  · exact uses_call (by trivial) fun _ => uses_pure

theorem wp_cmdCp (args : List Bytes) : wp cmdSys (cmdCp args) (fun _ p' => p' = p) p := by
  unfold cmdCp
  split
  · refine wp_quiet_bind (uses_mayOverwrite _ _) fun go => ?_
    split
    · rw [wp_bind, wp_perform]
      intro r p₁ h₁
      cases r with
      | none =>
        obtain rfl : p₁ = p := h₁
        exact wp_quiet (uses_complain _)
      | some sfd =>
        obtain ⟨hsfd, rfl⟩ := h₁
        dsimp only
        rw [wp_bind, wp_perform]
        intro r p₂ h₂
        cases r with
        | none =>
          obtain rfl : p₂ = p.attach sfd _ := h₂
          exact wp_close hsfd (uses_complain _) fun h => h
        | some dfd =>
          -- the descriptors are closed in the order in which they were opened
          obtain ⟨hdfd, rfl⟩ := h₂
          refine wp_quiet_bind (uses_copyLoop _ _) fun _ => ?_
          rw [wp_bind, wp_perform]
          intro _ p₃ h₃ _ p₄ h₄
          obtain rfl : p₃ = Proc.release _ sfd := h₃
          obtain rfl : p₄ = Proc.release _ dfd := h₄
          show Proc.release _ dfd = p
          rw [Proc.release_comm, Proc.release_attach hdfd, Proc.release_attach hsfd]
    · exact wp_quiet uses_pure
  · exact wp_quiet (uses_print _)

/-- The rule for a command that opens a stream, reads it and closes it. -/
theorem wp_fopen {path : Bytes} {rest : Option Fd → Cmd Unit} (hfail : Uses Quiet (rest none))
    (hopen : ∀ fp, ∃ body : Cmd Unit, Uses Quiet body ∧
      rest (some fp) = body >>= fun _ => perform (.fclose fp)) :
    wp cmdSys (perform (.fopen path) >>= rest) (fun _ p' => p' = p) p := by
  rw [wp_bind, wp_perform]
  intro r p₁ h₁
  cases r with
  | none =>
    obtain rfl : p₁ = p := h₁
    exact wp_quiet hfail
  | some fp =>
    obtain ⟨hfp, rfl⟩ := h₁
    obtain ⟨body, hbody, hrest⟩ := hopen fp
    rw [hrest]
    exact wp_close hfp hbody fun h => h

theorem wp_cmdCat (args : List Bytes) : wp cmdSys (cmdCat args) (fun _ p' => p' = p) p := by
  unfold cmdCat
  split
  · refine wp_fopen (uses_complain _) fun fp =>
      ⟨_, Uses.iterate (fun lineNum => ?_) 1, rfl⟩
    refine uses_call (by trivial) fun line => ?_
    split
    · exact uses_pure
    · exact (uses_printLine _ _ _).bind fun _ => uses_pure
  · exact wp_quiet (uses_print _)

theorem wp_cmdGrep (args : List Bytes) : wp cmdSys (cmdGrep args) (fun _ p' => p' = p) p := by
  unfold cmdGrep
  split
  · refine wp_fopen (uses_complain _) fun fp =>
      ⟨_, Uses.iterate (fun lineNum => ?_) 0, rfl⟩
    refine uses_call (by trivial) fun line => ?_
    split
    · exact uses_pure
    · refine Uses.ite ?_ uses_pure
      exact (uses_printLine _ _ _).bind fun _ => uses_pure
  · exact wp_quiet (uses_print _)

/-- A built-in command other than `cd` leaves the process as it is. -/
theorem wp_run {b : Builtin} (hb : b ≠ .cd) (args : List Bytes) :
    wp cmdSys (b.run args) (fun _ p' => p' = p) p := by
  cases b with
  | cd => exact absurd rfl hb
  | ls => exact wp_cmdLs args
  | pwd => exact wp_quiet (uses_cmdPwd args)
  | mkdir => exact wp_quiet (uses_cmdMkdir args)
  | rmdir => exact wp_quiet (uses_cmdRmdir args)
  | ln => exact wp_quiet (uses_cmdLn args)
  | cp => exact wp_cmdCp args
  | rm => exact wp_quiet (uses_cmdRm args)
  | mv => exact wp_quiet (uses_cmdMv args)
  | cat => exact wp_cmdCat args
  | grep => exact wp_cmdGrep args

/-- The command `cd` leaves the process as it is, or has moved it by a successful `chdir`. -/
theorem wp_cmdCd (args : List Bytes) :
    wp cmdSys (cmdCd args) (fun _ p' => p' = p ∨
      ∃ path dir, p' = { p with cwd := dir, log := p.log ++ [.moved path] }) p := by
  unfold cmdCd
  have hpath : Uses Quiet (cdPath args) := by
    unfold cdPath
    split
    · exact uses_pure
    · exact uses_quiet (by trivial)
  refine wp_quiet_bind hpath fun path => ?_
  rw [wp_bind, wp_perform]
  intro ok p₁ h₁
  cases ok with
  | true =>
    obtain ⟨dir, rfl⟩ : ∃ dir, p₁ = { p with cwd := dir, log := p.log ++ [.moved path] } := h₁
    rw [if_pos rfl]
    exact .inr ⟨path, dir, rfl⟩
  | false =>
    obtain rfl : p₁ = p := h₁
    rw [if_neg (by simp)]
    exact wp_mono (wp_quiet (uses_complain _)) fun _ _ hp => .inl hp

end

/-! ## 3. The loop body -/

section

variable {p : Proc}

/-- The children that `main` forks do not come back to the prompt. -/
theorem wp_stage (own other std : Fd) (args : List Bytes) :
    wp mainSys (stage own other std args) (fun a _ => a = .gone) p := by
  simp [stage]

theorem wp_childProgram (cmd : Command) :
    wp mainSys (childProgram cmd) (fun a _ => a = .gone) p := by
  have hstart : ∀ (file : Option Bytes) (mode : OpenMode) (std : Fd) (q : Proc)
      (Q : Unit → Proc → Prop), (∀ q', Q () q') → wp mainSys (redirect file mode std) Q q := by
    intro file mode std q Q hQ
    unfold redirect
    cases file with
    | none => exact hQ q
    | some path =>
      simp only [wp_bind, wp_perform]
      exact fun _ _ _ _ _ _ _ q' _ => hQ q'
  rw [childProgram, wp_bind]
  refine hstart _ _ _ _ _ fun q => ?_
  rw [wp_bind]
  refine hstart _ _ _ _ _ fun q' => ?_
  rw [wp_bind, wp_perform]
  intro replaced q'' _
  split
  · exact rfl
  · simp

/-- What holds of the shell at the prompt, after a line that is treated as `t`. -/
def Kept (t : Treatment) (p : Proc) (a : After) (p' : Proc) : Prop :=
  a = .prompt → p'.fds = p.fds ∧
    (p'.cwd = p.cwd ∨ ∃ cmd path, t = .builtin .cd cmd ∧ .moved path ∈ p'.log.drop p.log.length)

theorem kept_self (t : Treatment) (a : After) : Kept t p a p := fun _ => ⟨rfl, .inl rfl⟩

/-- A child that does not come back keeps what it has to. -/
theorem wp_kept_of_gone {prog : Prog MainCall MainCall.Result After} {q : Proc} (t : Treatment)
    (h : wp mainSys prog (fun a _ => a = .gone) q) : wp mainSys prog (Kept t p) q := by
  refine wp_mono h ?_
  rintro _ p' rfl hprompt
  cases hprompt

/-- Back at the prompt both ends of the pipe are closed again. -/
theorem wp_rightStage (t : Treatment) {rd wr : Fd} (hrd : rd ∉ p.fds) (hwr : wr ∉ p.fds)
    (hne : rd ≠ wr) (right : List Bytes) :
    wp mainSys (rightStage rd wr right) (Kept t p)
      ((p.attach rd .pipeRead).attach wr .pipeWrite) := by
  have hback : wp mainSys (do
      call (.close (some rd))
      call (.close (some wr))
      call .wait
      call .wait
      pure .prompt) (Kept t p) ((p.attach rd .pipeRead).attach wr .pipeWrite) := by
    simp only [wp_bind, wp_perform, wp_pure]
    rintro _ _ rfl _ _ rfl _ _ rfl _ _ rfl
    have hwr' : wr ∉ (p.attach rd .pipeRead).fds := by
      simp [Proc.attach, Finmap.mem_insert, hwr, hne.symm]
    simp only [Option.map_some, Option.getD_some]
    rw [Proc.release_comm, Proc.release_attach hwr', Proc.release_attach hrd]
    exact kept_self t _
  rw [rightStage, wp_bind, wp_perform]
  rintro pid _ rfl
  cases pid with
  | child =>
    exact wp_kept_of_gone t (wp_stage _ _ _ _)
  | parent pid => exact hback
  | failed => exact hback

theorem wp_pipeline (t : Treatment) (left right : List Bytes) :
    wp mainSys (pipeline left right) (Kept t p) p := by
  rw [pipeline, wp_bind, wp_perform]
  intro fd p₁ h₁
  cases fd with
  | none =>
    obtain rfl : p₁ = p := h₁
    rw [wp_bind, wp_perform]
    rintro _ _ rfl
    exact kept_self t _
  | some fd =>
    obtain ⟨rd, wr⟩ := fd
    obtain ⟨hrd, hwr, hne, rfl⟩ := h₁
    dsimp only
    rw [wp_bind, wp_perform]
    rintro pid _ rfl
    cases pid with
    | child =>
      exact wp_kept_of_gone t (wp_stage _ _ _ _)
    | parent pid => exact wp_rightStage t hrd hwr hne right
    | failed => exact wp_rightStage t hrd hwr hne right

theorem wp_external (t : Treatment) (bg : Bool) (cmd : Command) :
    wp mainSys (external bg cmd) (Kept t p) p := by
  rw [external, wp_bind, wp_perform]
  rintro pid _ rfl
  cases pid with
  | child =>
    exact wp_kept_of_gone t (wp_childProgram cmd)
  | parent pid =>
    dsimp only
    split <;> rw [wp_bind, wp_perform] <;> rintro _ _ rfl <;> exact kept_self t _
  | failed =>
    dsimp only
    rw [wp_bind, wp_perform]
    rintro _ _ rfl
    exact kept_self t _

theorem wp_handle (t : Treatment) : wp mainSys (handle t) (Kept t p) p := by
  cases t with
  | idle infile outfile => exact kept_self _ _
  | exit =>
    rw [handle, wp_bind, wp_perform]
    rintro _ _ rfl
    exact kept_self _ _
  | pipeline left right => exact wp_pipeline _ left right
  | builtin b cmd =>
    rw [handle, wp_bind, wp_perform]
    intro _ p' hrun _
    by_cases hb : b = .cd
    · subst hb
      rcases hrun.wp (wp_cmdCd cmd.args) with rfl | ⟨path, dir, rfl⟩
      · exact ⟨rfl, .inl rfl⟩
      · refine ⟨rfl, .inr ⟨cmd, path, rfl, ?_⟩⟩
        simp [Proc.ran]
    · obtain rfl := hrun.wp (wp_run hb cmd.args)
      exact ⟨rfl, .inl rfl⟩
  | foreground cmd => exact wp_external _ false cmd
  | background cmd => exact wp_external _ true cmd

/-- The frame of the loop body.  Whatever each call returned, the shell that is back at the
prompt has the same descriptors and streams open on the same things, and it is in the same
directory unless the line was a `cd` and its `chdir` succeeded. -/
theorem line_keeps {line : Bytes} {other : Treatment} {p' : Proc}
    (h : Exec mainSys (handleLine line other) p .prompt p') :
    p'.fds = p.fds ∧
      (p'.cwd = p.cwd ∨
        ∃ cmd path, (treat line).getD other = .builtin .cd cmd ∧
          .moved path ∈ p'.log.drop p.log.length) :=
  h.wp (wp_handle _) rfl

end

/-- A shell with nothing open but its standard streams. -/
def shellAt (dir : Bytes) : Proc :=
  ⟨(((∅ : Finmap fun _ : Fd => Obj).insert 0 .terminal).insert 1 .terminal).insert 2 .terminal,
    dir, []⟩

theorem three_free (dir : Bytes) : 3 ∉ (shellAt dir).fds := by
  simp [shellAt, Finmap.mem_insert, Finmap.notMem_empty]

/-- The line `cat f`, where `f` opens under descriptor 3 and is empty. -/
theorem line_keeps_cat :
    ((shellAt (utf8 "/")).ran [utf8 "cat", utf8 "f"]).fds = (shellAt (utf8 "/")).fds ∧
      (((shellAt (utf8 "/")).ran [utf8 "cat", utf8 "f"]).cwd = (shellAt (utf8 "/")).cwd ∨
        ∃ cmd path, (treat (utf8 "cat f")).getD .exit = .builtin .cd cmd ∧
          .moved path ∈ ((shellAt (utf8 "/")).ran [utf8 "cat", utf8 "f"]).log.drop 0) := by
  have ht : treat (utf8 "cat f") = some (.builtin .cat ⟨[utf8 "cat", utf8 "f"], none, none⟩) := rfl
  have hexec : Exec mainSys (handleLine (utf8 "cat f") .exit) (shellAt (utf8 "/")) .prompt
      ((shellAt (utf8 "/")).ran [utf8 "cat", utf8 "f"]) := by
    rw [handleLine, ht, Option.getD_some]
    have hscan : scanLast (utf8 "-n") (false, none) [utf8 "f"] = (false, some (utf8 "f")) := by
      decide
    have hfree : 3 ∉ ((shellAt (utf8 "/")).ran [utf8 "cat", utf8 "f"]).fds := three_free (utf8 "/")
    have hcat : Exec cmdSys (cmdCat [utf8 "cat", utf8 "f"])
        ((shellAt (utf8 "/")).ran [utf8 "cat", utf8 "f"]) ()
        ((shellAt (utf8 "/")).ran [utf8 "cat", utf8 "f"]) := by
      unfold cmdCat
      rw [List.tail_cons, hscan]
      refine (Exec.perform (r := some 3) ⟨hfree, rfl⟩).bind ?_
      refine Exec.bind (a := ()) (Exec.done (x := ()) (.call (r := none) rfl .ret) .ret) ?_
      exact Exec.perform (Proc.release_attach hfree (.fileStream (utf8 "f"))).symm
    exact (Exec.perform (r := ()) hcat).bind .ret
  exact line_keeps hexec

end PosixLab.Shell
