/-
# The two sides of a pipe

What `main` sets up for a line `L | R`: a pipe, a child for each side, and the shell that closes
both ends and waits twice.  The three processes take turns at any of their calls.  A side that
runs its program writes to the pipe, or reads from it; a read finds the end of the data once
nobody holds the write end, and a write kills its process once nobody holds the read end.

So all depends on who closes what.  `Wired` says who holds which end of the pipe at each moment,
and `PipeMove.follows` that the three processes do what the program of `main` for such a line says.
-/
import PosixLab.Basis.Runs
import PosixLab.Shell.Main

namespace PosixLab.Shell

open PosixLab

/-! ## 1. Three processes and a pipe -/

inductive Side
  | left
  | right
deriving DecidableEq

def Side.other : Side → Side
  | .left => .right
  | .right => .left

/-- Where the shell stands, named after the call it makes next.  It closes `fd[0]`, which is the
end of the right side, before `fd[1]`.  A `pipe` that fails leads to the prompt. -/
inductive ShellPc
  | pipe
  | fork (x : Side)
  | close (x : Side)
  | wait (last : Bool)
  | prompt (piped : Bool)
deriving DecidableEq

/-- Where a child stands: in front of its calls, in its program, or behind it. -/
inductive StagePc
  | closeOther
  | dup
  | closeOwn
  | exec
  | run
  | exit
  | ended
  | collected
deriving DecidableEq

/-- A child, with its descriptors: its own end of the pipe, the other end, and its own end again
in place of a standard stream. -/
structure PipeChild where
  pc : StagePc
  own : Bool
  other : Bool
  std : Bool
deriving DecidableEq

/-- A line under way: the shell and the ends that it holds, the children, what the left program
has still to write, and what is in the pipe.  Other children of the shell show only in that a
`wait` may return for one of them. -/
structure PipeLine where
  shell : ShellPc
  fd : Side → Bool
  child : Side → Option PipeChild
  todo : Bytes
  buffer : Bytes

/-- The line is read, and the left program will write `text`. -/
def PipeLine.init (text : Bytes) : PipeLine := ⟨.pipe, fun _ => false, fun _ => none, text, []⟩

/-- Somebody holds the end that the side `x` uses. -/
def PipeLine.held (s : PipeLine) (x : Side) : Bool :=
  s.fd x || (s.child x).any (fun c => c.own || c.std) || (s.child x.other).any (·.other)

/-- Nobody is left to wait for on this side. -/
def PipeLine.gone (s : PipeLine) (x : Side) : Bool := (s.child x).all (·.pc == .collected)

/-- A call of a child up to its program, and what the program does. -/
inductive StageAction
  | closeOther
  | dup
  | closeOwn
  | exec (ok : Bool)
  | write (n : Nat)
  | sigpipe
  | read (n : Nat)
  | eof
  | quit
  | exit
deriving DecidableEq

/-- A call of the shell, with what it returns, or a step of a child.  `waitEarly` is a `wait` that
a signal interrupts, or that collects a child of an earlier line. -/
inductive PipeAction
  | pipe (ok : Bool)
  | fork (ok : Bool)
  | close
  | wait (x : Option Side)
  | waitEarly
  | stage (x : Side) (a : StageAction)
deriving DecidableEq

inductive PipeEvent
  | silent
  | failed (x : Side)
  | wrote (bs : Bytes)
  | got (bs : Bytes)
  | eof
  | killed
  | early
deriving DecidableEq

/-- The child at the side `x` is `c` now. -/
def PipeLine.setChild (s : PipeLine) (x : Side) (c : PipeChild) : PipeLine :=
  { s with child := Function.update s.child x (some c) }

/-- A process that is over holds nothing. -/
def PipeChild.ended : PipeChild := ⟨.ended, false, false, false⟩

/-- The calls of a child before its program. -/
def callStep (c : PipeChild) : StageAction → Option PipeChild
  | .closeOther => if c.pc = .closeOther then some { c with pc := .dup, other := false } else none
  | .dup => if c.pc = .dup then some { c with pc := .closeOwn, std := c.own } else none
  | .closeOwn => if c.pc = .closeOwn then some { c with pc := .exec, own := false } else none
  | .exec true => if c.pc = .exec then some { c with pc := .run } else none
  | _ => none

/-- A step of the child at the side `x`, with a pipe that holds so many bytes. -/
def stageStep (cap : Nat) (s : PipeLine) (x : Side) (c : PipeChild) :
    StageAction → Option (PipeLine × List PipeEvent)
  | .exec false => if c.pc = .exec then some (s.setChild x .ended, [.failed x]) else none
  | .write n =>
    if x = .left ∧ c.pc = .run ∧ c.std = true ∧ s.held .right = true ∧ 0 < n ∧
        n ≤ s.todo.length ∧ s.buffer.length + n ≤ cap then
      some ({ s with todo := s.todo.drop n, buffer := s.buffer ++ s.todo.take n },
        [.wrote (s.todo.take n)])
    else none
  | .sigpipe =>
    if x = .left ∧ c.pc = .run ∧ c.std = true ∧ s.held .right = false ∧ s.todo ≠ [] then
      some (s.setChild x .ended, [.killed])
    else none
  | .read n =>
    if x = .right ∧ c.pc = .run ∧ c.std = true ∧ 0 < n ∧ n ≤ s.buffer.length then
      some ({ s with buffer := s.buffer.drop n }, [.got (s.buffer.take n)])
    else none
  | .eof =>
    if x = .right ∧ c.pc = .run ∧ c.std = true ∧ s.buffer = [] ∧ s.held .left = false then
      some (s.setChild x { c with pc := .exit }, [.eof])
    else none
  | .quit =>
    if x = .right ∧ c.pc = .run then some (s.setChild x .ended, [.silent]) else none
  | .exit =>
    if x = .right ∧ c.pc = .exit ∨ x = .left ∧ c.pc = .run ∧ s.todo = [] then
      some (s.setChild x .ended, [.silent])
    else none
  | a => (callStep c a).map fun c' => (s.setChild x c', [.silent])

/-- A `wait` that returns at once, as there is nobody to wait for, or one for a child. -/
def PipeLine.Collects (s : PipeLine) : Option Side → Prop
  | none => s.gone .left = true ∧ s.gone .right = true
  | some x => (s.child x).any (·.pc == .ended) = true

instance (s : PipeLine) : DecidablePred s.Collects
  | none => inferInstanceAs (Decidable (_ ∧ _))
  | some _ => inferInstanceAs (Decidable (_ = true))

/-- The state behind a `wait`. -/
def PipeLine.collect (s : PipeLine) : Option Side → PipeLine
  | none => s
  | some x => s.setChild x ⟨.collected, false, false, false⟩

/-- One step. -/
def pipeStep (cap : Nat) (s : PipeLine) : PipeAction → Option (PipeLine × List PipeEvent)
  | .pipe ok =>
    if s.shell = .pipe then
      some (if ok then { s with shell := .fork .left, fd := fun _ => true }
        else { s with shell := .prompt false }, [.silent])
    else none
  | .fork ok =>
    match s.shell with
    | .fork x =>
      let next := { s with shell := if x = .left then .fork .right else .close .right }
      if ok then some (next.setChild x ⟨.closeOther, s.fd x, s.fd x.other, false⟩, [.silent])
      else some (next, [.failed x])
    | _ => none
  | .close =>
    match s.shell with
    | .close x =>
      some ({ s with
        shell := if x = .right then .close .left else .wait false
        fd := Function.update s.fd x false }, [.silent])
    | _ => none
  | .wait r =>
    match s.shell with
    | .wait last =>
      if s.Collects r then
        some ({ s.collect r with shell := if last then .prompt true else .wait true },
          [.silent])
      else none
    | _ => none
  | .waitEarly =>
    match s.shell with
    | .wait last => some ({ s with shell := if last then .prompt true else .wait true }, [.early])
    | _ => none
  | .stage x a =>
    match s.child x with
    | some c => stageStep cap s x c a
    | none => none

variable {cap : Nat} {s s' : PipeLine} {a : PipeAction} {ev log : List PipeEvent} {x y : Side}
  {c c' : PipeChild} {text : Bytes}

/-- What a step can do. -/
inductive PipeMove (cap : Nat) (s : PipeLine) : PipeAction → PipeLine → List PipeEvent → Prop
  | piped (hpc : s.shell = .pipe) :
      PipeMove cap s (.pipe true) { s with shell := .fork .left, fd := fun _ => true } [.silent]
  | noPipe (hpc : s.shell = .pipe) :
      PipeMove cap s (.pipe false) { s with shell := .prompt false } [.silent]
  | forked (x : Side) (hpc : s.shell = .fork x) :
      PipeMove cap s (.fork true)
        (PipeLine.setChild { s with shell := if x = .left then .fork .right else .close .right }
          x ⟨.closeOther, s.fd x, s.fd x.other, false⟩) [.silent]
  | noFork (x : Side) (hpc : s.shell = .fork x) :
      PipeMove cap s (.fork false)
        { s with shell := if x = .left then .fork .right else .close .right } [.failed x]
  | closed (x : Side) (hpc : s.shell = .close x) :
      PipeMove cap s .close { s with
        shell := if x = .right then .close .left else .wait false
        fd := Function.update s.fd x false } [.silent]
  | waited (r : Option Side) (last : Bool) (hpc : s.shell = .wait last) (hr : s.Collects r) :
      PipeMove cap s (.wait r)
        { s.collect r with shell := if last then .prompt true else .wait true } [.silent]
  | waitedEarly (last : Bool) (hpc : s.shell = .wait last) :
      PipeMove cap s .waitEarly { s with shell := if last then .prompt true else .wait true }
        [.early]
  | calls (x : Side) (c c' : PipeChild) (a : StageAction) (hc : s.child x = some c)
      (hcall : callStep c a = some c') : PipeMove cap s (.stage x a) (s.setChild x c') [.silent]
  | notRun (x : Side) (c : PipeChild) (hc : s.child x = some c) (hpc : c.pc = .exec) :
      PipeMove cap s (.stage x (.exec false)) (s.setChild x .ended) [.failed x]
  | wrote (c : PipeChild) (n : Nat) (hc : s.child .left = some c) (hpc : c.pc = .run) (hpos : 0 < n)
      (hn : n ≤ s.todo.length) (hcap : s.buffer.length + n ≤ cap) :
      PipeMove cap s (.stage .left (.write n))
        { s with todo := s.todo.drop n, buffer := s.buffer ++ s.todo.take n }
        [.wrote (s.todo.take n)]
  | killed (c : PipeChild) (hc : s.child .left = some c) (hpc : c.pc = .run)
      (hno : s.held .right = false) :
      PipeMove cap s (.stage .left .sigpipe) (s.setChild .left .ended) [.killed]
  | got (c : PipeChild) (n : Nat) (hc : s.child .right = some c) (hpc : c.pc = .run) (hpos : 0 < n)
      (hn : n ≤ s.buffer.length) :
      PipeMove cap s (.stage .right (.read n)) { s with buffer := s.buffer.drop n }
        [.got (s.buffer.take n)]
  | eof (c : PipeChild) (hc : s.child .right = some c) (hpc : c.pc = .run) (hempty : s.buffer = [])
      (hno : s.held .left = false) :
      PipeMove cap s (.stage .right .eof) (s.setChild .right { c with pc := .exit }) [.eof]
  | over (x : Side) (c : PipeChild) (a : StageAction) (hc : s.child x = some c)
      (hpc : c.pc = .exit ∨ c.pc = .run) (htodo : x = .left → s.todo = []) :
      PipeMove cap s (.stage x a) (s.setChild x .ended) [.silent]

theorem stageStep_move (hc : s.child x = some c) {a : StageAction}
    (h : stageStep cap s x c a = some (s', ev)) : PipeMove cap s (.stage x a) s' ev := by
  have hcall : (callStep c a).map (fun c' => (s.setChild x c', [PipeEvent.silent])) =
      some (s', ev) → PipeMove cap s (.stage x a) s' ev := by
    intro h
    obtain ⟨c', hc', heq⟩ := Option.map_eq_some_iff.mp h
    obtain ⟨rfl, rfl⟩ := Prod.mk.inj heq
    exact .calls x c c' a hc hc'
  match a with
  | .closeOther | .dup | .closeOwn | .exec true => exact hcall h
  | .exec false =>
    obtain ⟨hpc, heq⟩ := Option.ite_none_right_eq_some.mp h
    obtain ⟨rfl, rfl⟩ := Prod.mk.inj (Option.some.inj heq)
    exact .notRun x c hc hpc
  | .write n =>
    obtain ⟨⟨rfl, hpc, -, -, hpos, hn, hcap⟩, heq⟩ := Option.ite_none_right_eq_some.mp h
    obtain ⟨rfl, rfl⟩ := Prod.mk.inj (Option.some.inj heq)
    exact .wrote c n hc hpc hpos hn hcap
  | .sigpipe =>
    obtain ⟨⟨rfl, hpc, -, hno, -⟩, heq⟩ := Option.ite_none_right_eq_some.mp h
    obtain ⟨rfl, rfl⟩ := Prod.mk.inj (Option.some.inj heq)
    exact .killed c hc hpc hno
  | .read n =>
    obtain ⟨⟨rfl, hpc, -, hpos, hn⟩, heq⟩ := Option.ite_none_right_eq_some.mp h
    obtain ⟨rfl, rfl⟩ := Prod.mk.inj (Option.some.inj heq)
    exact .got c n hc hpc hpos hn
  | .eof =>
    obtain ⟨⟨rfl, hpc, -, hempty, hno⟩, heq⟩ := Option.ite_none_right_eq_some.mp h
    obtain ⟨rfl, rfl⟩ := Prod.mk.inj (Option.some.inj heq)
    exact .eof c hc hpc hempty hno
  | .quit =>
    obtain ⟨⟨rfl, hpc⟩, heq⟩ := Option.ite_none_right_eq_some.mp h
    obtain ⟨rfl, rfl⟩ := Prod.mk.inj (Option.some.inj heq)
    exact .over .right c .quit hc (.inr hpc) fun h => absurd h (by decide)
  | .exit =>
    obtain ⟨hpc, heq⟩ := Option.ite_none_right_eq_some.mp h
    obtain ⟨rfl, rfl⟩ := Prod.mk.inj (Option.some.inj heq)
    rcases hpc with ⟨rfl, hpc⟩ | ⟨rfl, hpc, htodo⟩
    · exact .over .right c .exit hc (.inl hpc) fun h => absurd h (by decide)
    · exact .over .left c .exit hc (.inr hpc) fun _ => htodo

theorem pipeStep_move (h : pipeStep cap s a = some (s', ev)) : PipeMove cap s a s' ev := by
  match a with
  | .pipe ok =>
    obtain ⟨hpc, heq⟩ := Option.ite_none_right_eq_some.mp h
    obtain ⟨rfl, rfl⟩ := Prod.mk.inj (Option.some.inj heq)
    rcases ok with _ | _
    · exact .noPipe hpc
    · exact .piped hpc
  | .fork ok =>
    simp only [pipeStep] at h
    split at h
    · rename_i x hpc
      rcases ok with _ | _ <;> obtain ⟨rfl, rfl⟩ := Prod.mk.inj (Option.some.inj h)
      · exact .noFork x hpc
      · exact .forked x hpc
    · exact absurd h (by simp)
  | .close =>
    simp only [pipeStep] at h
    split at h
    · rename_i x hpc
      obtain ⟨rfl, rfl⟩ := Prod.mk.inj (Option.some.inj h)
      exact .closed x hpc
    · exact absurd h (by simp)
  | .wait r =>
    simp only [pipeStep] at h
    split at h
    · rename_i last hpc
      obtain ⟨hr, heq⟩ := Option.ite_none_right_eq_some.mp h
      obtain ⟨rfl, rfl⟩ := Prod.mk.inj (Option.some.inj heq)
      exact .waited r last hpc hr
    · exact absurd h (by simp)
  | .waitEarly =>
    simp only [pipeStep] at h
    split at h
    · rename_i last hpc
      obtain ⟨rfl, rfl⟩ := Prod.mk.inj (Option.some.inj h)
      exact .waitedEarly last hpc
    · exact absurd h (by simp)
  | .stage x a =>
    simp only [pipeStep] at h
    split at h
    · exact stageStep_move ‹_› h
    · exact absurd h (by simp)

/-! ## 2. Who holds which end -/

/-- The ends that the shell holds, by where it stands. -/
def ShellPc.fd : ShellPc → Side → Bool
  | .fork _, _ | .close .right, _ | .close .left, .left => true
  | _, _ => false

/-- The shell has called `fork` for this side. -/
def ShellPc.forked : ShellPc → Side → Bool
  | .fork .right, .left | .close _, _ | .wait _, _ => true
  | .prompt piped, _ => piped
  | _, _ => false

/-- A child, by where it stands. -/
def StagePc.child : StagePc → PipeChild
  | .closeOther => ⟨.closeOther, true, true, false⟩
  | .dup => ⟨.dup, true, false, false⟩
  | .closeOwn => ⟨.closeOwn, true, false, true⟩
  | .exec => ⟨.exec, false, false, true⟩
  | .run => ⟨.run, false, false, true⟩
  | .exit => ⟨.exit, false, false, true⟩
  | .ended => .ended
  | .collected => ⟨.collected, false, false, false⟩

def StagePc.over : StagePc → Bool
  | .ended | .collected => true
  | _ => false

/-- The child has not come to its program. -/
def StagePc.early : StagePc → Bool
  | .closeOther | .dup | .closeOwn | .exec => true
  | _ => false

/-- Whom the shell has already waited for, unless a `wait` has returned early. -/
def ShellPc.Waited (gone : Side → Bool) : ShellPc → Prop
  | .wait true => ∃ x, gone x = true
  | .prompt _ => ∀ x, gone x = true
  | _ => True

/-- Everybody holds what belongs to where he stands, and a child is there only if it was forked.
The end of the data is for the right one. -/
structure Wired (s : PipeLine) : Prop where
  fd : s.fd = s.shell.fd
  child : ∀ x c, s.child x = some c → c = c.pc.child
  exit : ∀ x c, s.child x = some c → c.pc = .exit → x = .right
  forked : ∀ x, s.child x ≠ none → s.shell.forked x = true

@[simp] theorem child_pc (pc : StagePc) : pc.child.pc = pc := by
  rcases pc <;> rfl

@[simp] theorem setChild_self (s : PipeLine) (x : Side) (c : PipeChild) :
    (s.setChild x c).child x = some c := by
  simp [PipeLine.setChild]

theorem setChild_of_ne (s : PipeLine) {x y : Side} (h : y ≠ x) (c : PipeChild) :
    (s.setChild x c).child y = s.child y := by
  simp [PipeLine.setChild, h]

/-- A child goes on. -/
theorem Wired.setChild (h : Wired s) (hc : s.child x = some c) (pc : StagePc)
    (hexit : pc = .exit → x = .right) : Wired (s.setChild x pc.child) := by
  refine ⟨h.fd, fun y d hd => ?_, fun y d hd hy => ?_, fun y hy => ?_⟩
  · by_cases hyx : y = x
    · subst hyx
      obtain rfl : pc.child = d := by simpa using hd
      rw [child_pc]
    · exact h.child y d (by rwa [setChild_of_ne _ hyx] at hd)
  · by_cases hyx : y = x
    · subst hyx
      obtain rfl : pc.child = d := by simpa using hd
      exact hexit ((child_pc pc).symm.trans hy)
    · exact h.exit y d (by rwa [setChild_of_ne _ hyx] at hd) hy
  · by_cases hyx : y = x
    · subst hyx
      exact h.forked y (by rw [hc]; simp)
    · exact h.forked y (by rwa [setChild_of_ne _ hyx] at hy)

/-- How many steps a child has still to take, other than for the data. -/
def StagePc.left : StagePc → Nat
  | .closeOther => 6
  | .dup => 5
  | .closeOwn => 4
  | .exec => 3
  | .run => 2
  | .exit => 1
  | .ended | .collected => 0

/-- The calls of a child lead it to its program. -/
theorem callStep_child {pc : StagePc} {a : StageAction} (h : callStep pc.child a = some c') :
    ∃ pc' : StagePc, c' = pc'.child ∧ pc.early = true ∧ (pc'.early = true ∨ pc' = .run) ∧
      pc'.left + 1 = pc.left := by
  unfold callStep at h
  split at h
  · obtain ⟨hpc, heq⟩ := Option.ite_none_right_eq_some.mp h
    obtain rfl := Option.some.inj heq
    obtain rfl : pc = .closeOther := (child_pc pc).symm.trans hpc
    exact ⟨.dup, rfl, rfl, .inl rfl, rfl⟩
  · obtain ⟨hpc, heq⟩ := Option.ite_none_right_eq_some.mp h
    obtain rfl := Option.some.inj heq
    obtain rfl : pc = .dup := (child_pc pc).symm.trans hpc
    exact ⟨.closeOwn, rfl, rfl, .inl rfl, rfl⟩
  · obtain ⟨hpc, heq⟩ := Option.ite_none_right_eq_some.mp h
    obtain rfl := Option.some.inj heq
    obtain rfl : pc = .closeOwn := (child_pc pc).symm.trans hpc
    exact ⟨.exec, rfl, rfl, .inl rfl, rfl⟩
  · obtain ⟨hpc, heq⟩ := Option.ite_none_right_eq_some.mp h
    obtain rfl := Option.some.inj heq
    obtain rfl : pc = .exec := (child_pc pc).symm.trans hpc
    exact ⟨.run, rfl, rfl, .inr rfl, rfl⟩
  · exact absurd h (by simp)

/-- The shell goes on. -/
theorem Wired.shell (h : Wired s) {pc : ShellPc} {fd : Side → Bool} (hfd : fd = pc.fd)
    (hforked : ∀ x, s.shell.forked x = true → pc.forked x = true) :
    Wired { s with shell := pc, fd := fd } :=
  ⟨hfd, h.child, h.exit, fun x hx => hforked x (h.forked x hx)⟩

/-- A `wait` collects a child that has ended. -/
theorem exists_of_collects (h : s.Collects (some x)) : ∃ c, s.child x = some c ∧ c.pc = .ended := by
  simpa [PipeLine.Collects, Option.any_eq_true_iff_get, Option.eq_some_iff_get_eq] using h

/-- A `wait` of the shell is over. -/
theorem Wired.wait (h : Wired s) {last : Bool} (hpc : s.shell = .wait last) :
    Wired { s with shell := if last then .prompt true else .wait true } := by
  refine h.shell ?_ fun x _ => ?_
  · rw [h.fd, hpc]
    rcases last <;> rfl
  · rcases last <;> rfl

/-- A child is waited for. -/
theorem Wired.collect (h : Wired s) {last : Bool} (hpc : s.shell = .wait last)
    {r : Option Side} (hr : s.Collects r) :
    Wired { s.collect r with shell := if last then .prompt true else .wait true } := by
  match r, hr with
  | none, _ => exact h.wait hpc
  | some x, hr =>
    obtain ⟨c, hc, -⟩ := exists_of_collects hr
    exact (h.setChild hc .collected (by simp)).wait hpc

theorem Wired.step (h : Wired s) (hm : PipeMove cap s a s' ev) : Wired s' := by
  rcases hm with hpc | hpc | ⟨x, hpc⟩ | ⟨x, hpc⟩ | ⟨x, hpc⟩ | ⟨r, last, hpc, hr⟩ | ⟨last, hpc⟩ |
    ⟨x, c, c', a, hc, hcall⟩ | ⟨x, c, hc, hpc⟩ | ⟨c, n, hc, hpc, hpos, hn, hcap⟩ |
    ⟨c, hc, hpc, hno⟩ | ⟨c, n, hc, hpc, hpos, hn⟩ | ⟨c, hc, hpc, hempty, hno⟩ |
    ⟨x, c, a, hc, hpc, htodo⟩
  · refine h.shell (by funext x; rfl) fun x hx => ?_
    rw [hpc] at hx
    exact absurd hx (by rcases x <;> decide)
  · refine h.shell (by rw [h.fd, hpc]; rfl) fun x hx => ?_
    rw [hpc] at hx
    exact absurd hx (by rcases x <;> decide)
  · have hfd : s.fd = fun _ => true := by
      rw [h.fd, hpc]
      rfl
    refine ⟨?_, fun y d hd => ?_, fun y d hd hy => ?_, fun y hy => ?_⟩
    · change s.fd = _
      rw [hfd]
      funext y
      rcases x <;> rcases y <;> rfl
    · by_cases hyx : y = x
      · subst hyx
        obtain rfl := Option.some.inj ((setChild_self _ y _).symm.trans hd)
        simp only [hfd]
        rfl
      · exact h.child y d ((setChild_of_ne _ hyx _).symm.trans hd)
    · by_cases hyx : y = x
      · subst hyx
        obtain rfl := Option.some.inj ((setChild_self _ y _).symm.trans hd)
        exact absurd hy (by simp)
      · exact h.exit y d ((setChild_of_ne _ hyx _).symm.trans hd) hy
    · by_cases hyx : y = x
      · subst hyx
        rcases y <;> rfl
      · have hforked := h.forked y fun hno => hy ((setChild_of_ne _ hyx _).trans hno)
        rw [hpc] at hforked
        rcases x <;> rcases y <;> first | rfl | exact hforked
  · refine h.shell ?_ fun y hy => ?_
    · rw [h.fd, hpc]
      rcases x <;> rfl
    · rw [hpc] at hy
      rcases x <;> rcases y <;> first | rfl | exact hy
  · refine h.shell ?_ fun y _ => by rcases x <;> rcases y <;> rfl
    rw [h.fd, hpc]
    funext y
    rcases x <;> rcases y <;> rfl
  · exact h.collect hpc hr
  · exact h.wait hpc
  · rw [h.child x c hc] at hcall
    obtain ⟨pc', rfl, -, hnext, -⟩ := callStep_child hcall
    refine h.setChild hc pc' fun hexit => ?_
    rw [hexit] at hnext
    exact absurd hnext (by decide)
  · exact h.setChild hc .ended (by simp)
  · exact ⟨h.fd, h.child, h.exit, h.forked⟩
  · exact h.setChild hc .ended (by simp)
  · exact ⟨h.fd, h.child, h.exit, h.forked⟩
  · have hexit := h.setChild hc .exit fun _ => rfl
    rw [h.child _ c hc, hpc]
    exact hexit
  · exact h.setChild hc .ended (by simp)

/-- A child that has not been collected goes on, and those that have been stay so. -/
theorem waited_setChild (h : s.shell.Waited s.gone) (hc : s.child x = some c)
    (hpc : c.pc ≠ .collected) (c' : PipeChild) : s.shell.Waited (s.setChild x c').gone := by
  have hgone : ∀ y, s.gone y = true → (s.setChild x c').gone y = true := by
    intro y hy
    by_cases hyx : y = x
    · subst hyx
      rw [PipeLine.gone, hc] at hy
      exact absurd (by simpa using hy) hpc
    · rwa [PipeLine.gone, setChild_of_ne _ hyx]
  unfold ShellPc.Waited at h ⊢
  split at h
  · obtain ⟨y, hy⟩ := h
    exact ⟨y, hgone y hy⟩
  · exact fun y => hgone y (h y)
  · trivial

/-- A `wait` that does not return early collects a child if there is one. -/
theorem waited_collect {last : Bool} (h : (ShellPc.wait last).Waited s.gone) {r : Option Side}
    (hr : s.Collects r) :
    (if last then ShellPc.prompt true else .wait true).Waited (s.collect r).gone := by
  match r, hr with
  | none, ⟨hleft, hright⟩ =>
    rcases last
    · exact ⟨.left, hleft⟩
    · exact fun x => by rcases x <;> assumption
  | some x, hr =>
    obtain ⟨c, hc, hended⟩ := exists_of_collects hr
    have hgone : (s.collect (some x)).gone x = true := by
      rw [PipeLine.gone, PipeLine.collect, setChild_self]
      rfl
    rcases last
    · exact ⟨x, hgone⟩
    · -- the one who was waited for before is the other one
      obtain ⟨y, hy⟩ := h
      have hyx : y ≠ x := by
        rintro rfl
        simp [PipeLine.gone, hc, hended] at hy
      intro z
      by_cases hzx : z = x
      · rw [hzx]
        exact hgone
      · obtain rfl : z = y := by
          rcases x <;> rcases y <;> rcases z <;> simp_all
        rwa [PipeLine.gone, PipeLine.collect, setChild_of_ne _ hzx]

theorem Wired.waited_step (h : Wired s) (hw : s.shell.Waited s.gone)
    (hm : PipeMove cap s a s' ev) (hev : .early ∉ ev) : s'.shell.Waited s'.gone := by
  rcases hm with hpc | hpc | ⟨x, hpc⟩ | ⟨x, hpc⟩ | ⟨x, hpc⟩ | ⟨r, last, hpc, hr⟩ | ⟨last, hpc⟩ |
    ⟨x, c, c', a, hc, hcall⟩ | ⟨x, c, hc, hpc⟩ | ⟨c, n, hc, hpc, hpos, hn, hcap⟩ |
    ⟨c, hc, hpc, hno⟩ | ⟨c, n, hc, hpc, hpos, hn⟩ | ⟨c, hc, hpc, hempty, hno⟩ |
    ⟨x, c, a, hc, hpc, htodo⟩
  · trivial
  · intro x
    have hnone : s.child x = none := by
      by_contra hx
      have hforked := h.forked x hx
      rw [hpc] at hforked
      exact absurd hforked (by rcases x <;> decide)
    simp [PipeLine.gone, hnone]
  · rcases x <;> trivial
  · rcases x <;> trivial
  · rcases x <;> trivial
  · rw [hpc] at hw
    exact waited_collect hw hr
  · exact absurd List.mem_cons_self hev
  · refine waited_setChild hw hc (fun hpc => ?_) _
    rw [h.child x c hc] at hcall
    obtain ⟨-, -, hearly, -⟩ := callStep_child hcall
    rw [hpc] at hearly
    exact absurd hearly (by decide)
  · exact waited_setChild hw hc (by simp [hpc]) _
  · exact hw
  · exact waited_setChild hw hc (by simp [hpc]) _
  · exact hw
  · exact waited_setChild hw hc (by simp [hpc]) _
  · exact waited_setChild hw hc (by rcases hpc with hpc | hpc <;> simp [hpc]) _

/-! ## 3. The program of `main` -/

/-- The program `p` can make some calls and go on as `p'`. -/
def Follows : Main After → Main After → Prop :=
  Relation.ReflTransGen fun p p' => ∃ c k, p = Prog.call c k ∧ ∃ r, k r = p'

/-- The rest of the program of `main` at each place of the shell, for the descriptors `rd` and
`wr` of the pipe and the commands `l` and `r`. -/
def ShellPc.program (rd wr : Fd) (l r : List Bytes) : ShellPc → Main After
  | .pipe => pipeline l r
  | .fork .left => do
    match ← call .fork with
    | .child => stage wr rd 1 l
    | _ => rightStage rd wr r
  | .fork .right => rightStage rd wr r
  | .close .right => do
    call (.close (some rd))
    call (.close (some wr))
    call .wait
    call .wait
    pure .prompt
  | .close .left => do
    call (.close (some wr))
    call .wait
    call .wait
    pure .prompt
  | .wait false => do
    call .wait
    call .wait
    pure .prompt
  | .wait true => do
    call .wait
    pure .prompt
  | .prompt _ => pure .prompt

/-- The rest of the program of a child. -/
def StagePc.program (own other std : Fd) (args : List Bytes) : StagePc → Main After
  | .closeOther => stage own other std args
  | .dup => do
    call (.dup2 (some own) std)
    call (.close (some own))
    let _ ← call (.execvp args)
    pure .gone
  | .closeOwn => do
    call (.close (some own))
    let _ ← call (.execvp args)
    pure .gone
  | .exec => do
    let _ ← call (.execvp args)
    pure .gone
  | _ => pure .gone

/-- The same by the side. -/
def Side.program (rd wr : Fd) (l r : List Bytes) (pc : StagePc) : Side → Main After
  | .left => pc.program wr rd 1 l
  | .right => pc.program rd wr 0 r

section

variable {rd wr : Fd} {l r : List Bytes}

theorem follows_call (c : MainCall) {k : c.Result → Main After} (v : c.Result) :
    Follows (Prog.call c k) (k v) :=
  .single ⟨c, k, rfl, v, rfl⟩

theorem callStep_follows (own other std : Fd) (args : List Bytes) {a : StageAction}
    (h : callStep c a = some c') :
    Follows (c.pc.program own other std args) (c'.pc.program own other std args) := by
  unfold callStep at h
  split at h
  · obtain ⟨hpc, heq⟩ := Option.ite_none_right_eq_some.mp h
    obtain rfl := Option.some.inj heq
    rw [hpc]
    exact follows_call (.close (some other)) ()
  · obtain ⟨hpc, heq⟩ := Option.ite_none_right_eq_some.mp h
    obtain rfl := Option.some.inj heq
    rw [hpc]
    exact follows_call (.dup2 (some own) std) ()
  · obtain ⟨hpc, heq⟩ := Option.ite_none_right_eq_some.mp h
    obtain rfl := Option.some.inj heq
    rw [hpc]
    exact follows_call (.close (some own)) ()
  · obtain ⟨hpc, heq⟩ := Option.ite_none_right_eq_some.mp h
    obtain rfl := Option.some.inj heq
    rw [hpc]
    exact follows_call (.execvp args) true
  · exact absurd h (by simp)

/-- What one child does follows its program. -/
theorem follows_setChild (hc : s.child x = some c)
    (h : Follows (x.program rd wr l r c.pc) (x.program rd wr l r c'.pc)) {d' : PipeChild}
    (hd : (s.setChild x c').child y = some d') :
    ∃ d, s.child y = some d ∧ Follows (y.program rd wr l r d.pc) (y.program rd wr l r d'.pc) := by
  by_cases hyx : y = x
  · subst hyx
    obtain rfl := Option.some.inj ((setChild_self _ y _).symm.trans hd)
    exact ⟨c, hc, h⟩
  · exact ⟨d', (setChild_of_ne _ hyx _).symm.trans hd, .refl⟩

/-- The processes do what the program of `main` says: each step takes the shell, and each child,
along its rest of the program, and a new child starts at the `fork` of the shell. -/
theorem PipeMove.follows (hm : PipeMove cap s a s' ev) :
    Follows (s.shell.program rd wr l r) (s'.shell.program rd wr l r) ∧
    ∀ y d', s'.child y = some d' →
      (∃ d, s.child y = some d ∧
        Follows (y.program rd wr l r d.pc) (y.program rd wr l r d'.pc)) ∨
      Follows (s.shell.program rd wr l r) (y.program rd wr l r d'.pc) := by
  rcases hm with hpc | hpc | ⟨x, hpc⟩ | ⟨x, hpc⟩ | ⟨x, hpc⟩ | ⟨v, last, hpc, hr⟩ | ⟨last, hpc⟩ |
    ⟨x, c, c', a, hc, hcall⟩ | ⟨x, c, hc, hpc⟩ | ⟨c, n, hc, hpc, hpos, hn, hcap⟩ |
    ⟨c, hc, hpc, hno⟩ | ⟨c, n, hc, hpc, hpos, hn⟩ | ⟨c, hc, hpc, hempty, hno⟩ |
    ⟨x, c, a, hc, hpc, htodo⟩
  · refine ⟨?_, fun y d' hd => .inl ⟨d', hd, .refl⟩⟩
    rw [hpc]
    exact follows_call .pipe (some (rd, wr))
  · refine ⟨?_, fun y d' hd => .inl ⟨d', hd, .refl⟩⟩
    rw [hpc]
    exact (follows_call .pipe none).trans (follows_call (.perror _) ())
  · rw [hpc]
    refine ⟨?_, fun y d' hd => ?_⟩
    · rcases x
      · exact follows_call .fork (.parent 0)
      · exact follows_call .fork (.parent 0)
    · by_cases hyx : y = x
      · subst hyx
        obtain rfl := Option.some.inj ((setChild_self _ y _).symm.trans hd)
        refine .inr ?_
        rcases y
        · exact follows_call .fork .child
        · exact follows_call .fork .child
      · exact .inl ⟨d', (setChild_of_ne _ hyx _).symm.trans hd, .refl⟩
  · refine ⟨?_, fun y d' hd => .inl ⟨d', hd, .refl⟩⟩
    rw [hpc]
    rcases x
    · exact follows_call .fork .failed
    · exact follows_call .fork .failed
  · refine ⟨?_, fun y d' hd => .inl ⟨d', hd, .refl⟩⟩
    rw [hpc]
    rcases x
    · exact follows_call (.close (some wr)) ()
    · exact follows_call (.close (some rd)) ()
  · refine ⟨?_, fun y d' hd => .inl ?_⟩
    · rw [hpc]
      rcases last
      · exact follows_call .wait ()
      · exact follows_call .wait ()
    · rcases v with _ | x
      · exact ⟨d', hd, .refl⟩
      · obtain ⟨c, hc, hended⟩ := exists_of_collects hr
        refine follows_setChild hc ?_ hd
        rw [hended]
        rcases x <;> exact .refl
  · refine ⟨?_, fun y d' hd => .inl ⟨d', hd, .refl⟩⟩
    rw [hpc]
    rcases last
    · exact follows_call .wait ()
    · exact follows_call .wait ()
  · refine ⟨.refl, fun y d' hd => .inl (follows_setChild hc ?_ hd)⟩
    rcases x
    · exact callStep_follows wr rd 1 l hcall
    · exact callStep_follows rd wr 0 r hcall
  · refine ⟨.refl, fun y d' hd => .inl (follows_setChild hc ?_ hd)⟩
    rw [hpc]
    rcases x
    · exact follows_call (.execvp l) false
    · exact follows_call (.execvp r) false
  · exact ⟨.refl, fun y d' hd => .inl ⟨d', hd, .refl⟩⟩
  · refine ⟨.refl, fun y d' hd => .inl (follows_setChild hc ?_ hd)⟩
    rw [hpc]
    exact .refl
  · exact ⟨.refl, fun y d' hd => .inl ⟨d', hd, .refl⟩⟩
  · refine ⟨.refl, fun y d' hd => .inl (follows_setChild hc ?_ hd)⟩
    rw [hpc]
    exact .refl
  · refine ⟨.refl, fun y d' hd => .inl (follows_setChild hc ?_ hd)⟩
    rcases hpc with hpc | hpc <;> rw [hpc] <;> rcases x <;> exact .refl

end

end PosixLab.Shell
