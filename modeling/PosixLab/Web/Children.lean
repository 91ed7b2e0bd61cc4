/-
# The children of the web server

`main` of `cgiserver.c` forks a child for every connection and never waits for it.  The handler
`read_childproc` does, once for every time it is entered, while signals are not counted: a
`SIGCHLD` that comes while one is pending is lost in it.  The machine has the loop of `main`,
the handler, the pending bit and the children, and interleaves them in any order.

`zombies_eq_merged` says what the handler leaves behind: one zombie for each exit whose signal
was merged with another one, for ever.
-/
import PosixLab.Basis.Runs

namespace PosixLab.Web

open PosixLab

/-! ## 1. The machine -/

/-- Where `main` stands in its loop, named after the call it makes next. -/
inductive MainPc
  | accept
  | fork
  | close
deriving DecidableEq

/-- Where `read_childproc` stands.  `SIGCHLD` is blocked while it runs, and `main` does not
go on. -/
inductive HandlerPc
  | idle
  | entered
  | collected
deriving DecidableEq

/-- The server process, and its children. -/
structure ChildServer where
  main : MainPc
  handler : HandlerPc
  pending : Bool
  live : List Nat
  zombies : List Nat

/-- The server at the top of its loop, with no children. -/
def ChildServer.init : ChildServer := ⟨.accept, .idle, false, [], []⟩

/-- No `SIGCHLD` is pending and the handler is not running. -/
def ChildServer.Quiet (s : ChildServer) : Prop := s.pending = false ∧ s.handler = .idle

instance : DecidablePred ChildServer.Quiet := fun _ => inferInstanceAs (Decidable (_ ∧ _))

/-- A step of the server, of a child, or of the kernel, with what a call returns. -/
inductive ChildAction
  | accept (clntSock : Int)
  /-- `none` where `fork` fails -/
  | fork (pid : Option Nat)
  | close
  | exit (pid : Nat)
  | deliver
  /-- `none` where no child has terminated -/
  | waitpid (pid : Option Nat)
  | ret

/-- A child has terminated; `merged` if its signal is lost in one that is pending. -/
inductive ChildEvent
  | exit (pid : Nat) (merged : Bool)
deriving DecidableEq

/-- One step. -/
def childStep (s : ChildServer) : ChildAction → Option (ChildServer × List ChildEvent)
  | .accept clntSock =>
    if s.handler = .idle ∧ s.main = .accept then
      some ({ s with main := if clntSock = -1 then .accept else .fork }, [])
    else none
  | .fork none =>
    if s.handler = .idle ∧ s.main = .fork then some ({ s with main := .close }, []) else none
  | .fork (some pid) =>
    if s.handler = .idle ∧ s.main = .fork ∧ pid ∉ s.live ∧ pid ∉ s.zombies then
      some ({ s with main := .close, live := pid :: s.live }, [])
    else none
  | .close =>
    if s.handler = .idle ∧ s.main = .close then some ({ s with main := .accept }, []) else none
  | .exit pid =>
    if pid ∈ s.live then
      some ({ s with live := s.live.erase pid, zombies := pid :: s.zombies, pending := true },
        [.exit pid s.pending])
    else none
  | .deliver =>
    if s.handler = .idle ∧ s.pending = true then
      some ({ s with handler := .entered, pending := false }, [])
    else none
  | .waitpid none =>
    if s.handler = .entered ∧ s.zombies = [] then some ({ s with handler := .collected }, [])
    else none
  | .waitpid (some pid) =>
    if s.handler = .entered ∧ pid ∈ s.zombies then
      some ({ s with handler := .collected, zombies := s.zombies.erase pid }, [])
    else none
  | .ret =>
    if s.handler = .collected then some ({ s with handler := .idle }, []) else none

/-! ## 2. What is left behind -/

/-- The number of exits whose signal was merged with a pending one. -/
def mergedExits (log : List ChildEvent) : Nat := log.countP fun | .exit _ merged => merged

theorem mergedExits_eq_zero {log : List ChildEvent} :
    mergedExits log = 0 ↔ ∀ pid, .exit pid true ∉ log := by
  rw [mergedExits, List.countP_eq_zero]
  constructor
  · intro h pid hpid
    exact h _ hpid rfl
  · rintro h ⟨pid, merged⟩ hpid rfl
    exact h pid hpid

/-- Every zombie has its signal still to come, is about to be collected, or lost its signal. -/
def Accounted (log : List ChildEvent) (s : ChildServer) : Prop :=
  s.zombies.length =
    mergedExits log + s.pending.toNat + if s.handler = .entered then 1 else 0

/-- Each step, with its guard and its effect. -/
inductive ChildMove (s : ChildServer) : ChildAction → ChildServer → List ChildEvent → Prop
  | accept (clntSock : Int) (hmain : s.handler = .idle ∧ s.main = .accept) :
      ChildMove s (.accept clntSock)
        { s with main := if clntSock = -1 then .accept else .fork } []
  | forkFails (hmain : s.handler = .idle ∧ s.main = .fork) :
      ChildMove s (.fork none) { s with main := .close } []
  | fork (pid : Nat)
      (hmain : s.handler = .idle ∧ s.main = .fork ∧ pid ∉ s.live ∧ pid ∉ s.zombies) :
      ChildMove s (.fork (some pid)) { s with main := .close, live := pid :: s.live } []
  | close (hmain : s.handler = .idle ∧ s.main = .close) :
      ChildMove s .close { s with main := .accept } []
  | exit (pid : Nat) (hpid : pid ∈ s.live) :
      ChildMove s (.exit pid)
        { s with live := s.live.erase pid, zombies := pid :: s.zombies, pending := true }
        [.exit pid s.pending]
  | deliver (hidle : s.handler = .idle) (hpending : s.pending = true) :
      ChildMove s .deliver { s with handler := .entered, pending := false } []
  | nothing (henter : s.handler = .entered) (hnone : s.zombies = []) :
      ChildMove s (.waitpid none) { s with handler := .collected } []
  | collect (pid : Nat) (henter : s.handler = .entered) (hpid : pid ∈ s.zombies) :
      ChildMove s (.waitpid (some pid))
        { s with handler := .collected, zombies := s.zombies.erase pid } []
  | ret (hcoll : s.handler = .collected) : ChildMove s .ret { s with handler := .idle } []

section

variable {log ev : List ChildEvent} {s s' : ChildServer} {a : ChildAction}

theorem childStep_move (h : childStep s a = some (s', ev)) : ChildMove s a s' ev := by
  unfold childStep at h
  split at h <;>
    simp only [Option.ite_none_right_eq_some, Option.some.injEq, Prod.mk.injEq] at h <;>
    obtain ⟨hguard, rfl, rfl⟩ := h
  · exact .accept _ hguard
  · exact .forkFails hguard
  · exact .fork _ hguard
  · exact .close hguard
  · exact .exit _ hguard
  · exact .deliver hguard.1 hguard.2
  · exact .nothing hguard.1 hguard.2
  · exact .collect _ hguard.1 hguard.2
  · exact .ret hguard

theorem Accounted.step (h : Accounted log s) (hm : ChildMove s a s' ev) :
    Accounted (log ++ ev) s' := by
  unfold Accounted mergedExits at h ⊢
  rw [List.countP_append]
  cases hm with
  | accept _ _ | forkFails _ | fork _ _ | close _ => exact h
  | exit pid hpid =>
    -- the exit adds a zombie, and sets the bit unless it is set
    cases hp : s.pending <;> simp [hp] at h ⊢ <;> omega
  | deliver hidle hpending =>
    simp [hidle, hpending] at h ⊢
    omega
  | nothing henter hnone => simp [henter, hnone] at h
  | collect pid henter hpid =>
    -- one zombie goes, and the handler has done its one call
    simp [henter] at h
    simp [List.length_erase_of_mem hpid]
    omega
  | ret hcoll => simpa [hcoll] using h

/-- Where no signal is pending and the handler is not running, the zombies are as many as the
exits whose signal was merged with another one. -/
theorem zombies_eq_merged (h : Runs childStep anyStep .init log s) (hq : s.Quiet) :
    s.zombies.length = mergedExits log := by
  have hacc : Accounted log s := by
    refine h.invariant (I := Accounted) rfl ?_
    intro log s a s' ev _ ih _ hs
    exact ih.step (childStep_move hs)
  simpa [Accounted, hq.1, hq.2] using hacc

/-- In every run of the server and its children, and every state of it in which no signal is
pending and the handler is not running: no zombie is left behind exactly if each exit so far
came while no other signal was pending. -/
theorem no_zombies_iff (h : Runs childStep anyStep .init log s) (hq : s.Quiet) :
    s.zombies = [] ↔ ∀ pid, .exit pid true ∉ log := by
  rw [← List.length_eq_zero_iff, zombies_eq_merged h hq, mergedExits_eq_zero]

end

/-- A child comes and goes. -/
def oneChild : List ChildAction :=
  [.accept 4, .fork (some 101), .close, .exit 101, .deliver, .waitpid (some 101), .ret]

theorem no_zombies_oneChild : ∃ log s,
    Runs childStep anyStep .init log s ∧ s.Quiet ∧ .exit 101 false ∈ log ∧
    (s.zombies = [] ↔ ∀ pid, .exit pid true ∉ log) := by
  obtain ⟨log, s, hrun, hp⟩ : ∃ log s, Runs childStep anyStep .init log s ∧
      decide (s.Quiet ∧ ChildEvent.exit 101 false ∈ log) = true :=
    exists_runs_of_exec oneChild _ (by decide)
  obtain ⟨hq, hexit⟩ := of_decide_eq_true hp
  exact ⟨log, s, hrun, hq, hexit, no_zombies_iff hrun hq⟩

/-- Two children end before the signal of the first is delivered. -/
def twoAtOnce : List ChildAction :=
  [.accept 4, .fork (some 101), .close, .accept 4, .fork (some 102), .close, .exit 101,
    .exit 102, .deliver, .waitpid (some 101), .ret]

theorem zombie_twoAtOnce : ∃ log s,
    Runs childStep anyStep .init log s ∧ s.Quiet ∧ s.zombies = [102] := by
  obtain ⟨log, s, hrun, hp⟩ : ∃ log s, Runs childStep anyStep .init log s ∧
      decide (s.Quiet ∧ s.zombies = [102]) = true :=
    exists_runs_of_exec twoAtOnce _ (by decide)
  exact ⟨log, s, hrun, of_decide_eq_true hp⟩

end PosixLab.Web
