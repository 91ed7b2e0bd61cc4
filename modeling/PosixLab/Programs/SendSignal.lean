/-
# Two processes that send each other a signal

In `sendsignal.c` a child sends `SIGUSR1` to its parent, which counts it, sleeps and sends
`SIGUSR1` back, and so on.  Both wait with `pause`, which returns only when a signal is caught
inside of it; a signal that is caught on the way there is counted as well, but `pause` then waits
for another one, and before `sigaction` a signal terminates the process.

A pending signal is a bit, so two of them would merge.  They never do, and the two counters go up
in turn (`calls_in_turn`).  What the program takes for granted is that a signal meets its receiver
inside `pause`: a delivery anywhere else is the last one.  And `act.sa_flags` is never set: if
`SA_RESETHAND` happens to be in it, the first call of a handler removes the handler, and the
exchange ends after three lines at most (`ping_pong_iff`).
-/
import PosixLab.Basis.Progress

namespace PosixLab.Programs

open PosixLab

/-! ## 1. The processes -/

inductive SigProc
  | parent
  | child
deriving DecidableEq

def SigProc.other : SigProc → SigProc
  | .parent => .child
  | .child => .parent

@[simp] theorem SigProc.other_other (t : SigProc) : t.other.other = t := by cases t <;> rfl

@[simp] theorem SigProc.other_ne (t : SigProc) : t.other ≠ t := by cases t <;> simp [SigProc.other]

theorem SigProc.eq_or_eq_other (t u : SigProc) : t = u ∨ t = u.other := by
  cases t <;> cases u <;> simp [SigProc.other]

/-- Where a process stands, named after what it does next. -/
inductive SigPc
  | sigaction
  | sleep
  | kill
  | pause
  /-- inside `pause` -/
  | paused
  /-- terminated by a signal that it had no handler for -/
  | dead
deriving DecidableEq

/-- A process: its counter `i`, whether `SIGUSR1` is pending for it, and whether it has a handler
for it. -/
structure SigState where
  pc : SigPc
  pending : Bool
  handled : Bool
  i : Nat
deriving DecidableEq

/-- Both processes. -/
abbrev SigSys := SigProc → SigState

/-- Behind `fork`. -/
def SigSys.init : SigSys := fun _ => ⟨.sigaction, false, false, 0⟩

/-- The first statement of the loop: the child sleeps, the parent waits. -/
def SigProc.loop : SigProc → SigPc
  | .parent => .pause
  | .child => .sleep

/-- A process goes on. -/
def SigSys.goto (s : SigSys) (t : SigProc) (pc : SigPc) : SigSys :=
  Function.update s t { s t with pc }

/-- `sigaction`: there is a handler from now on. -/
def SigSys.install (s : SigSys) (t : SigProc) : SigSys :=
  Function.update s t { s t with pc := t.loop, handled := true }

/-- `kill`: the signal becomes pending, if there is a process to receive it. -/
def SigSys.send (s : SigSys) (t : SigProc) : SigSys :=
  if (s t).pc = .dead then s else Function.update s t { s t with pending := true }

/-- A handler runs in a process that stands at `pc`: `pause` returns then, and `sleep` does. -/
def SigPc.interrupted : SigPc → SigPc
  | .paused => .sleep
  | .sleep => .kill
  | pc => pc

/-- The next statement of a process, or the delivery of a signal to it. -/
inductive SigAction
  | run (t : SigProc)
  | deliver (t : SigProc)
deriving DecidableEq

/-- The line of a handler with the number in it, or a statement that prints nothing. -/
inductive SigEvent
  | call (t : SigProc) (n : Nat)
  | silent (t : SigProc)
deriving DecidableEq

/-- One step.  `reset t` says whether `SA_RESETHAND` is in the uninitialised `sa_flags` of `t`: a
handler that is called is gone then. -/
def sigStep (reset : SigProc → Bool) (s : SigSys) : SigAction → Option (SigSys × List SigEvent)
  | .run t =>
    match (s t).pc with
    | .sigaction => some (s.install t, [.silent t])
    | .sleep => some (s.goto t .kill, [.silent t])
    | .kill => some ((s.goto t .pause).send t.other, [.silent t])
    | .pause => some (s.goto t .paused, [.silent t])
    | .paused | .dead => none
  | .deliver t =>
    if (s t).pending = true then
      if (s t).handled = true then
        some (Function.update s t ⟨(s t).pc.interrupted, false, !reset t, (s t).i + 1⟩,
          [.call t ((s t).i + 1)])
      else some (Function.update s t ⟨.dead, false, false, (s t).i⟩, [.silent t])
    else none

/-- The lines of the handlers, in order. -/
def SigEvent.line : SigEvent → Option (SigProc × Nat)
  | .call t n => some (t, n)
  | .silent _ => none

def calls (log : List SigEvent) : List (SigProc × Nat) := log.filterMap SigEvent.line

/-- The line number `k`, when the parent has the first one. -/
def callOf (k : Nat) : SigProc × Nat := (turnOf .parent .child k, k / 2 + 1)

theorem calls_append (log ev : List SigEvent) : calls (log ++ ev) = calls log ++ calls ev :=
  List.filterMap_append

/-- What a step can do. -/
inductive SigMove (reset : SigProc → Bool) (s : SigSys) : SigAction → SigSys → List SigEvent → Prop
  | sigaction (t : SigProc) (hpc : (s t).pc = .sigaction) :
      SigMove reset s (.run t) (s.install t) [.silent t]
  | sleep (t : SigProc) (hpc : (s t).pc = .sleep) :
      SigMove reset s (.run t) (s.goto t .kill) [.silent t]
  | kill (t : SigProc) (hpc : (s t).pc = .kill) :
      SigMove reset s (.run t) ((s.goto t .pause).send t.other) [.silent t]
  | pause (t : SigProc) (hpc : (s t).pc = .pause) :
      SigMove reset s (.run t) (s.goto t .paused) [.silent t]
  | handler (t : SigProc) (hpend : (s t).pending = true) (hhandled : (s t).handled = true) :
      SigMove reset s (.deliver t)
        (Function.update s t ⟨(s t).pc.interrupted, false, !reset t, (s t).i + 1⟩)
        [.call t ((s t).i + 1)]
  | terminate (t : SigProc) (hpend : (s t).pending = true) (hhandled : (s t).handled = false) :
      SigMove reset s (.deliver t) (Function.update s t ⟨.dead, false, false, (s t).i⟩) [.silent t]

theorem sigStep_move {reset : SigProc → Bool} {s s' : SigSys} {a : SigAction} {ev : List SigEvent}
    (h : sigStep reset s a = some (s', ev)) : SigMove reset s a s' ev := by
  cases a with
  | run t =>
    simp only [sigStep] at h
    split at h
    · rename_i hpc
      cases h
      exact .sigaction t hpc
    · rename_i hpc
      cases h
      exact .sleep t hpc
    · rename_i hpc
      cases h
      exact .kill t hpc
    · rename_i hpc
      cases h
      exact .pause t hpc
    · cases h
    · cases h
  | deliver t =>
    simp only [sigStep] at h
    split at h
    · rename_i hpend
      split at h
      · rename_i hhandled
        cases h
        exact .handler t hpend hhandled
      · rename_i hhandled
        cases h
        exact .terminate t hpend (Bool.eq_false_iff.mpr hhandled)
    · cases h

/-! ## 2. What the steps keep

There is one turn to pass on: `u` is the process that has to catch the next signal.  Either the
other one has still to send it, or it is pending, or it has met its receiver too early and the
turn is lost. -/

/-- After `k` lines the turn is on its way to `u`. -/
structure Passing (k : Nat) (u : SigProc) (s : SigSys) : Prop where
  waits : (s u).pc = .sigaction ∨ (s u).pc = .pause ∨ (s u).pc = .paused
  working : (s u).pending = false →
    (s u.other).pc = .sigaction ∨ (s u.other).pc = .sleep ∨ (s u.other).pc = .kill
  sent : (s u).pending = true → (s u.other).pc = .pause ∨ (s u.other).pc = .paused
  other : (s u.other).pending = false
  fresh : ∀ t, (s t).pc = .sigaction → (s t).handled = false
  started : (s u).pc = .sigaction ∨ (s u.other).pc = .sigaction → u = .parent
  mine : (s u).i = k / 2
  theirs : (s u.other).i = (k + 1) / 2

/-- Both processes wait for a signal that nobody sends. -/
def Lost (s : SigSys) : Prop :=
  ∀ t, (s t).pending = false ∧ ((s t).pc = .pause ∨ (s t).pc = .paused ∨ (s t).pc = .dead)

/-- A signal is delivered inside `pause`. -/
def InPause (s : SigSys) : SigAction → Prop
  | .run _ => True
  | .deliver t => (s t).pc = .paused

instance (s : SigSys) : (a : SigAction) → Decidable (InPause s a)
  | .run _ => inferInstanceAs (Decidable True)
  | .deliver _ => inferInstanceAs (Decidable (_ = _))

section

variable {reset : SigProc → Bool} {s s' : SigSys} {a : SigAction} {ev : List SigEvent} {k : Nat}
  {t u : SigProc}

@[simp] theorem SigSys.goto_self (s : SigSys) (t : SigProc) (pc : SigPc) :
    s.goto t pc t = { s t with pc } := by simp [SigSys.goto]

@[simp] theorem SigSys.goto_other (s : SigSys) (t : SigProc) (pc : SigPc) :
    s.goto t pc t.other = s t.other := by simp [SigSys.goto]

@[simp] theorem SigSys.goto_other' (s : SigSys) (t : SigProc) (pc : SigPc) :
    s.goto t.other pc t = s t := Function.update_of_ne t.other_ne.symm _ _

theorem Lost.step (h : Lost s) (hm : SigMove reset s a s' ev) : Lost s' ∧ calls ev = [] := by
  cases hm with
  | pause t hpc =>
    refine ⟨fun u => ?_, rfl⟩
    obtain rfl | rfl := u.eq_or_eq_other t
    · simpa using (h u).1
    · simpa using h t.other
  | sigaction t hpc | sleep t hpc | kill t hpc =>
    have := (h t).2
    simp [hpc] at this
  | terminate t hpend hpc | handler t hpend hpc =>
    rw [(h t).1] at hpend
    cases hpend

/-- A process that is not the target of a delivery goes on, with or without a handler. -/
theorem Passing.goto (h : Passing k u s) {pc : SigPc} {b : Bool} (htu : t = u ∨ t = u.other)
    (hwaits : t = u → pc = .pause ∨ pc = .paused)
    (hworking : t = u.other → (s u).pending = false → pc = .sleep ∨ pc = .kill)
    (hsent : t = u.other → (s u).pending = true → pc = .pause ∨ pc = .paused) :
    Passing k u (Function.update s t { s t with pc, handled := b }) := by
  have hpc : pc ≠ .sigaction := by
    rintro rfl
    rcases htu with rfl | rfl
    · simpa using hwaits rfl
    · cases hpend : (s u).pending with
      | false => simpa using hworking rfl hpend
      | true => simpa using hsent rfl hpend
  have hfresh : ∀ v, (Function.update s t { s t with pc, handled := b } v).pc = .sigaction →
      (Function.update s t { s t with pc, handled := b } v).handled = false := by
    intro v hv
    by_cases hvt : v = t
    · subst hvt
      rw [Function.update_self] at hv
      exact absurd hv hpc
    · rw [Function.update_of_ne hvt] at hv ⊢
      exact h.fresh v hv
  rcases htu with rfl | rfl
  · refine ⟨?_, ?_, ?_, ?_, hfresh, ?_, ?_, ?_⟩
    · simpa using Or.inr (hwaits rfl)
    · simpa using h.working
    · simpa using h.sent
    · simpa using h.other
    · rcases hwaits rfl with rfl | rfl <;> simpa using fun hother => h.started (.inr hother)
    · simpa using h.mine
    · simpa using h.theirs
  · have hself : Function.update s u.other { s u.other with pc, handled := b } u = s u :=
      Function.update_of_ne u.other_ne.symm _ _
    refine ⟨?_, ?_, ?_, ?_, hfresh, ?_, ?_, ?_⟩
    · simpa [hself] using h.waits
    · simpa [hself] using fun hpend => Or.inr (hworking rfl hpend)
    · simpa [hself] using hsent rfl
    · simpa using h.other
    · rw [hself, Function.update_self]
      rintro (hmine | hother)
      · exact h.started (.inl hmine)
      · exact absurd hother hpc
    · simpa [hself] using h.mine
    · simpa using h.theirs

/-- The other process sends the signal. -/
theorem Passing.kill (h : Passing k u s) :
    Passing k u ((s.goto u.other .pause).send u) := by
  have halive : ((s.goto u.other .pause) u).pc ≠ .dead := by
    rw [SigSys.goto_other']
    rcases h.waits with hw | hw | hw <;> simp [hw]
  have hself : ((s.goto u.other .pause).send u) u = { s u with pending := true } := by
    rw [SigSys.send, if_neg halive, Function.update_self, SigSys.goto_other']
  have hother : ((s.goto u.other .pause).send u) u.other = { s u.other with pc := .pause } := by
    rw [SigSys.send, if_neg halive, Function.update_of_ne u.other_ne, SigSys.goto_self]
  refine ⟨?_, ?_, ?_, ?_, ?_, ?_, ?_, ?_⟩
  · simpa [hself] using h.waits
  · simp [hself]
  · simp [hother]
  · simpa [hother] using h.other
  · intro t hpc
    obtain rfl | rfl := t.eq_or_eq_other u
    · rw [hself] at hpc ⊢
      exact h.fresh t hpc
    · rw [hother] at hpc
      cases hpc
  · simpa [hself, hother] using fun hmine => h.started (.inl hmine)
  · simpa [hself] using h.mine
  · simpa [hother] using h.theirs

/-- A delivery inside `pause` ends one turn and starts the next one. -/
theorem Passing.handler (h : Passing k u s) (hpend : (s u).pending = true)
    (hpc : (s u).pc = .paused) {b : Bool} :
    Passing (k + 1) u.other
      (Function.update s u ⟨(s u).pc.interrupted, false, b, (s u).i + 1⟩) := by
  have hother : Function.update s u ⟨(s u).pc.interrupted, false, b, (s u).i + 1⟩ u.other =
      s u.other := Function.update_of_ne u.other_ne _ _
  have hsent := h.sent hpend
  rw [hpc] at hother ⊢
  refine ⟨?_, ?_, ?_, ?_, ?_, ?_, ?_, ?_⟩
  · rw [hother]
    exact .inr hsent
  · simp [SigPc.interrupted]
  · simp [h.other]
  · simp
  · intro t ht
    obtain rfl | rfl := t.eq_or_eq_other u
    · simp [SigPc.interrupted] at ht
    · rw [hother] at ht ⊢
      exact h.fresh _ ht
  · rcases hsent with hsent | hsent <;> simp [hsent, SigPc.interrupted]
  · rw [hother, h.theirs]
  · rw [SigProc.other_other, Function.update_self, h.mine]
    show k / 2 + 1 = (k + 1 + 1) / 2
    omega

/-- A delivery on the way to `pause`, or to a process without a handler, loses the turn. -/
theorem Passing.lost (h : Passing k u s) (hpend : (s u).pending = true) {pc : SigPc} {b : Bool}
    {i : Nat} (hpc : pc = .pause ∨ pc = .dead) :
    Lost (Function.update s u ⟨pc, false, b, i⟩) := by
  intro t
  obtain rfl | rfl := t.eq_or_eq_other u
  · rcases hpc with rfl | rfl <;> simp
  · rw [Function.update_of_ne u.other_ne]
    refine ⟨h.other, ?_⟩
    rcases h.sent hpend with hs | hs <;> simp [hs]

/-- Only the process whose turn it is has a signal pending. -/
theorem Passing.target (h : Passing k u s) (hpend : (s t).pending = true) : t = u := by
  obtain rfl | rfl := t.eq_or_eq_other u
  · rfl
  · rw [h.other] at hpend
    cases hpend

/-- A step that delivers nothing leaves the turn where it is. -/
theorem Passing.run (h : Passing k u s) (hm : SigMove reset s (.run t) s' ev) :
    calls ev = [] ∧ Passing k u s' := by
  have htu := t.eq_or_eq_other u
  cases hm with
  | sigaction _ hpc =>
    refine ⟨rfl, h.goto htu ?_ ?_ ?_⟩
    · rintro rfl
      rw [h.started (.inl hpc)]
      exact .inl rfl
    · rintro rfl -
      rw [h.started (.inr hpc)]
      exact .inl rfl
    · rintro rfl hpend
      rcases h.sent hpend with hs | hs <;> rw [hs] at hpc <;> cases hpc
  | sleep _ hpc =>
    refine ⟨rfl, h.goto htu ?_ (fun _ _ => .inr rfl) ?_⟩
    · rintro rfl
      rcases h.waits with hw | hw | hw <;> rw [hw] at hpc <;> cases hpc
    · rintro rfl hpend
      rcases h.sent hpend with hs | hs <;> rw [hs] at hpc <;> cases hpc
  | kill _ hpc =>
    obtain rfl | rfl := htu
    · rcases h.waits with hw | hw | hw <;> rw [hw] at hpc <;> cases hpc
    · rw [SigProc.other_other]
      exact ⟨rfl, h.kill⟩
  | pause _ hpc =>
    refine ⟨rfl, h.goto htu (fun _ => .inr rfl) ?_ (fun _ _ => .inr rfl)⟩
    rintro rfl hpend
    rcases h.working hpend with hs | hs | hs <;> rw [hs] at hpc <;> cases hpc

/-- What a step does to the turn: it stays, it is passed on inside `pause`, or it is lost. -/
theorem Passing.step (h : Passing k u s) (hm : SigMove reset s a s' ev) :
    (InPause s a ∧ calls ev = [] ∧ Passing k u s') ∨
      (InPause s a ∧ calls ev = [(u, k / 2 + 1)] ∧ Passing (k + 1) u.other s') ∨
      ((InPause s a → (s u).pc = .paused ∧ (s u).handled = false) ∧
        (calls ev = [] ∨ calls ev = [(u, k / 2 + 1)]) ∧ Lost s') := by
  cases a with
  | run t => exact .inl ⟨trivial, h.run hm⟩
  | deliver t =>
    cases hm with
    | terminate _ hpend hhandled =>
      obtain rfl := h.target hpend
      exact .inr (.inr ⟨fun hin => ⟨hin, hhandled⟩, .inl rfl, h.lost hpend (.inr rfl)⟩)
    | handler _ hpend hhandled =>
      obtain rfl := h.target hpend
      have hcall : calls [.call t ((s t).i + 1)] = [(t, k / 2 + 1)] := by rw [h.mine]; rfl
      rcases h.waits with hw | hw | hw
      · rw [h.fresh t hw] at hhandled
        cases hhandled
      · refine .inr (.inr ⟨fun hin => ?_, .inr hcall, ?_⟩)
        · rw [InPause, hw] at hin
          cases hin
        · rw [hw]
          exact h.lost hpend (.inl rfl)
      · exact .inr (.inl ⟨hw, hcall, h.handler hpend hw⟩)

end

/-! ## 3. The counters go up in turn -/

/-- What holds along a run: the lines, and where the turn is. -/
def SigKept (log : List SigEvent) (s : SigSys) : Prop :=
  ∃ k, calls log = (List.range k).map callOf ∧
    (Passing k (turnOf .parent .child k) s ∨ Lost s)

theorem passing_init : Passing 0 .parent .init := by
  constructor <;> simp [SigSys.init]

theorem turnOf_sig (k : Nat) :
    turnOf SigProc.parent .child (k + 1) = (turnOf SigProc.parent .child k).other := by
  rw [turnOf_succ]
  unfold turnOf
  split <;> rfl

theorem SigKept.step {reset : SigProc → Bool} {log ev : List SigEvent} {s s' : SigSys}
    {a : SigAction} (h : SigKept log s) (hm : SigMove reset s a s' ev) :
    SigKept (log ++ ev) s' := by
  obtain ⟨k, hlog, hs⟩ := h
  have hnone : calls ev = [] → calls (log ++ ev) = (List.range k).map callOf := fun hev => by
    rw [calls_append, hev, hlog, List.append_nil]
  have hone : calls ev = [callOf k] → calls (log ++ ev) = (List.range (k + 1)).map callOf :=
    fun hev => by rw [calls_append, hev, hlog, List.range_succ, List.map_append]; rfl
  rcases hs with hp | hl
  · rcases hp.step hm with ⟨-, hev, hp'⟩ | ⟨-, hev, hp'⟩ | ⟨-, hev | hev, hl'⟩
    · exact ⟨k, hnone hev, .inl hp'⟩
    · exact ⟨k + 1, hone hev, .inl (turnOf_sig k ▸ hp')⟩
    · exact ⟨k, hnone hev, .inr hl'⟩
    · exact ⟨k + 1, hone hev, .inr hl'⟩
  · obtain ⟨hl', hev⟩ := hl.step hm
    exact ⟨k, hnone hev, .inr hl'⟩

theorem sig_kept {reset : SigProc → Bool} {log : List SigEvent} {s : SigSys}
    (h : Runs (sigStep reset) anyStep .init log s) : SigKept log s := by
  refine h.invariant (I := SigKept) ⟨0, rfl, .inl passing_init⟩ ?_
  intro log s a s' ev _ ih _ hs
  exact ih.step (sigStep_move hs)

theorem SigKept.lines {log : List SigEvent} {s : SigSys} (h : SigKept log s) :
    calls log = (List.range (calls log).length).map callOf := by
  obtain ⟨k, hlog, -⟩ := h
  simp [hlog]

/-- A process that is about to send a signal finds none pending for the other one. -/
theorem SigKept.kill {log : List SigEvent} {s : SigSys} {t : SigProc} (h : SigKept log s)
    (hpc : (s t).pc = .kill) : (s t.other).pending = false := by
  obtain ⟨k, -, hp | hl⟩ := h
  · obtain rfl | rfl := t.eq_or_eq_other (turnOf .parent .child k)
    · exact hp.other
    · rw [SigProc.other_other]
      by_contra hpend
      rcases hp.sent (Bool.not_eq_false _ ▸ hpend) with hs | hs <;> rw [hs] at hpc <;> cases hpc
  · exact (hl t.other).1

/-- For every interleaving of the two processes, every moment at which a signal is delivered, and
whatever is in `sa_flags`: the handlers print their lines in turn, the parent's first, each counts
from 1 on, and a signal that is sent never finds another one pending. -/
theorem calls_in_turn {reset : SigProc → Bool} {log : List SigEvent} {s : SigSys}
    (h : Runs (sigStep reset) anyStep .init log s) :
    calls log = (List.range (calls log).length).map callOf ∧
      ∀ t, (s t).pc = .kill → (s t.other).pending = false :=
  ⟨(sig_kept h).lines, fun _ hpc => (sig_kept h).kill hpc⟩

/-! ## 4. The handlers

A process has no handler before `sigaction`, and with `SA_RESETHAND` none behind its first call. -/

/-- Whether a process has a handler, when `reset` says whether `SA_RESETHAND` is in its
`sa_flags`. -/
structure Armed (reset : Bool) (p : SigState) : Prop where
  before : p.pc = .sigaction → p.handled = false ∧ p.i = 0
  dead : p.pc = .dead → p.handled = false
  after : p.pc ≠ .sigaction → p.pc ≠ .dead → (p.handled = true ↔ (reset = true → p.i = 0))
  once : reset = true → p.i ≤ 1

section

variable {b : Bool} {p : SigState}

theorem Armed.goto (h : Armed b p) (hpc : p.pc ≠ .sigaction) (hdead : p.pc ≠ .dead) {pc : SigPc}
    (hpc' : pc ≠ .sigaction) (hdead' : pc ≠ .dead) : Armed b { p with pc } :=
  ⟨fun hs => absurd hs hpc', fun hs => absurd hs hdead', fun _ _ => h.after hpc hdead, h.once⟩

theorem Armed.install (h : Armed b p) (hpc : p.pc = .sigaction) (t : SigProc) :
    Armed b { p with pc := t.loop, handled := true } := by
  have hloop : t.loop ≠ .sigaction ∧ t.loop ≠ .dead := by cases t <;> decide
  exact ⟨fun hs => absurd hs hloop.1, fun hs => absurd hs hloop.2,
    fun _ _ => iff_of_true rfl fun _ => (h.before hpc).2, h.once⟩

theorem Armed.pending (h : Armed b p) (d : Bool) : Armed b { p with pending := d } :=
  ⟨h.before, h.dead, h.after, h.once⟩

theorem Armed.terminate (h : Armed b p) : Armed b ⟨.dead, false, false, p.i⟩ :=
  ⟨by simp, fun _ => rfl, fun _ hs => absurd rfl hs, h.once⟩

/-- A handler that may be removed has not been called before. -/
theorem Armed.unused (h : Armed b p) (hhandled : p.handled = true) :
    p.pc ≠ .sigaction ∧ p.pc ≠ .dead ∧ (b = true → p.i = 0) := by
  have hpc : p.pc ≠ .sigaction := fun hs => by
    rw [(h.before hs).1] at hhandled
    cases hhandled
  have hdead : p.pc ≠ .dead := fun hs => by
    rw [h.dead hs] at hhandled
    cases hhandled
  exact ⟨hpc, hdead, (h.after hpc hdead).mp hhandled⟩

theorem Armed.call (h : Armed b p) (hhandled : p.handled = true) :
    Armed b ⟨p.pc.interrupted, false, !b, p.i + 1⟩ := by
  obtain ⟨hpc, hdead, hi⟩ := h.unused hhandled
  refine ⟨fun hs => ?_, fun hs => ?_, fun _ _ => ?_, fun hb => ?_⟩
  · revert hs hpc
    cases p.pc <;> simp [SigPc.interrupted]
  · revert hs hdead
    cases p.pc <;> simp [SigPc.interrupted]
  · cases b <;> simp
  · simp [hi hb]

end

section

variable {reset : SigProc → Bool} {s s' : SigSys} {a : SigAction} {log ev : List SigEvent}
  {t : SigProc}

theorem SigMove.armed (hm : SigMove reset s a s' ev) (h : ∀ t, Armed (reset t) (s t)) :
    ∀ t, Armed (reset t) (s' t) := by
  have hput : ∀ {s : SigSys} (t : SigProc) (p : SigState), (∀ u, Armed (reset u) (s u)) →
      Armed (reset t) p → ∀ u, Armed (reset u) (Function.update s t p u) := fun t p hs hp =>
    (Function.forall_update_iff _ fun u p => Armed (reset u) p).mpr ⟨hp, fun u _ => hs u⟩
  cases hm with
  | sigaction t hpc => exact hput t _ h ((h t).install hpc t)
  | sleep t hpc | pause t hpc =>
    exact hput t _ h ((h t).goto (by simp [hpc]) (by simp [hpc]) (by simp) (by simp))
  | kill t hpc =>
    have hgo := hput t { s t with pc := .pause } h
      ((h t).goto (by simp [hpc]) (by simp [hpc]) (by simp) (by simp))
    unfold SigSys.send
    split
    · exact hgo
    · exact hput t.other _ hgo ((hgo t.other).pending true)
  | handler t hpend hhandled => exact hput t _ h ((h t).call hhandled)
  | terminate t hpend hhandled => exact hput t _ h (h t).terminate

/-- No line has a greater number than the counter. -/
def Numbered (log : List SigEvent) (s : SigSys) : Prop := ∀ t n, (t, n) ∈ calls log → n ≤ (s t).i

theorem SigSys.send_i (s : SigSys) (t u : SigProc) : (s.send t u).i = (s u).i := by
  unfold SigSys.send
  split
  · rfl
  · by_cases hu : u = t
    · subst hu
      simp
    · rw [Function.update_of_ne hu]

theorem SigSys.goto_i (s : SigSys) (t u : SigProc) (pc : SigPc) :
    (s.goto t pc u).i = (s u).i := by
  unfold SigSys.goto
  by_cases hu : u = t
  · subst hu
    simp
  · rw [Function.update_of_ne hu]

theorem SigMove.numbered (hm : SigMove reset s a s' ev) (h : Numbered log s) :
    Numbered (log ++ ev) s' := by
  have hsame : calls ev = [] → (∀ u, (s' u).i = (s u).i) → Numbered (log ++ ev) s' := by
    intro hev hi u n hn
    rw [calls_append, hev, List.append_nil] at hn
    exact hi u ▸ h u n hn
  cases hm with
  | sigaction t hpc =>
    refine hsame rfl fun u => ?_
    rw [SigSys.install]
    by_cases hu : u = t
    · subst hu
      simp
    · rw [Function.update_of_ne hu]
  | sleep t hpc | pause t hpc => exact hsame rfl fun u => SigSys.goto_i s t u _
  | kill t hpc =>
    exact hsame rfl fun u => (SigSys.send_i _ _ _).trans (SigSys.goto_i s t u _)
  | terminate t hpend hhandled =>
    refine hsame rfl fun u => ?_
    by_cases hu : u = t
    · subst hu
      simp
    · rw [Function.update_of_ne hu]
  | handler t hpend hhandled =>
    intro u n hn
    rw [calls_append, List.mem_append] at hn
    by_cases hu : u = t
    · subst hu
      rw [Function.update_self]
      rcases hn with hn | hn
      · exact Nat.le_succ_of_le (h u n hn)
      · obtain ⟨-, rfl⟩ : u = u ∧ n = (s u).i + 1 := by simpa [calls, SigEvent.line] using hn
        exact Nat.le_refl _
    · rw [Function.update_of_ne hu]
      rcases hn with hn | hn
      · exact h u n hn
      · simp [calls, SigEvent.line, hu] at hn

theorem armed_of_runs {ok : SigSys → SigAction → Prop}
    (h : Runs (sigStep reset) ok .init log s) :
    (∀ t, Armed (reset t) (s t)) ∧ Numbered log s := by
  refine h.invariant (I := fun log s => (∀ t, Armed (reset t) (s t)) ∧ Numbered log s)
    ⟨fun t => ?_, fun t n hn => ?_⟩ ?_
  · constructor <;> simp [SigSys.init]
  · simp [calls] at hn
  · rintro log s a s' ev - ⟨ha, hc⟩ - hs
    exact ⟨(sigStep_move hs).armed ha, (sigStep_move hs).numbered hc⟩

/-- A handler that is removed by its first call prints one line, so there are at most three. -/
theorem three_lines (h : Runs (sigStep reset) anyStep .init log s) (ht : reset t = true) :
    (calls log).length ≤ 3 := by
  obtain ⟨harmed, hcount⟩ := armed_of_runs h
  by_contra hmany
  have htwo : (t, 2) ∈ calls log := by
    rw [(sig_kept h).lines, List.mem_map]
    cases t with
    | parent => exact ⟨2, List.mem_range.mpr (by omega), rfl⟩
    | child => exact ⟨3, List.mem_range.mpr (by omega), rfl⟩
  have hle := hcount t 2 htwo
  have hone := (harmed t).once ht
  omega

end

/-! ## 5. How long it goes on -/

/-- How far a process is from waiting inside `pause`. -/
def SigPc.ahead : SigPc → Nat
  | .sigaction => 4
  | .sleep => 3
  | .kill => 2
  | .pause => 1
  | .paused | .dead => 0

def SigSys.left (s : SigSys) : Nat := (s .parent).pc.ahead + (s .child).pc.ahead

def SigEvent.isCall : SigEvent → Bool
  | .call _ _ => true
  | .silent _ => false

theorem countP_isCall (log : List SigEvent) : log.countP SigEvent.isCall = (calls log).length := by
  induction log with
  | nil => rfl
  | cons x log ih =>
    cases x with
    | call t n => rw [List.countP_cons_of_pos rfl, ih]; rfl
    | silent t => rw [List.countP_cons_of_neg (by simp [SigEvent.isCall]), ih]; rfl

theorem SigSys.left_eq (s : SigSys) (t : SigProc) :
    s.left = (s t).pc.ahead + (s t.other).pc.ahead := by
  cases t
  · rfl
  · exact Nat.add_comm _ _

section

variable {reset : SigProc → Bool} {s s' : SigSys} {a : SigAction} {ev : List SigEvent} {k : Nat}
  {u : SigProc} {log : List SigEvent}

/-- `kill` moves nobody else. -/
theorem SigSys.send_pc (s : SigSys) (t u : SigProc) : (s.send t u).pc = (s u).pc := by
  unfold SigSys.send
  split
  · rfl
  · by_cases hu : u = t
    · subst hu
      simp
    · rw [Function.update_of_ne hu]

/-- Without `SA_RESETHAND` a process that waits in `pause` has its handler. -/
theorem handled_of_paused {ok : SigSys → SigAction → Prop} (hreset : ∀ t, reset t = false)
    (h : Runs (sigStep reset) ok .init log s) (hpc : (s u).pc = .paused) :
    (s u).handled = true := by
  refine (((armed_of_runs h).1 u).after (by simp [hpc]) (by simp [hpc])).mpr fun ht => ?_
  rw [hreset u] at ht
  cases ht

theorem sig_pays (hreset : ∀ t, reset t = false) :
    Pays (sigStep reset) InPause .init SigEvent.isCall SigSys.left 3 := by
  intro log s a s' ev hrun ha hs
  cases sigStep_move hs with
  | sigaction t hpc =>
    have hself : (s.install t t).pc = t.loop := by simp [SigSys.install]
    have hother : s.install t t.other = s t.other := Function.update_of_ne t.other_ne _ _
    have hloop : t.loop.ahead ≤ 3 := by cases t <;> decide
    rw [SigSys.left_eq _ t, SigSys.left_eq s t, hself, hother, hpc]
    have hfour : SigPc.sigaction.ahead = 4 := rfl
    simp only [List.countP_singleton, SigEvent.isCall, Bool.not_false, if_true]
    omega
  | sleep t hpc | pause t hpc =>
    rw [SigSys.left_eq _ t, SigSys.left_eq s t, SigSys.goto_self, SigSys.goto_other, hpc]
    simp only [SigPc.ahead, List.countP_singleton, SigEvent.isCall]
    grind
  | kill t hpc =>
    rw [SigSys.left_eq _ t, SigSys.left_eq s t, SigSys.send_pc, SigSys.send_pc, SigSys.goto_self,
      SigSys.goto_other, hpc]
    simp only [SigPc.ahead, List.countP_singleton, SigEvent.isCall]
    grind
  | terminate t hpend hhandled =>
    rw [handled_of_paused hreset hrun ha] at hhandled
    cases hhandled
  | handler t hpend hhandled =>
    have hpaused : (s t).pc = .paused := ha
    rw [SigSys.left_eq _ t, SigSys.left_eq s t, Function.update_self,
      Function.update_of_ne t.other_ne, hpaused]
    simp only [SigPc.interrupted, SigPc.ahead, List.countP_singleton, SigEvent.isCall]
    grind

/-- While the turn is passed on there is something to do. -/
theorem Passing.goes (h : Passing k u s) : ∃ a r, InPause s a ∧ sigStep reset s a = some r := by
  cases hpend : (s u).pending with
  | false =>
    refine ⟨.run u.other, ?_⟩
    rcases h.working hpend with hw | hw | hw <;> simp [sigStep, hw, InPause]
  | true =>
    rcases h.waits with hw | hw | hw
    · exact ⟨.run u, by simp [sigStep, hw, InPause]⟩
    · exact ⟨.run u, by simp [sigStep, hw, InPause]⟩
    · cases hhandled : (s u).handled with
      | false => exact ⟨.deliver u, by simp [sigStep, hw, InPause, hpend, hhandled]⟩
      | true => exact ⟨.deliver u, by simp [sigStep, hw, InPause, hpend, hhandled]⟩

theorem passing_of_runs (hreset : ∀ t, reset t = false)
    (h : Runs (sigStep reset) InPause .init log s) : ∃ k u, Passing k u s := by
  obtain ⟨k, hp⟩ : ∃ k, Passing k (turnOf .parent .child k) s := by
    refine h.invariant (I := fun _ s => ∃ k, Passing k (turnOf .parent .child k) s)
      ⟨0, passing_init⟩ ?_
    rintro log s a s' ev hrun ⟨k, hp⟩ ha hs
    rcases hp.step (sigStep_move hs) with ⟨-, -, hp'⟩ | ⟨-, -, hp'⟩ | ⟨hno, -⟩
    · exact ⟨k, hp'⟩
    · exact ⟨k + 1, turnOf_sig k ▸ hp'⟩
    · obtain ⟨hpc, hhandled⟩ := hno ha
      rw [handled_of_paused hreset hrun hpc] at hhandled
      cases hhandled
  exact ⟨k, _, hp⟩

theorem sig_goes (hreset : ∀ t, reset t = false) : Goes (sigStep reset) InPause .init := by
  intro log s hrun
  obtain ⟨k, u, hp⟩ := passing_of_runs hreset hrun
  obtain ⟨a, ⟨s', ev⟩, ha, hs⟩ : ∃ a r, InPause s a ∧ sigStep reset s a = some r := hp.goes
  refine ⟨a, s', ev, ha, hs, ?_⟩
  cases sigStep_move hs <;> exact List.cons_ne_nil _ _

/-- When the turn is lost nothing is printed any more. -/
theorem Lost.runs (h : Lost s) (hrun : Runs (sigStep reset) anyStep s log s') : calls log = [] := by
  obtain ⟨-, hlog⟩ : Lost s' ∧ calls log = [] := by
    refine hrun.invariant (I := fun log s => Lost s ∧ calls log = []) ⟨h, rfl⟩ ?_
    rintro log s a s' ev - ⟨hl, hlog⟩ - hs
    obtain ⟨hl', hev⟩ := hl.step (sigStep_move hs)
    exact ⟨hl', by rw [calls_append, hlog, hev, List.append_nil]⟩
  exact hlog

/-- A step can be followed by one more line if and only if it is no delivery outside `pause`. -/
theorem further_line_iff (hreset : ∀ t, reset t = false)
    (h : Runs (sigStep reset) InPause .init log s) (hs : sigStep reset s a = some (s', ev)) :
    InPause s a ↔ ∃ log' t, Runs (sigStep reset) anyStep s' log' t ∧ calls log' ≠ [] := by
  constructor
  · intro ha
    obtain ⟨log', t, hrun, hone⟩ :=
      (h.snoc ha hs).shows (sig_goes hreset) (sig_pays hreset) 1
    refine ⟨log', t, hrun.mono fun _ _ _ => trivial, fun hnil => ?_⟩
    rw [countP_isCall, hnil] at hone
    cases hone
  · rintro ⟨log', t, hrun, hne⟩
    obtain ⟨k, u, hp⟩ := passing_of_runs hreset h
    rcases hp.step (sigStep_move hs) with ⟨ha, -⟩ | ⟨ha, -⟩ | ⟨-, -, hl⟩
    · exact ha
    · exact ha
    · exact absurd (hl.runs hrun) hne

/-- There are runs with any number of lines if and only if `SA_RESETHAND` is in the `sa_flags` of
neither process.  Then, as long as every signal is delivered inside `pause`, there is always
something to do, at most eight steps and four for each line are behind, and a next step can be
followed by one more line if and only if it is no delivery outside `pause`. -/
theorem ping_pong_iff (reset : SigProc → Bool) :
    ((∀ n, ∃ log s, Runs (sigStep reset) anyStep .init log s ∧ n ≤ (calls log).length) ↔
      ∀ t, reset t = false) ∧
    ((∀ t, reset t = false) → ∀ {log s}, Runs (sigStep reset) InPause .init log s →
      (∃ a r, InPause s a ∧ sigStep reset s a = some r) ∧
      log.length ≤ 8 + 4 * (calls log).length ∧
      ∀ a s' ev, sigStep reset s a = some (s', ev) →
        (InPause s a ↔
          ∃ log' t, Runs (sigStep reset) anyStep s' log' t ∧ calls log' ≠ [])) := by
  refine ⟨⟨fun hmany t => ?_, fun hreset n => ?_⟩, fun hreset log s h => ?_⟩
  · by_contra ht
    obtain ⟨log, s, hrun, hlen⟩ := hmany 4
    have hthree := three_lines hrun (Bool.not_eq_false _ ▸ ht)
    omega
  · obtain ⟨log, s, hrun, hlen⟩ := Runs.nil.shows (sig_goes hreset) (sig_pays hreset) n
    exact ⟨log, s, hrun.mono fun _ _ _ => trivial, countP_isCall log ▸ hlen⟩
  · obtain ⟨k, u, hp⟩ := passing_of_runs hreset h
    exact ⟨hp.goes, countP_isCall log ▸ h.length_le (sig_pays hreset),
      fun a s' ev hs => further_line_iff hreset h hs⟩

end

/-- The first two signals, without `SA_RESETHAND`. -/
theorem ping_pong_iff_two : ∃ log s, Runs (sigStep fun _ => false) InPause .init log s ∧
    calls log = [(.parent, 1), (.child, 1)] ∧
      ∃ a r, InPause s a ∧ sigStep (fun _ => false) s a = some r := by
  obtain ⟨log, s, hrun, hlog⟩ : ∃ log s, Runs (sigStep fun _ => false) InPause .init log s ∧
      decide (calls log = [(.parent, 1), (.child, 1)]) = true :=
    exists_runs_of_exec
      [.run .child, .run .parent, .run .parent, .run .child, .run .child, .deliver .parent,
        .run .parent, .run .child, .run .parent, .deliver .child] _ (by decide)
  exact ⟨log, s, hrun, of_decide_eq_true hlog,
    ((ping_pong_iff fun _ => false).2 (fun _ => rfl) hrun).1⟩

/-- The child's signal meets the parent on its way to `pause`, and nothing is left to be done. -/
theorem calls_in_turn_lost : ∃ log s, Runs (sigStep fun _ => false) anyStep .init log s ∧
    calls log = [callOf 0] ∧ (s .parent).pc = .paused ∧ (s .child).pc = .paused := by
  obtain ⟨log, s, hrun, hp⟩ : ∃ log s, Runs (sigStep fun _ => false) anyStep .init log s ∧
      decide ((calls log).length = 1 ∧ (s .parent).pc = .paused ∧ (s .child).pc = .paused) = true :=
    exists_runs_of_exec
      [.run .child, .run .parent, .run .child, .run .child, .deliver .parent, .run .parent,
        .run .child] _ (by decide)
  obtain ⟨hone, hpar, hchild⟩ := of_decide_eq_true hp
  have hlines := (calls_in_turn hrun).1
  rw [hone] at hlines
  exact ⟨log, s, hrun, hlines, hpar, hchild⟩

end PosixLab.Programs
