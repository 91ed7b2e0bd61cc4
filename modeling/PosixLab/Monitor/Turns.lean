/-
# Two threads that greet each other in turn

In `hellothread.c` the main thread and a child share a mutex, a condition variable and the
variable `turn`.  Each waits until it is its turn, prints a line, gives the turn to the other
one, signals and releases the mutex.  A step of the machine is one call of the library, one test
of the loop condition, or one statement; a waiting thread may also wake up without a signal.

`hello_alternates` is the safety of it: the lines come in turn, the child's first, whatever the
scheduler does.  `hello_goes_on` is the progress: some thread that has not to be woken by chance
can always take a step, and no more than nine steps lie between two lines.
-/
import PosixLab.Basis.Progress

namespace PosixLab.Monitor

open PosixLab

/-! ## 1. The threads -/

inductive Party
  | parent
  | child
deriving DecidableEq

def Party.other : Party → Party
  | .parent => .child
  | .child => .parent

/-- The value of `turn` with which the thread goes on: 0 for the parent, 1 for the child. -/
def Party.number : Party → Int
  | .parent => 0
  | .child => 1

@[simp] theorem Party.other_other (t : Party) : t.other.other = t := by cases t <;> rfl

@[simp] theorem Party.other_ne (t : Party) : t.other ≠ t := by cases t <;> simp [Party.other]

theorem Party.eq_or_eq_other (t u : Party) : t = u ∨ t = u.other := by
  cases t <;> cases u <;> simp [Party.other]

theorem Party.number_inj {t u : Party} : t.number = u.number ↔ t = u := by
  cases t <;> cases u <;> simp [Party.number]

/-- Where a thread stands in its loop, named after what it does next. -/
inductive HelloPc
  | lock
  | test
  | wait
  /-- inside `pthread_cond_wait`; `woken` when it is on its way back to the mutex -/
  | blocked (woken : Bool)
  | print
  | assign
  | signal
  | unlock
deriving DecidableEq

/-- The variable `turn`, the owner of the mutex, and the two threads. -/
structure HelloSys where
  turn : Int
  owner : Option Party
  pc : Party → HelloPc

/-- The start: `turn` is 1. -/
def HelloSys.init : HelloSys := ⟨1, none, fun _ => .lock⟩

/-- A thread goes on. -/
def HelloSys.goto (s : HelloSys) (t : Party) (pc : HelloPc) : HelloSys :=
  { s with pc := Function.update s.pc t pc }

/-- The next statement of a thread, or a wake-up without a signal. -/
inductive HelloAction
  | run (t : Party)
  | wake (t : Party)
deriving DecidableEq

/-- A line, or a statement that prints nothing. -/
inductive HelloEvent
  | hello (t : Party)
  | silent (t : Party)
deriving DecidableEq

/-- `pthread_cond_signal` by `t`: the other thread is woken if it waits. -/
def HelloSys.wakeOther (s : HelloSys) (t : Party) : HelloSys :=
  if s.pc t.other = .blocked false then s.goto t.other (.blocked true) else s

/-- One step. -/
def helloStep (s : HelloSys) : HelloAction → Option (HelloSys × List HelloEvent)
  | .run t =>
    match s.pc t with
    | .lock =>
      if s.owner = none then some ({ s with owner := some t }.goto t .test, [.silent t]) else none
    | .test =>
      if s.turn ≠ t.number then some (s.goto t .wait, [.silent t])
      else some (s.goto t .print, [.silent t])
    | .wait => some ({ s with owner := none }.goto t (.blocked false), [.silent t])
    | .blocked true =>
      if s.owner = none then some ({ s with owner := some t }.goto t .test, [.silent t]) else none
    | .blocked false => none
    | .print => some (s.goto t .assign, [.hello t])
    | .assign => some ({ s with turn := t.other.number }.goto t .signal, [.silent t])
    | .signal => some ((s.wakeOther t).goto t .unlock, [.silent t])
    | .unlock => some ({ s with owner := none }.goto t .lock, [.silent t])
  | .wake t =>
    match s.pc t with
    | .blocked false => some (s.goto t (.blocked true), [.silent t])
    | _ => none

/-- The lines, in order. -/
def HelloEvent.line : HelloEvent → Option Party
  | .hello t => some t
  | .silent _ => none

def printed (log : List HelloEvent) : List Party := log.filterMap HelloEvent.line

/-- What a step can do. -/
inductive HelloMove (s : HelloSys) : HelloAction → HelloSys → List HelloEvent → Prop
  | take (t : Party) (hpc : s.pc t = .lock ∨ s.pc t = .blocked true) (hfree : s.owner = none) :
      HelloMove s (.run t) ({ s with owner := some t }.goto t .test) [.silent t]
  | testWait (t : Party) (hpc : s.pc t = .test) (hturn : s.turn ≠ t.number) :
      HelloMove s (.run t) (s.goto t .wait) [.silent t]
  | testGo (t : Party) (hpc : s.pc t = .test) (hturn : s.turn = t.number) :
      HelloMove s (.run t) (s.goto t .print) [.silent t]
  | wait (t : Party) (hpc : s.pc t = .wait) :
      HelloMove s (.run t) ({ s with owner := none }.goto t (.blocked false)) [.silent t]
  | print (t : Party) (hpc : s.pc t = .print) :
      HelloMove s (.run t) (s.goto t .assign) [.hello t]
  | assign (t : Party) (hpc : s.pc t = .assign) :
      HelloMove s (.run t) ({ s with turn := t.other.number }.goto t .signal) [.silent t]
  | signal (t : Party) (hpc : s.pc t = .signal) :
      HelloMove s (.run t) ((s.wakeOther t).goto t .unlock) [.silent t]
  | unlock (t : Party) (hpc : s.pc t = .unlock) :
      HelloMove s (.run t) ({ s with owner := none }.goto t .lock) [.silent t]
  | wake (t : Party) (hpc : s.pc t = .blocked false) :
      HelloMove s (.wake t) (s.goto t (.blocked true)) [.silent t]

theorem helloStep_move {s s' : HelloSys} {a : HelloAction} {ev : List HelloEvent}
    (h : helloStep s a = some (s', ev)) : HelloMove s a s' ev := by
  cases a with
  | run t =>
    simp only [helloStep] at h
    split at h
    · rename_i hpc
      obtain ⟨hfree, heq⟩ := Option.ite_none_right_eq_some.mp h
      cases heq
      exact .take t (.inl hpc) hfree
    · rename_i hpc
      split at h
      · rename_i hturn
        cases h
        exact .testWait t hpc hturn
      · rename_i hturn
        cases h
        exact .testGo t hpc (not_not.mp hturn)
    · rename_i hpc
      cases h
      exact .wait t hpc
    · rename_i hpc
      obtain ⟨hfree, heq⟩ := Option.ite_none_right_eq_some.mp h
      cases heq
      exact .take t (.inr hpc) hfree
    · cases h
    · rename_i hpc
      cases h
      exact .print t hpc
    · rename_i hpc
      cases h
      exact .assign t hpc
    · rename_i hpc
      cases h
      exact .signal t hpc
    · rename_i hpc
      cases h
      exact .unlock t hpc
  | wake t =>
    simp only [helloStep] at h
    split at h
    · rename_i hpc
      cases h
      exact .wake t hpc
    · cases h

@[simp] theorem HelloSys.goto_pc (s : HelloSys) (t : Party) (pc : HelloPc) :
    (s.goto t pc).pc t = pc := by simp [HelloSys.goto]

theorem HelloSys.goto_pc_of_ne {s : HelloSys} {t u : Party} {pc : HelloPc} (h : u ≠ t) :
    (s.goto t pc).pc u = s.pc u := by simp [HelloSys.goto, h]

@[simp] theorem HelloSys.goto_pc_other (s : HelloSys) (t : Party) (pc : HelloPc) :
    (s.goto t pc).pc t.other = s.pc t.other := HelloSys.goto_pc_of_ne t.other_ne

@[simp] theorem HelloSys.goto_turn (s : HelloSys) (t : Party) (pc : HelloPc) :
    (s.goto t pc).turn = s.turn := rfl

@[simp] theorem HelloSys.goto_owner (s : HelloSys) (t : Party) (pc : HelloPc) :
    (s.goto t pc).owner = s.owner := rfl

/-- A signal moves the other thread only, and only if it waits. -/
theorem HelloSys.wakeOther_spec (s : HelloSys) (t : Party) :
    (s.wakeOther t).turn = s.turn ∧ (s.wakeOther t).owner = s.owner ∧
      (s.wakeOther t).pc t = s.pc t ∧
      (s.wakeOther t).pc t.other =
        if s.pc t.other = .blocked false then .blocked true else s.pc t.other := by
  unfold HelloSys.wakeOther
  split
  · exact ⟨rfl, rfl, HelloSys.goto_pc_of_ne t.other_ne.symm, by simp⟩
  · exact ⟨rfl, rfl, rfl, rfl⟩

/-! ## 2. What the steps keep -/

/-- Between the return of `lock` and the `unlock`, and not inside `wait`. -/
def HelloPc.holds : HelloPc → Bool
  | .lock | .blocked _ => false
  | _ => true

/-- The owner of the mutex is the thread that stands in its critical section. -/
def HelloOwned (s : HelloSys) : Prop := ∀ t, s.owner = some t ↔ (s.pc t).holds = true

section

variable {s s' : HelloSys} {a : HelloAction} {ev : List HelloEvent} {n : Nat} {t u : Party}

theorem HelloOwned.of_pair (t : Party) (h : s.owner = some t ↔ (s.pc t).holds = true)
    (h' : s.owner = some t.other ↔ (s.pc t.other).holds = true) : HelloOwned s := by
  intro u
  obtain rfl | rfl := u.eq_or_eq_other t
  · exact h
  · exact h'

/-- Nobody else is in the critical section. -/
theorem HelloOwned.other (h : HelloOwned s) (ht : (s.pc t).holds = true) :
    s.owner = some t ∧ (s.pc t.other).holds = false := by
  have howner := (h t).mpr ht
  refine ⟨howner, ?_⟩
  rw [Bool.eq_false_iff]
  intro hother
  have := (h t.other).mpr hother
  rw [howner] at this
  exact t.other_ne (Option.some.inj this).symm

theorem HelloOwned.step (h : HelloOwned s) (hm : HelloMove s a s' ev) : HelloOwned s' := by
  cases hm with
  | take t hpc hfree =>
    have hother : (s.pc t.other).holds = false := by
      simpa [hfree] using h t.other
    refine .of_pair t (by simp [HelloPc.holds]) ?_
    simp [hother, t.other_ne.symm]
  | testWait t hpc _ | testGo t hpc _ | print t hpc =>
    obtain ⟨howner, hother⟩ := h.other (t := t) (by rw [hpc]; rfl)
    refine .of_pair t (by simp [howner, HelloPc.holds]) ?_
    simp [howner, hother, t.other_ne.symm]
  | assign t hpc =>
    obtain ⟨howner, hother⟩ := h.other (t := t) (by rw [hpc]; rfl)
    refine .of_pair t (by simp [howner, HelloPc.holds]) ?_
    simp [howner, hother, t.other_ne.symm]
  | wait t hpc | unlock t hpc =>
    obtain ⟨-, hother⟩ := h.other (t := t) (by rw [hpc]; rfl)
    exact .of_pair t (by simp [HelloPc.holds]) (by simp [hother])
  | signal t hpc =>
    obtain ⟨howner, hother⟩ := h.other (t := t) (by rw [hpc]; rfl)
    obtain ⟨-, hown, -, hpc'⟩ := s.wakeOther_spec t
    refine .of_pair t (by simp [hown, howner, HelloPc.holds]) ?_
    simp only [HelloSys.goto_owner, hown, howner, HelloSys.goto_pc_other, hpc']
    split
    · simp [HelloPc.holds, t.other_ne.symm]
    · simp [hother, t.other_ne.symm]
  | wake t hpc =>
    have ht := h t
    rw [hpc] at ht
    refine .of_pair t (by simpa [HelloPc.holds] using ht) ?_
    simpa using h t.other

/-- It is the turn of `u`, after `n` lines: only `u` can print, `u` has not to wait unless its
signal is still to come, and the lines so far were printed in turn. -/
structure TurnOf (n : Nat) (u : Party) (s : HelloSys) : Prop where
  turn : s.turn = u.number
  mine : s.pc u ≠ .wait ∧ s.pc u ≠ .signal ∧ s.pc u ≠ .unlock
  asleep : s.pc u = .blocked false → s.pc u.other = .signal
  other : s.pc u.other ≠ .print ∧ s.pc u.other ≠ .assign
  count : turnOf .child .parent n = if s.pc u = .assign then u.other else u

/-- The thread whose turn it is goes on. -/
theorem TurnOf.goto_mine (h : TurnOf n u s) {pc : HelloPc} {owner : Option Party}
    (hpc : pc ≠ .wait ∧ pc ≠ .signal ∧ pc ≠ .unlock) (hsleep : pc ≠ .blocked false)
    (hcount : pc = .assign ↔ s.pc u = .assign) : TurnOf n u ({ s with owner }.goto u pc) := by
  refine ⟨h.turn, by simpa using hpc, ?_, by simpa using h.other, ?_⟩
  · simp [hsleep]
  · rw [h.count]
    simp [hcount]

/-- The other one does, which has no signal to give. -/
theorem TurnOf.goto_other (h : TurnOf n u s) {pc : HelloPc} {owner : Option Party}
    (hpc : pc ≠ .print ∧ pc ≠ .assign) (hsignal : s.pc u.other ≠ .signal) :
    TurnOf n u ({ s with owner }.goto u.other pc) := by
  have hu : ({ s with owner }.goto u.other pc).pc u = s.pc u :=
    HelloSys.goto_pc_of_ne u.other_ne.symm
  refine ⟨h.turn, by simpa [hu] using h.mine, ?_, by simpa using hpc, by simpa [hu] using h.count⟩
  rw [hu]
  exact fun hsleep => absurd (h.asleep hsleep) hsignal

theorem turnOf_next (n : Nat) :
    turnOf Party.child .parent (n + 1) = (turnOf Party.child .parent n).other := by
  rw [turnOf_succ]
  unfold turnOf
  split <;> rfl

/-- One step keeps it somebody's turn, and a line is printed by the one whose turn it is. -/
theorem TurnOf.step (h : TurnOf n u s) (ho : HelloOwned s) (hm : HelloMove s a s' ev) :
    printed ev = [] ∧ (∃ u', TurnOf n u' s') ∨
      printed ev = [turnOf .child .parent n] ∧ TurnOf (n + 1) u s' := by
  have hsilent : ∀ {t v : Party}, TurnOf n v s' →
      printed [.silent t] = [] ∧ (∃ u', TurnOf n u' s') ∨
        printed [.silent t] = [turnOf .child .parent n] ∧ TurnOf (n + 1) u s' :=
    fun ht => .inl ⟨rfl, _, ht⟩
  cases hm with
  | take t hpc hfree =>
    refine hsilent (v := u) ?_
    obtain rfl | rfl := t.eq_or_eq_other u
    · refine h.goto_mine (by simp) (by simp) ?_
      rcases hpc with hpc | hpc <;> simp [hpc]
    · refine h.goto_other (by simp) ?_
      rcases hpc with hpc | hpc <;> simp [hpc]
  | testWait t hpc hturn =>
    obtain rfl | rfl := t.eq_or_eq_other u
    · exact absurd h.turn hturn
    · exact hsilent (h.goto_other (by simp) (by simp [hpc]))
  | testGo t hpc hturn =>
    obtain rfl | rfl := t.eq_or_eq_other u
    · exact hsilent (h.goto_mine (by simp) (by simp) (by simp [hpc]))
    · rw [h.turn, Party.number_inj] at hturn
      exact absurd hturn.symm u.other_ne
  | wait t hpc =>
    obtain rfl | rfl := t.eq_or_eq_other u
    · exact absurd hpc h.mine.1
    · exact hsilent (h.goto_other (by simp) (by simp [hpc]))
  | print t hpc =>
    obtain rfl | rfl := t.eq_or_eq_other u
    · have hcount := h.count
      rw [hpc, if_neg (by simp)] at hcount
      refine .inr ⟨by rw [hcount]; rfl, h.turn, by simp, by simp, by simpa using h.other, ?_⟩
      rw [turnOf_next, hcount]
      simp
    · exact absurd hpc h.other.1
  | assign t hpc =>
    obtain rfl | rfl := t.eq_or_eq_other u
    · -- the mutex is held by this thread, so the other one stands outside
      obtain ⟨-, hout⟩ := ho.other (t := t) (by rw [hpc]; rfl)
      refine hsilent (v := t.other) ⟨rfl, ?_, by simp, by simp, ?_⟩
      · simp only [HelloSys.goto_pc_other]
        refine ⟨?_, ?_, ?_⟩ <;> intro hpc' <;> rw [hpc'] at hout <;> cases hout
      · have hcount := h.count
        rw [hpc, if_pos rfl] at hcount
        rw [hcount, HelloSys.goto_pc_other, if_neg]
        intro hpc'
        rw [hpc'] at hout
        cases hout
    · exact absurd hpc h.other.2
  | signal t hpc =>
    obtain rfl | rfl := t.eq_or_eq_other u
    · exact absurd hpc h.mine.2.1
    · obtain ⟨hturn, -, -, hpc'⟩ := s.wakeOther_spec u.other
      rw [Party.other_other] at hpc'
      have hu : ((s.wakeOther u.other).goto u.other .unlock).pc u =
          if s.pc u = .blocked false then .blocked true else s.pc u :=
        (HelloSys.goto_pc_of_ne u.other_ne.symm).trans hpc'
      refine hsilent (v := u) ⟨hturn.trans h.turn, ?_, ?_, by simp, ?_⟩
      · rw [hu]
        split
        · simp
        · exact h.mine
      · rw [hu]
        split
        · simp
        · exact fun hsleep => absurd hsleep ‹_›
      · rw [h.count, hu]
        by_cases hsleep : s.pc u = .blocked false <;> simp [hsleep]
  | unlock t hpc =>
    obtain rfl | rfl := t.eq_or_eq_other u
    · exact absurd hpc h.mine.2.2
    · exact hsilent (h.goto_other (by simp) (by simp [hpc]))
  | wake t hpc =>
    refine hsilent (v := u) ?_
    obtain rfl | rfl := t.eq_or_eq_other u
    · exact h.goto_mine (by simp) (by simp) (by simp [hpc])
    · exact h.goto_other (by simp) (by simp [hpc])

end

/-! ## 3. The lines come in turn -/

/-- What holds along a run. -/
structure HelloKept (log : List HelloEvent) (s : HelloSys) : Prop where
  owned : HelloOwned s
  turn : ∃ u, TurnOf (printed log).length u s
  lines : printed log = alternate .child .parent (printed log).length

theorem helloKept_init : HelloKept [] .init :=
  ⟨fun t => by cases t <;> simp [HelloSys.init, HelloPc.holds],
    ⟨.child, rfl, by simp [HelloSys.init], by simp [HelloSys.init], by simp [HelloSys.init], rfl⟩,
    rfl⟩

theorem printed_append (log ev : List HelloEvent) :
    printed (log ++ ev) = printed log ++ printed ev := List.filterMap_append

theorem HelloKept.step {log ev : List HelloEvent} {s s' : HelloSys} {a : HelloAction}
    (h : HelloKept log s) (hm : HelloMove s a s' ev) : HelloKept (log ++ ev) s' := by
  obtain ⟨u, hu⟩ := h.turn
  have hlines := h.lines
  rcases hu.step h.owned hm with ⟨hev, hu'⟩ | ⟨hev, hu'⟩
  · have hlog : printed (log ++ ev) = printed log := by rw [printed_append, hev, List.append_nil]
    exact ⟨h.owned.step hm, hlog ▸ hu', hlog ▸ hlines⟩
  · have hlog : printed (log ++ ev) = printed log ++ [turnOf .child .parent (printed log).length] :=
      by rw [printed_append, hev]
    have hlen : (printed (log ++ ev)).length = (printed log).length + 1 := by simp [hlog]
    refine ⟨h.owned.step hm, ⟨u, hlen ▸ hu'⟩, ?_⟩
    rw [hlen, alternate_succ, ← hlines, hlog]

theorem helloKept_of_runs {ok : HelloSys → HelloAction → Prop} {log : List HelloEvent}
    {s : HelloSys} (h : Runs helloStep ok .init log s) : HelloKept log s := by
  refine h.invariant (I := HelloKept) helloKept_init ?_
  intro log s a s' ev _ ih _ hs
  exact ih.step (helloStep_move hs)

/-- For every interleaving of the two threads, and any wake-ups without a signal: the lines are
printed in turn, the first one by the child. -/
theorem hello_alternates {log : List HelloEvent} {s : HelloSys}
    (h : Runs helloStep anyStep .init log s) :
    printed log = alternate .child .parent (printed log).length :=
  (helloKept_of_runs h).lines

/-- The child is woken too early, finds that it is not its turn, and waits again. -/
theorem hello_alternates_wokenEarly : ∃ log s, Runs helloStep anyStep .init log s ∧
    log.length = 16 ∧ printed log = [.child, .parent] := by
  obtain ⟨log, s, hrun, hlog⟩ : ∃ log s, Runs helloStep anyStep .init log s ∧
      decide (log.length = 16 ∧ (printed log).length = 2) = true :=
    exists_runs_of_exec
      [.run .child, .run .child, .run .child, .run .child, .run .child, .run .child, .run .child,
        .run .child, .run .child, .wake .child, .run .child, .run .child, .run .child,
        .run .parent, .run .parent, .run .parent] _ (by decide)
  obtain ⟨hlen, htwo⟩ := of_decide_eq_true hlog
  have hlines := hello_alternates hrun
  rw [htwo] at hlines
  exact ⟨log, s, hrun, hlen, hlines⟩

/-! ## 4. The threads go on -/

/-- Nobody wakes up by chance. -/
def NoWake (_ : HelloSys) : HelloAction → Prop
  | .run _ => True
  | .wake _ => False

instance (s : HelloSys) : (a : HelloAction) → Decidable (NoWake s a)
  | .run _ => inferInstanceAs (Decidable True)
  | .wake _ => inferInstanceAs (Decidable False)

/-- How many steps the thread whose turn it is has left up to its line. -/
def HelloPc.ahead : HelloPc → Nat
  | .lock | .blocked _ => 3
  | .test => 2
  | .print => 1
  | _ => 0

/-- How many steps the other one can take meanwhile. -/
def HelloPc.aside : HelloPc → Nat
  | .signal => 5
  | .unlock => 4
  | .lock | .blocked true => 3
  | .test => 2
  | .wait => 1
  | _ => 0

/-- The thread that `turn` names. -/
def HelloSys.whose (s : HelloSys) : Party := if s.turn = 1 then .child else .parent

/-- The steps that are left before the next line; 9 of them are counted from a line on. -/
def HelloSys.left (s : HelloSys) : Nat :=
  if s.pc s.whose = .assign then 9
  else (s.pc s.whose).ahead + (s.pc s.whose.other).aside

def HelloEvent.isLine : HelloEvent → Bool
  | .hello _ => true
  | .silent _ => false

theorem countP_isLine (log : List HelloEvent) :
    log.countP HelloEvent.isLine = (printed log).length := by
  induction log with
  | nil => rfl
  | cons x log ih =>
    cases x with
    | hello t => rw [List.countP_cons_of_pos rfl, ih]; rfl
    | silent t => rw [List.countP_cons_of_neg (by simp [HelloEvent.isLine]), ih]; rfl

section

variable {s s' : HelloSys} {a : HelloAction} {ev : List HelloEvent} {n : Nat} {t u : Party}

theorem whose_of_turn (h : s.turn = u.number) : s.whose = u := by
  rw [HelloSys.whose, h]
  cases u <;> rfl

theorem left_of_turn (h : s.turn = u.number) :
    s.left = if s.pc u = .assign then 9 else (s.pc u).ahead + (s.pc u.other).aside := by
  rw [HelloSys.left, whose_of_turn h]

theorem TurnOf.left_eq (h : TurnOf n u s) (hpc : s.pc u ≠ .assign) :
    s.left = (s.pc u).ahead + (s.pc u.other).aside := by
  rw [left_of_turn h.turn, if_neg hpc]

theorem TurnOf.left_mine (h : TurnOf n u s) {pc : HelloPc} (owner : Option Party)
    (hpc : pc ≠ .assign) :
    ({ s with owner }.goto u pc).left = pc.ahead + (s.pc u.other).aside := by
  rw [left_of_turn (u := u) (by exact h.turn), HelloSys.goto_pc, if_neg hpc, HelloSys.goto_pc_other]

theorem TurnOf.left_other (h : TurnOf n u s) (pc : HelloPc) (owner : Option Party)
    (hpc : s.pc u ≠ .assign) :
    ({ s with owner }.goto u.other pc).left = (s.pc u).ahead + pc.aside := by
  rw [left_of_turn (u := u) (by exact h.turn), HelloSys.goto_pc_of_ne u.other_ne.symm,
    HelloSys.goto_pc]
  exact if_neg hpc

/-- While a thread stands behind its line, the other one is outside. -/
theorem HelloOwned.ne_assign (ho : HelloOwned s)
    (h : s.owner = none ∨ (s.pc u.other).holds = true) : s.pc u ≠ .assign := by
  intro hpc
  obtain ⟨howner, hout⟩ := ho.other (t := u) (by rw [hpc]; rfl)
  rcases h with h | h
  · rw [howner] at h
    cases h
  · rw [hout] at h
    cases h

/-- A step without a line leaves one step less, and a line brings in eight. -/
theorem TurnOf.pays (h : TurnOf n u s) (ho : HelloOwned s) (hm : HelloMove s a s' ev)
    (ha : NoWake s a) :
    s'.left + ev.countP (!HelloEvent.isLine ·) ≤ s.left + 8 * ev.countP HelloEvent.isLine := by
  have hsilent : ∀ {t : Party}, s'.left + 1 ≤ s.left →
      s'.left + [HelloEvent.silent t].countP (!HelloEvent.isLine ·) ≤
        s.left + 8 * [HelloEvent.silent t].countP HelloEvent.isLine := fun hle => hle
  cases hm with
  | take t hpc hfree =>
    refine hsilent ?_
    have hne : s.pc u ≠ .assign := ho.ne_assign (.inl hfree)
    obtain rfl | rfl := t.eq_or_eq_other u
    · rw [h.left_mine _ (by simp), h.left_eq hne]
      rcases hpc with hpc | hpc <;> simp only [hpc, HelloPc.ahead] <;> omega
    · rw [h.left_other _ _ hne, h.left_eq hne]
      rcases hpc with hpc | hpc <;> simp only [hpc, HelloPc.aside] <;> omega
  | testWait t hpc hturn =>
    refine hsilent ?_
    obtain rfl | rfl := t.eq_or_eq_other u
    · exact absurd h.turn hturn
    · have hne : s.pc u ≠ .assign := ho.ne_assign (.inr (by rw [hpc]; rfl))
      rw [h.left_other _ s.owner hne, h.left_eq hne, hpc]
      exact Nat.le_refl _
  | testGo t hpc hturn =>
    refine hsilent ?_
    obtain rfl | rfl := t.eq_or_eq_other u
    · rw [h.left_mine s.owner (by simp), h.left_eq (by simp [hpc]), hpc]
      simp only [HelloPc.ahead]
      omega
    · rw [h.turn, Party.number_inj] at hturn
      exact absurd hturn.symm u.other_ne
  | wait t hpc =>
    refine hsilent ?_
    obtain rfl | rfl := t.eq_or_eq_other u
    · exact absurd hpc h.mine.1
    · have hne : s.pc u ≠ .assign := ho.ne_assign (.inr (by rw [hpc]; rfl))
      rw [h.left_other _ none hne, h.left_eq hne, hpc]
      exact Nat.le_refl _
  | print t hpc =>
    obtain rfl | rfl := t.eq_or_eq_other u
    · rw [left_of_turn (u := t) (by exact h.turn), h.left_eq (by simp [hpc]), hpc, HelloSys.goto_pc,
        if_pos rfl]
      simp only [HelloPc.ahead, HelloEvent.isLine, List.countP_singleton]
      simp
    · exact absurd hpc h.other.1
  | assign t hpc =>
    refine hsilent ?_
    obtain rfl | rfl := t.eq_or_eq_other u
    · obtain ⟨-, hout⟩ := ho.other (t := t) (by rw [hpc]; rfl)
      rw [left_of_turn (u := t.other) rfl, left_of_turn h.turn, if_pos hpc,
        HelloSys.goto_pc_other, Party.other_other, HelloSys.goto_pc]
      cases hpc' : s.pc t.other <;> rw [hpc'] at hout <;> simp [HelloPc.holds] at hout <;>
        simp [HelloPc.ahead, HelloPc.aside]
    · exact absurd hpc h.other.2
  | signal t hpc =>
    refine hsilent ?_
    obtain rfl | rfl := t.eq_or_eq_other u
    · exact absurd hpc h.mine.2.1
    · have hne : s.pc u ≠ .assign := ho.ne_assign (.inr (by rw [hpc]; rfl))
      obtain ⟨hturn, -, -, hpc'⟩ := s.wakeOther_spec u.other
      rw [Party.other_other] at hpc'
      rw [left_of_turn (u := u) (by exact hturn.trans h.turn), h.left_eq hne,
        HelloSys.goto_pc_of_ne u.other_ne.symm, hpc', HelloSys.goto_pc, hpc]
      by_cases hsleep : s.pc u = .blocked false
      · simp [hsleep, HelloPc.ahead, HelloPc.aside]
      · simp [hsleep, hne, HelloPc.aside]
  | unlock t hpc =>
    refine hsilent ?_
    obtain rfl | rfl := t.eq_or_eq_other u
    · exact absurd hpc h.mine.2.2
    · have hne : s.pc u ≠ .assign := ho.ne_assign (.inr (by rw [hpc]; rfl))
      rw [h.left_other _ none hne, h.left_eq hne, hpc]
      exact Nat.le_refl _
  | wake t hpc => exact ha.elim

/-- A thread in its critical section can go on. -/
theorem run_of_holds (h : (s.pc t).holds = true) : ∃ r, helloStep s (.run t) = some r := by
  cases hpc : s.pc t with
  | lock | blocked w =>
    rw [hpc] at h
    cases h
  | test => by_cases hturn : s.turn = t.number <;> simp [helloStep, hpc, hturn]
  | wait | print | assign | signal | unlock => simp [helloStep, hpc]

/-- Some thread can go on without being woken. -/
theorem TurnOf.goes (h : TurnOf n u s) (ho : HelloOwned s) :
    ∃ t r, helloStep s (.run t) = some r := by
  cases howner : s.owner with
  | some t => exact ⟨t, run_of_holds ((ho t).mp howner)⟩
  | none =>
    have hout : ∀ t, (s.pc t).holds ≠ true := fun t ht => by
      have := (ho t).mpr ht
      rw [howner] at this
      cases this
    refine ⟨u, ({ s with owner := some u }.goto u .test, [.silent u]), ?_⟩
    cases hpc : s.pc u with
    | lock => simp [helloStep, hpc, howner]
    | blocked w =>
      cases w with
      | true => simp [helloStep, hpc, howner]
      | false => exact absurd (by rw [h.asleep hpc]; rfl) (hout u.other)
    | _ => exact absurd (by rw [hpc]; rfl) (hout u)

end

theorem hello_pays : Pays helloStep NoWake .init HelloEvent.isLine HelloSys.left 8 := by
  intro log s a s' ev hrun ha hs
  have hk := helloKept_of_runs hrun
  obtain ⟨u, hu⟩ := hk.turn
  exact hu.pays hk.owned (helloStep_move hs) ha

theorem hello_goes : Goes helloStep NoWake .init := by
  intro log s hrun
  have hk := helloKept_of_runs hrun
  obtain ⟨u, hu⟩ := hk.turn
  obtain ⟨t, ⟨s', ev⟩, hs⟩ := hu.goes hk.owned
  refine ⟨.run t, s', ev, trivial, hs, ?_⟩
  cases helloStep_move hs <;> exact List.cons_ne_nil _ _

/-- For every interleaving in which nobody wakes up by chance: some thread can always go on, nine
steps print at least one line (the first six may print none), and so every run can be led to any
number of lines more. -/
theorem hello_goes_on {log : List HelloEvent} {s : HelloSys}
    (h : Runs helloStep NoWake .init log s) :
    (∃ t r, helloStep s (.run t) = some r) ∧
      log.length ≤ 6 + 9 * (printed log).length ∧
      ∀ n, ∃ log' s', Runs helloStep NoWake s log' s' ∧ n ≤ (printed log').length := by
  refine ⟨?_, ?_, fun n => ?_⟩
  · have hk := helloKept_of_runs h
    obtain ⟨u, hu⟩ := hk.turn
    exact hu.goes hk.owned
  · have hle := h.length_le hello_pays
    rwa [countP_isLine] at hle
  · obtain ⟨log', s', hrun, hn⟩ := h.shows hello_goes hello_pays n
    exact ⟨log', s', hrun, countP_isLine log' ▸ hn⟩

/-- The parent waits while the child goes through its loop once. -/
theorem hello_goes_on_oneRound : ∃ log s, Runs helloStep NoWake .init log s ∧
    s.pc .parent = .blocked true ∧ (∃ t r, helloStep s (.run t) = some r) ∧
    ∀ n, ∃ log' s', Runs helloStep NoWake s log' s' ∧ n ≤ (printed log').length := by
  obtain ⟨log, s, hrun, hpc⟩ : ∃ log s, Runs helloStep NoWake .init log s ∧
      decide (s.pc .parent = .blocked true) = true :=
    exists_runs_of_exec
      [.run .parent, .run .parent, .run .parent, .run .child, .run .child, .run .child,
        .run .child, .run .child, .run .child] _ (by decide)
  obtain ⟨hrunnable, -, hmore⟩ := hello_goes_on hrun
  exact ⟨log, s, hrun, of_decide_eq_true hpc, hrunnable, hmore⟩

end PosixLab.Monitor
