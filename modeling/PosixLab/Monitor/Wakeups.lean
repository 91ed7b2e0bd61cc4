/-
# No wake-up is lost

Producers call `insert_item` and consumers `remove_item`, any number of each, over the machine
of `BoundedBuffer`.  `pthread_cond_signal` wakes one waiter of its condition if there is one,
and the woken thread competes for the mutex with all the others, so it may find the slot taken
and wait again.  What rules a deadlock out is a count: while a thread of one role waits, every
turn the buffer has for that role is covered by a thread that is awake for it, or by a thread
of the other role that has still to signal (`Covered`).
-/
import PosixLab.Monitor.BoundedBuffer
import Mathlib.Algebra.BigOperators.Group.Finset.Piecewise
import Mathlib.Data.Fintype.Basic

namespace PosixLab.Monitor

open PosixLab

variable {τ : Type*} [DecidableEq τ]

/-! ## 1. Roles -/

inductive Role
  | producer
  | consumer
deriving DecidableEq

/-- Who calls the function. -/
def BufferOp.role : BufferOp → Role
  | .insert _ => .producer
  | .remove => .consumer

/-- How many times the function of the role can go through its loop without waiting. -/
def BufferT.turns (bb : BufferT) : Role → Int
  | .producer => bufferSize - bb.totalitems
  | .consumer => bb.totalitems

theorem BufferOp.mustWait_iff {bb : BufferT} {op : BufferOp} :
    op.mustWait bb = true ↔ bb.turns op.role ≤ 0 := by
  cases op <;> simp [BufferOp.mustWait, BufferOp.role, BufferT.turns]

omit [DecidableEq τ] in
/-- The statements behind the loop use up a turn of their own role and make one for the other. -/
theorem BufferOp.turns_run (bb : BufferT) (t : τ) (op : BufferOp) (r : Role) :
    (op.run bb t).1.turns r = bb.turns r + if op.role = r then -1 else 1 := by
  cases op <;> cases r <;>
    simp [BufferOp.run, BufferOp.role, BufferT.turns, BufferT.insert, BufferT.remove] <;> omega

/-- A function signals the condition that the other one waits on. -/
theorem BufferOp.waitsOn_eq_signals_iff {op op' : BufferOp} :
    op'.waitsOn = op.signals ↔ op'.role ≠ op.role := by
  cases op <;> cases op' <;> simp [BufferOp.waitsOn, BufferOp.signals, BufferOp.role]

/-! ## 2. Who covers a turn -/

/-- Inside `pthread_cond_wait`, and nobody has woken the thread. -/
def BufferFrame.waits (f : BufferFrame) (c : Cond) : Bool :=
  f.pc = .blocked false ∧ f.op.waitsOn = c

/-- The call is awake for a turn of role `r`, or is of the other role and has still to signal. -/
def BufferFrame.covers (r : Role) (f : BufferFrame) : Bool :=
  if f.op.role = r then
    f.pc = .blocked true ∨ f.pc = .test ∧ f.status = 0 ∨ f.pc = .update
  else f.pc = .signal

def BufferSys.waits (s : BufferSys τ) (c : Cond) (t : τ) : Bool :=
  (s.frames t).any fun f => f.waits c

/-- The number of threads that cover a turn of role `r`. -/
def BufferSys.covering [Fintype τ] (s : BufferSys τ) (r : Role) : Nat :=
  ∑ t, ((s.frames t).any fun f => f.covers r).toNat

theorem BufferSys.covering_set [Fintype τ] (s : BufferSys τ) (t : τ) (f : Option BufferFrame)
    (r : Role) :
    (s.set t f).covering r + ((s.frames t).any fun f => f.covers r).toNat =
      s.covering r + (f.any fun f => f.covers r).toNat := by
  have hcomp : ∀ u, (((s.set t f).frames u).any fun f => f.covers r).toNat =
      Function.update (fun u => ((s.frames u).any fun f => f.covers r).toNat) t
        (f.any fun f => f.covers r).toNat u :=
    fun u => Function.apply_update (fun _ g => (Option.any (fun f => f.covers r) g).toNat)
      s.frames t f u
  have ht : t ∈ Finset.univ := Finset.mem_univ t
  simp only [BufferSys.covering, hcomp]
  rw [Finset.sum_update_of_mem ht, Finset.sum_eq_add_sum_sdiff_singleton_of_mem ht]
  omega

/-- The condition of the runs: a thread keeps to its role, a signal wakes a waiter of its
condition if there is one, and a woken wait returns 0. -/
def WakesOne (role : τ → Role) (s : BufferSys τ) : BufferAction τ → Prop
  | .call t op => op.role = role t
  | .resume _ status => status = 0
  | .signal t status woken => status = 0 ∧
    (woken = none → ∀ u, (s.frames t).all (fun f => !s.waits f.op.signals u) = true)
  | _ => True

instance [Fintype τ] (role : τ → Role) (s : BufferSys τ) :
    (a : BufferAction τ) → Decidable (WakesOne role s a)
  | .call _ _ | .resume _ _ => inferInstanceAs (Decidable (_ = _))
  | .signal _ _ _ => inferInstanceAs (Decidable (_ ∧ _))
  | .lock _ _ | .test _ | .wait _ _ | .wake _ | .update _ | .unlock _ _ =>
    inferInstanceAs (Decidable True)

/-! ## 3. The invariant -/

/-- Some thread waits in the function of role `r`, and nobody has woken it. -/
def BufferSys.Waiting (s : BufferSys τ) (r : Role) : Prop :=
  ∃ t f, s.frames t = some f ∧ f.pc = .blocked false ∧ f.op.role = r

/-- Each turn of a role that has a waiting thread is covered. -/
def Covered [Fintype τ] (s : BufferSys τ) : Prop :=
  ∀ r, s.Waiting r → s.bb.turns r ≤ s.covering r

/-- A thread in its critical section owns the mutex, whatever the library calls return. -/
def Exclusive (s : BufferSys τ) : Prop := ∀ t, s.holds t = true → s.owner = some t

/-- A thread that is about to wait has nothing to go on with. -/
def MustWait (s : BufferSys τ) : Prop :=
  ∀ t op st, s.frames t = some ⟨.wait, op, st⟩ → op.mustWait s.bb = true

section

variable {s s' : BufferSys τ} {a : BufferAction τ} {ev : List (BufferEvent τ)}

theorem Exclusive.set {s₁ : BufferSys τ} {t : τ} {f : Option BufferFrame}
    (h : ∀ u, u ≠ t → s₁.holds u = true → s₁.owner = some u)
    (ht : (f.any fun f => f.pc.holds) = true → s₁.owner = some t) : Exclusive (s₁.set t f) := by
  intro u hu
  by_cases hut : u = t
  · subst hut
    exact ht (by simpa [BufferSys.holds] using hu)
  · rw [BufferSys.holds_set_of_ne hut] at hu
    exact h u hut hu

theorem Exclusive.step (h : Exclusive s) (hm : BufferMove s a s' ev) : Exclusive s' := by
  -- the mutex is free, so nobody is in its critical section
  have hfree : s.owner = none → ∀ u, s.holds u = true → False := by
    intro hnone u hu
    simpa [hnone] using h u hu
  -- one thread is, so nobody else is
  have hother : ∀ {t : τ} {f : BufferFrame}, s.frames t = some f → f.pc.holds = true →
      ∀ u, u ≠ t → s.holds u = true → False := by
    intro t f hf hpc u hut hu
    have ht : s.owner = some t := h t (by simpa [BufferSys.holds, hf] using hpc)
    exact hut (Option.some.inj ((h u hu).symm.trans ht))
  cases hm with
  | lock t op st hf hnone | resume t op st status hf hnone =>
    exact .set (fun u _ hu => (hfree hnone u hu).elim) fun _ => rfl
  | wait t op st hf =>
    exact .set (fun u hut hu => (hother hf rfl u hut hu).elim) fun hpc => by cases hpc
  | unlock t op st status hf | bail t op st status hf =>
    exact .set (fun u hut hu => (hother hf rfl u hut hu).elim) fun hpc => by cases hpc
  | signal t op st woken s₁ hf hw =>
    obtain ⟨-, howner, hholds, -⟩ := BufferSys.wakeUp_spec hw
    refine .set (fun u _ hu => ?_) fun _ => ?_
    · rw [howner]
      exact h u (by rwa [hholds] at hu)
    · rw [howner]
      exact h t (by simp [BufferSys.holds, hf, BufferPc.holds])
  | call t op hf | lockFails t op st status hf hst | wake t op st hf =>
    exact .set (fun u _ hu => h u hu) fun hpc => by cases hpc
  | testWait t op hf hw | testFails t op status hf hst | testGo t op hf hgo
  | waitFails t op st status hf hst | update t op st hf
  | signalFails t op st status woken hf hst =>
    exact .set (fun u _ hu => h u hu) fun _ =>
      h t (by simp [BufferSys.holds, hf, BufferPc.holds])

theorem MustWait.step (h : MustWait s) (he : Exclusive s) (hm : BufferMove s a s' ev) :
    MustWait s' := by
  have hset : ∀ {s₁ : BufferSys τ} {t : τ} {f : Option BufferFrame},
      (∀ u, u ≠ t → ∀ op st, s₁.frames u = some ⟨.wait, op, st⟩ → op.mustWait s₁.bb = true) →
      (∀ op st, f = some ⟨.wait, op, st⟩ → op.mustWait s₁.bb = true) → MustWait (s₁.set t f) := by
    intro s₁ t f hothers hf u op st hu
    by_cases hut : u = t
    · subst hut
      exact hf op st (by simpa using hu)
    · rw [BufferSys.frames_set_of_ne hut] at hu
      exact hothers u hut op st hu
  cases hm with
  | testWait t op hf hw =>
    refine hset (fun u _ => h u) fun op' st h' => ?_
    cases h'
    exact hw
  | update t op st hf =>
    -- the thread that updates is the only one in its critical section
    refine hset (fun u hut op' st' hu => ?_) fun op' st' h' => by cases h'
    have ht : s.owner = some t := he t (by simp [BufferSys.holds, hf, BufferPc.holds])
    have hu : s.owner = some u :=
      he u (by simp [BufferSys.holds, show s.frames u = _ from hu, BufferPc.holds])
    exact absurd (Option.some.inj (hu.symm.trans ht)) hut
  | signal t op st woken s₁ hf hw =>
    refine hset (fun u _ op' st' hu => ?_) fun op' st' h' => by cases h'
    rcases BufferSys.wakeUp_cases hw with rfl | ⟨v, f, hv, hpc, -, rfl⟩
    · exact h u op' st' hu
    · by_cases huv : u = v
      · subst huv
        simp at hu
      · rw [BufferSys.frames_set_of_ne huv] at hu
        exact h u op' st' hu
  | _ => exact hset (fun u _ => h u) fun op' st' h' => by cases h'

variable [Fintype τ]

omit [Fintype τ] in
theorem BufferSys.waiting_set {t : τ} {f : Option BufferFrame} {r : Role}
    (h : (s.set t f).Waiting r) :
    (∃ g, f = some g ∧ g.pc = .blocked false ∧ g.op.role = r) ∨ s.Waiting r := by
  obtain ⟨u, g, hu, hpc, hr⟩ := h
  by_cases hut : u = t
  · subst hut
    exact Or.inl ⟨g, by simpa using hu, hpc, hr⟩
  · rw [BufferSys.frames_set_of_ne hut] at hu
    exact Or.inr ⟨u, g, hu, hpc, hr⟩

/-- A thread goes on: it may wait if there is no turn for it, and it stops covering a turn only
if there is one less, or none, or nobody who waits for it. -/
theorem Covered.set {s₁ : BufferSys τ} {t : τ} {f : Option BufferFrame} (h : Covered s)
    (hframes : s₁.frames = s.frames)
    (hwait : ∀ g, f = some g → g.pc = .blocked false → s₁.bb.turns g.op.role ≤ 0)
    (hcov : ∀ r, s₁.bb.turns r + ((s.frames t).any fun f => f.covers r).toNat ≤
        s.bb.turns r + (f.any fun f => f.covers r).toNat ∨
      s₁.bb.turns r ≤ 0 ∨ ¬s.Waiting r) : Covered (s₁.set t f) := by
  intro r hr
  rw [BufferSys.set_bb]
  rcases BufferSys.waiting_set hr with ⟨g, hf, hpc, rfl⟩ | hr
  · exact (hwait g hf hpc).trans (Int.natCast_nonneg _)
  · have hr : s.Waiting r := by rwa [BufferSys.Waiting, hframes] at hr
    have hsum := BufferSys.covering_set s₁ t f r
    have hsame : s₁.covering r = s.covering r := by simp only [BufferSys.covering, hframes]
    rw [hsame, hframes] at hsum
    have hold := h r hr
    rcases hcov r with hle | hle | hnone
    · omega
    · omega
    · exact absurd hr hnone

/-- The turn that a signal stops covering goes to the thread it wakes. -/
theorem Covered.signal {s₁ : BufferSys τ} {t : τ} {op : BufferOp} {st : Int} {woken : Option τ}
    (h : Covered s) (hf : s.frames t = some ⟨.signal, op, st⟩)
    (hone : woken = none → ∀ u, (s.frames t).all (fun f => !s.waits f.op.signals u) = true)
    (hwake : s.wakeUp op.signals woken = some s₁) :
    Covered (s₁.set t (some ⟨.unlock, op, 0⟩)) := by
  cases woken with
  | none =>
    cases hwake
    refine h.set rfl (fun g hg hpc => ?_) fun r => ?_
    · cases hg
      cases hpc
    · by_cases hr : op.role = r
      · exact Or.inl (by simp [hf, BufferFrame.covers, hr])
      · refine Or.inr (Or.inr ?_)
        rintro ⟨u, f, hu, hpc, rfl⟩
        have hnone := hone rfl u
        simp [hf, BufferSys.waits, hu, BufferFrame.waits, hpc,
          BufferOp.waitsOn_eq_signals_iff.mpr (Ne.symm hr)] at hnone
  | some u =>
    obtain ⟨f, hu, hpc, hon, rfl⟩ := BufferSys.wakeUp_some hwake
    have hother : f.op.role ≠ op.role := BufferOp.waitsOn_eq_signals_iff.mp hon
    have htu : t ≠ u := by
      rintro rfl
      rw [hf] at hu
      cases hu
      cases hpc
    intro r hr
    have hwait : s.Waiting r := by
      rcases BufferSys.waiting_set hr with ⟨g, hg, hpc', -⟩ | hr
      · cases hg
        cases hpc'
      · rcases BufferSys.waiting_set hr with ⟨g, hg, hpc', -⟩ | hr
        · cases hg
          cases hpc'
        · exact hr
    have hsum₁ := BufferSys.covering_set s u (some { f with pc := .blocked true }) r
    have hsum₂ := BufferSys.covering_set (s.set u (some { f with pc := .blocked true })) t
      (some ⟨.unlock, op, 0⟩) r
    rw [BufferSys.frames_set_of_ne htu, hf] at hsum₂
    rw [hu] at hsum₁
    have hold := h r hwait
    rw [BufferSys.set_bb, BufferSys.set_bb]
    by_cases hr : op.role = r
    · simp [BufferFrame.covers, hpc, hr] at hsum₁ hsum₂
      omega
    · have hfr : f.op.role = r := by
        revert hother hr
        cases op.role <;> cases f.op.role <;> cases r <;> simp
      simp [BufferFrame.covers, hpc, hr, hfr] at hsum₁ hsum₂
      omega

theorem Covered.step {role : τ → Role} (h : Covered s) (hw : MustWait s)
    (hok : WakesOne role s a) (hm : BufferMove s a s' ev) : Covered s' := by
  cases hm with
  | call t op hf | lock t op _ hf _ | testGo t op hf _ | waitFails t op _ _ hf _
  | wake t op _ hf =>
    refine h.set rfl (fun g hg hpc => ?_) fun r => Or.inl ?_
    · cases hg
      cases hpc
    · simp [hf, BufferFrame.covers]
  | lockFails t op _ _ hf _ | unlock t op _ _ hf | bail t op _ _ hf =>
    refine h.set rfl (fun g hg hpc => ?_) fun r => Or.inl ?_
    · cases hg
    · simp [hf, BufferFrame.covers]
  | testWait t op hf hwait =>
    -- the thread gives up the turn it was awake for, but there is none
    refine h.set rfl (fun g hg hpc => ?_) fun r => ?_
    · cases hg
      cases hpc
    · by_cases hr : op.role = r
      · subst hr
        exact Or.inr (Or.inl (BufferOp.mustWait_iff.mp hwait))
      · exact Or.inl (by simp [hf, BufferFrame.covers, hr])
  | testFails t op status hf hst =>
    refine h.set rfl (fun g hg hpc => ?_) fun r => Or.inl ?_
    · cases hg
      cases hpc
    · simp [hf, BufferFrame.covers, hst]
  | wait t op st hf =>
    refine h.set rfl (fun g hg hpc => ?_) fun r => Or.inl ?_
    · cases hg
      exact BufferOp.mustWait_iff.mp (hw t op st hf)
    · simp [hf, BufferFrame.covers]
  | resume t op st status hf hfree =>
    obtain rfl : status = 0 := hok
    refine h.set rfl (fun g hg hpc => ?_) fun r => Or.inl ?_
    · cases hg
      cases hpc
    · simp [hf, BufferFrame.covers]
  | update t op st hf =>
    -- one turn less for its own role, one more for the other, which it now covers
    refine h.set rfl (fun g hg hpc => ?_) fun r => Or.inl ?_
    · cases hg
      cases hpc
    · rw [BufferOp.turns_run]
      by_cases hr : op.role = r <;> simp [hf, BufferFrame.covers, hr]
  | signal t op st woken s₁ hf hwake => exact h.signal hf hok.2 hwake
  | signalFails t op st status woken hf hst => exact absurd hok.1 hst

end

/-! ## 4. No deadlock -/

/-- What the threads keep, each in its role. -/
structure Awake [Fintype τ] (role : τ → Role) (s : BufferSys τ) : Prop where
  roles : ∀ t f, s.frames t = some f → f.op.role = role t
  exclusive : Exclusive s
  mustWait : MustWait s
  covered : Covered s

section

variable {s s' : BufferSys τ} {a : BufferAction τ} {ev : List (BufferEvent τ)} {role : τ → Role}

theorem roles_step (h : ∀ t f, s.frames t = some f → f.op.role = role t)
    (hok : WakesOne role s a) (hm : BufferMove s a s' ev) :
    ∀ t f, s'.frames t = some f → f.op.role = role t := by
  have hset : ∀ {s₁ : BufferSys τ} {t : τ} {f : Option BufferFrame},
      (∀ u g, s₁.frames u = some g → g.op.role = role u) →
      (∀ g, f = some g → g.op.role = role t) →
      ∀ u g, (s₁.set t f).frames u = some g → g.op.role = role u := by
    intro s₁ t f h₁ hf u g hu
    by_cases hut : u = t
    · subst hut
      exact hf g (by simpa using hu)
    · rw [BufferSys.frames_set_of_ne hut] at hu
      exact h₁ u g hu
  cases hm with
  | call t op hf =>
    refine hset h fun g hg => ?_
    cases hg
    exact hok
  | signal t op st woken s₁ hf hw =>
    refine hset ?_ fun g hg => ?_
    · rcases BufferSys.wakeUp_cases hw with rfl | ⟨u, f, hu, -, -, rfl⟩
      · exact h
      · refine hset h fun g hg => ?_
        cases hg
        exact h u f hu
    · have hkept : op.role = role t := h t _ hf
      cases hg
      exact hkept
  | lockFails t op _ _ hf _ | unlock t op _ _ hf | bail t op _ _ hf =>
    exact hset h fun g hg => by cases hg
  | lock t op _ hf _ | testWait t op hf _ | testFails t op _ hf _ | testGo t op hf _
  | wait t op _ hf | waitFails t op _ _ hf _ | wake t op _ hf | resume t op _ _ hf _
  | update t op _ hf | signalFails t op _ _ _ hf _ =>
    have hkept : op.role = role t := h t _ hf
    refine hset h fun g hg => ?_
    cases hg
    exact hkept

variable [Fintype τ]

omit [DecidableEq τ] in
theorem awake_init : Awake role (.init : BufferSys τ) := by
  refine ⟨fun t f h => ?_, fun t h => ?_, fun t op st h => ?_, fun r h => ?_⟩
  · cases h
  · simp [BufferSys.holds, BufferSys.init] at h
  · cases h
  · obtain ⟨t, f, hf, -⟩ := h
    cases hf

theorem Awake.step (h : Awake role s) (hok : WakesOne role s a) (hm : BufferMove s a s' ev) :
    Awake role s' :=
  ⟨roles_step h.roles hok hm, h.exclusive.step hm, h.mustWait.step h.exclusive hm,
    h.covered.step h.mustWait hok hm⟩

omit [DecidableEq τ] in
/-- Where every thread waits and none has been woken, no turn of a role in use is left. -/
theorem Awake.turns_le (h : Awake role s)
    (hall : ∀ t, ∃ f, s.frames t = some f ∧ f.pc = .blocked false) (t : τ) :
    s.bb.turns (role t) ≤ 0 := by
  have hnone : s.covering (role t) = 0 := by
    refine Finset.sum_eq_zero fun u _ => ?_
    obtain ⟨f, hf, hpc⟩ := hall u
    simp [hf, BufferFrame.covers, hpc]
  obtain ⟨f, hf, hpc⟩ := hall t
  have hle := h.covered (role t) ⟨t, f, hf, hpc, h.roles t f hf⟩
  omega

/-- With any number of producers and consumers, at least one of each, and any interleaving in
which a signal wakes a waiter of its condition if there is one, spurious wake-ups included, it
never happens that every thread is inside `pthread_cond_wait` and none has been woken. -/
theorem no_lost_wakeup {log : List (BufferEvent τ)} (hproducer : ∃ t, role t = .producer)
    (hconsumer : ∃ t, role t = .consumer) (h : Runs bufferStep (WakesOne role) .init log s) :
    ¬∀ t, ∃ f, s.frames t = some f ∧ f.pc = .blocked false := by
  have ha : Awake role s := by
    refine h.invariant (I := fun _ s => Awake role s) awake_init ?_
    intro log s a s' ev _ ih hok hs
    exact ih.step hok (bufferStep_move hs)
  intro hall
  obtain ⟨p, hp⟩ := hproducer
  obtain ⟨c, hc⟩ := hconsumer
  have hfull := ha.turns_le hall p
  have hempty := ha.turns_le hall c
  -- the buffer would be full and empty
  simp only [hp, hc, BufferT.turns, bufferSize] at hfull hempty
  omega

end

/-- Thread 0 produces, threads 1 and 2 consume.  The wake-up of the one that waits comes too
late, as the other one has taken the item, and both wait. -/
def takenFirst : List (BufferAction (Fin 3)) :=
  [.call 1 .remove, .lock 1 0, .test 1, .wait 1 0, .call 0 (.insert 7), .lock 0 0, .test 0,
    .update 0, .call 2 .remove, .signal 0 0 (some 1), .unlock 0 0, .lock 2 0, .test 2, .update 2,
    .signal 2 0 none, .unlock 2 0, .resume 1 0, .test 1, .wait 1 0, .call 2 .remove, .lock 2 0,
    .test 2, .wait 2 0]

theorem no_lost_wakeup_takenFirst : ∃ log s,
    Runs bufferStep (WakesOne fun t : Fin 3 => if t = 0 then .producer else .consumer) .init log
      s ∧
    s.waits .full 1 = true ∧ s.waits .full 2 = true ∧
    ¬∀ t, ∃ f, s.frames t = some f ∧ f.pc = .blocked false := by
  obtain ⟨log, s, hrun, hp⟩ : ∃ log s,
      Runs bufferStep (WakesOne fun t : Fin 3 => if t = 0 then .producer else .consumer) .init
        log s ∧
      (s.waits .full 1 && s.waits .full 2) = true :=
    exists_runs_of_exec takenFirst _ (by decide)
  obtain ⟨h1, h2⟩ := Bool.and_eq_true_iff.mp hp
  exact ⟨log, s, hrun, h1, h2, no_lost_wakeup ⟨0, rfl⟩ ⟨1, rfl⟩ hrun⟩

end PosixLab.Monitor
