/-
# The bounded buffer

`boundedbuffer.c` keeps up to `BUFFER_SIZE` items in a circular array, under a mutex and with
two condition variables: `insert_item` waits on `empty` while the buffer is full, `remove_item`
waits on `full` while it is empty, and each signals the other one.  The two versions of the file
have the same two functions, up to the parameter `id`.

The machine has any number of threads that call the two functions in any order.  A step is one
call of the pthread library, one test of the loop condition, or the statements between the loop
and the signal, which nobody sees the middle of.  What a library call returns comes with the
step; so does the thread that a signal wakes, and a thread may wake up without one.
`bounded_buffer_fifo` says that nothing is lost, duplicated or reordered.
-/
import PosixLab.Basis.Ring
import PosixLab.Basis.Runs

namespace PosixLab.Monitor

open PosixLab

variable {τ : Type*} [DecidableEq τ]

/-! ## 1. The buffer -/

/-- `BUFFER_SIZE`. -/
def bufferSize : Nat := 20

/-- `buffer_t`, without the mutex and the condition variables. -/
structure BufferT where
  item : Nat → Int
  totalitems : Int
  in_ : Nat
  out : Nat

/-- The buffer `bb` at the start. -/
def BufferT.init : BufferT := ⟨fun _ => 0, 0, 0, 0⟩

/-- The statements of `insert_item` that store an item. -/
def BufferT.insert (bb : BufferT) (item : Int) : BufferT :=
  { bb with
    item := Function.update bb.item bb.in_ item
    in_ := (bb.in_ + 1) % bufferSize
    totalitems := bb.totalitems + 1 }

/-- The statements of `remove_item` that take an item out. -/
def BufferT.remove (bb : BufferT) : BufferT × Int :=
  ({ bb with out := (bb.out + 1) % bufferSize, totalitems := bb.totalitems - 1 },
    bb.item bb.out)

/-- The items in the buffer, from index `out` on. -/
def BufferT.stored (bb : BufferT) : List Int :=
  ring bufferSize bb.item bb.out bb.totalitems.toNat

/-! ## 2. The threads -/

/-- A call of one of the two functions. -/
inductive BufferOp
  | insert (item : Int)
  | remove
deriving DecidableEq

/-- The condition of the loop: the buffer is full, or empty. -/
def BufferOp.mustWait (bb : BufferT) : BufferOp → Bool
  | .insert _ => bufferSize ≤ bb.totalitems
  | .remove => bb.totalitems ≤ 0

/-- The two condition variables. -/
inductive Cond
  | full
  | empty
deriving DecidableEq

/-- The condition variable the function waits on. -/
def BufferOp.waitsOn : BufferOp → Cond
  | .insert _ => .empty
  | .remove => .full

/-- The condition variable the function signals. -/
def BufferOp.signals : BufferOp → Cond
  | .insert _ => .full
  | .remove => .empty

/-- Where a call stands, named after what it does next. -/
inductive BufferPc
  | lock
  | test
  | wait
  /-- inside `pthread_cond_wait`; `woken` when it is on its way back to the mutex -/
  | blocked (woken : Bool)
  | update
  | signal
  | unlock
  /-- the `unlock` and the `return status` behind a call that failed -/
  | bail
deriving DecidableEq

/-- A call, and its variable `status`. -/
structure BufferFrame where
  pc : BufferPc
  op : BufferOp
  status : Int
deriving DecidableEq

/-- The buffer, the owner of the mutex and the calls. -/
structure BufferSys (τ : Type*) where
  bb : BufferT
  owner : Option τ
  frames : τ → Option BufferFrame

def BufferSys.init : BufferSys τ := ⟨.init, none, fun _ => none⟩

/-- The thread goes on with another frame, or returns. -/
def BufferSys.set (s : BufferSys τ) (t : τ) (f : Option BufferFrame) : BufferSys τ :=
  { s with frames := Function.update s.frames t f }

/-- A step of thread `t`; `status` is what the library call of the step returns. -/
inductive BufferAction (τ : Type*)
  | call (t : τ) (op : BufferOp)
  | lock (t : τ) (status : Int)
  | test (t : τ)
  | wait (t : τ) (status : Int)
  | wake (t : τ)
  | resume (t : τ) (status : Int)
  | update (t : τ)
  | signal (t : τ) (status : Int) (woken : Option τ)
  | unlock (t : τ) (status : Int)

/-- A call and its return, and an item that goes in or comes out. -/
inductive BufferEvent (τ : Type*)
  | call (t : τ) (op : BufferOp)
  | insert (t : τ) (item : Int)
  | remove (t : τ) (item : Int)
  | ret (t : τ) (op : BufferOp) (status : Int)
deriving DecidableEq

/-- The waiting thread `u` of condition `c` is woken, if there is one to be. -/
def BufferSys.wakeUp (s : BufferSys τ) (c : Cond) : Option τ → Option (BufferSys τ)
  | none => some s
  | some u =>
    match s.frames u with
    | some f =>
      if f.pc = .blocked false ∧ f.op.waitsOn = c then
        some (s.set u (some { f with pc := .blocked true }))
      else none
    | none => none

/-- What the statements behind the loop do. -/
def BufferOp.run (bb : BufferT) (t : τ) : BufferOp → BufferT × BufferEvent τ
  | .insert item => (bb.insert item, .insert t item)
  | .remove => (bb.remove.1, .remove t bb.remove.2)

/-- One step. -/
def bufferStep (s : BufferSys τ) :
    BufferAction τ → Option (BufferSys τ × List (BufferEvent τ))
  | .call t op =>
    match s.frames t with
    | none => some (s.set t (some ⟨.lock, op, 0⟩), [.call t op])
    | some _ => none
  | .lock t status =>
    match s.frames t with
    | some ⟨.lock, op, _⟩ =>
      if status = 0 then
        if s.owner = none then
          some ({ s with owner := some t }.set t (some ⟨.test, op, 0⟩), [])
        else none
      else some (s.set t none, [.ret t op status])
    | _ => none
  | .test t =>
    match s.frames t with
    | some ⟨.test, op, status⟩ =>
      if op.mustWait s.bb = true ∧ status = 0 then some (s.set t (some ⟨.wait, op, status⟩), [])
      else if status ≠ 0 then some (s.set t (some ⟨.bail, op, status⟩), [])
      else some (s.set t (some ⟨.update, op, status⟩), [])
    | _ => none
  | .wait t status =>
    match s.frames t with
    | some ⟨.wait, op, _⟩ =>
      -- the wait releases the mutex, or fails at once
      if status = 0 then
        some ({ s with owner := none }.set t (some ⟨.blocked false, op, 0⟩), [])
      else some (s.set t (some ⟨.test, op, status⟩), [])
    | _ => none
  | .wake t =>
    match s.frames t with
    | some ⟨.blocked false, op, status⟩ =>
      some (s.set t (some ⟨.blocked true, op, status⟩), [])
    | _ => none
  | .resume t status =>
    match s.frames t with
    | some ⟨.blocked true, op, _⟩ =>
      if s.owner = none then
        some ({ s with owner := some t }.set t (some ⟨.test, op, status⟩), [])
      else none
    | _ => none
  | .update t =>
    match s.frames t with
    | some ⟨.update, op, status⟩ =>
      let r := op.run s.bb t
      some ({ s with bb := r.1 }.set t (some ⟨.signal, op, status⟩), [r.2])
    | _ => none
  | .signal t status woken =>
    match s.frames t with
    | some ⟨.signal, op, _⟩ =>
      if status = 0 then
        (s.wakeUp op.signals woken).map fun s' => (s'.set t (some ⟨.unlock, op, 0⟩), [])
      else some (s.set t (some ⟨.bail, op, status⟩), [])
    | _ => none
  | .unlock t status =>
    match s.frames t with
    | some ⟨.unlock, op, _⟩ =>
      some ({ s with owner := if status = 0 then none else s.owner }.set t none,
        [.ret t op status])
    | some ⟨.bail, op, st⟩ =>
      some ({ s with owner := if status = 0 then none else s.owner }.set t none,
        [.ret t op st])
    | _ => none

/-- Every library call succeeds. -/
def Succeeds (_ : BufferSys τ) : BufferAction τ → Prop
  | .lock _ status | .wait _ status | .resume _ status | .signal _ status _
  | .unlock _ status => status = 0
  | _ => True

instance (s : BufferSys τ) : (a : BufferAction τ) → Decidable (Succeeds s a)
  | .lock _ _ | .wait _ _ | .resume _ _ | .signal _ _ _ | .unlock _ _ =>
    inferInstanceAs (Decidable (_ = _))
  | .call _ _ | .test _ | .wake _ | .update _ => inferInstanceAs (Decidable True)

/-! ## 3. What a step can be -/

/-- Each step, with its guard and its effect. -/
inductive BufferMove (s : BufferSys τ) :
    BufferAction τ → BufferSys τ → List (BufferEvent τ) → Prop
  | call (t : τ) (op : BufferOp) (hf : s.frames t = none) :
      BufferMove s (.call t op) (s.set t (some ⟨.lock, op, 0⟩)) [.call t op]
  | lock (t : τ) (op : BufferOp) (st : Int) (hf : s.frames t = some ⟨.lock, op, st⟩)
      (hfree : s.owner = none) :
      BufferMove s (.lock t 0) ({ s with owner := some t }.set t (some ⟨.test, op, 0⟩)) []
  | lockFails (t : τ) (op : BufferOp) (st status : Int)
      (hf : s.frames t = some ⟨.lock, op, st⟩) (hst : status ≠ 0) :
      BufferMove s (.lock t status) (s.set t none) [.ret t op status]
  | testWait (t : τ) (op : BufferOp) (hf : s.frames t = some ⟨.test, op, 0⟩)
      (hwait : op.mustWait s.bb = true) :
      BufferMove s (.test t) (s.set t (some ⟨.wait, op, 0⟩)) []
  | testFails (t : τ) (op : BufferOp) (status : Int)
      (hf : s.frames t = some ⟨.test, op, status⟩) (hst : status ≠ 0) :
      BufferMove s (.test t) (s.set t (some ⟨.bail, op, status⟩)) []
  | testGo (t : τ) (op : BufferOp) (hf : s.frames t = some ⟨.test, op, 0⟩)
      (hgo : op.mustWait s.bb = false) :
      BufferMove s (.test t) (s.set t (some ⟨.update, op, 0⟩)) []
  | wait (t : τ) (op : BufferOp) (st : Int) (hf : s.frames t = some ⟨.wait, op, st⟩) :
      BufferMove s (.wait t 0) ({ s with owner := none }.set t (some ⟨.blocked false, op, 0⟩)) []
  | waitFails (t : τ) (op : BufferOp) (st status : Int)
      (hf : s.frames t = some ⟨.wait, op, st⟩) (hst : status ≠ 0) :
      BufferMove s (.wait t status) (s.set t (some ⟨.test, op, status⟩)) []
  | wake (t : τ) (op : BufferOp) (st : Int) (hf : s.frames t = some ⟨.blocked false, op, st⟩) :
      BufferMove s (.wake t) (s.set t (some ⟨.blocked true, op, st⟩)) []
  | resume (t : τ) (op : BufferOp) (st status : Int)
      (hf : s.frames t = some ⟨.blocked true, op, st⟩) (hfree : s.owner = none) :
      BufferMove s (.resume t status)
        ({ s with owner := some t }.set t (some ⟨.test, op, status⟩)) []
  | update (t : τ) (op : BufferOp) (st : Int) (hf : s.frames t = some ⟨.update, op, st⟩) :
      BufferMove s (.update t)
        ({ s with bb := (op.run s.bb t).1 }.set t (some ⟨.signal, op, st⟩)) [(op.run s.bb t).2]
  | signal (t : τ) (op : BufferOp) (st : Int) (woken : Option τ) (s₁ : BufferSys τ)
      (hf : s.frames t = some ⟨.signal, op, st⟩) (hw : s.wakeUp op.signals woken = some s₁) :
      BufferMove s (.signal t 0 woken) (s₁.set t (some ⟨.unlock, op, 0⟩)) []
  | signalFails (t : τ) (op : BufferOp) (st status : Int) (woken : Option τ)
      (hf : s.frames t = some ⟨.signal, op, st⟩) (hst : status ≠ 0) :
      BufferMove s (.signal t status woken) (s.set t (some ⟨.bail, op, status⟩)) []
  | unlock (t : τ) (op : BufferOp) (st status : Int)
      (hf : s.frames t = some ⟨.unlock, op, st⟩) :
      BufferMove s (.unlock t status)
        ({ s with owner := if status = 0 then none else s.owner }.set t none)
        [.ret t op status]
  | bail (t : τ) (op : BufferOp) (st status : Int) (hf : s.frames t = some ⟨.bail, op, st⟩) :
      BufferMove s (.unlock t status)
        ({ s with owner := if status = 0 then none else s.owner }.set t none) [.ret t op st]

theorem bufferStep_move {s s' : BufferSys τ} {a : BufferAction τ} {ev : List (BufferEvent τ)}
    (h : bufferStep s a = some (s', ev)) : BufferMove s a s' ev := by
  cases a with
  | call t op =>
    simp only [bufferStep] at h
    split at h
    · rename_i hf
      cases h
      exact .call t op hf
    · cases h
  | lock t status =>
    simp only [bufferStep] at h
    split at h
    · rename_i op st hf
      split at h
      · rename_i hst
        subst hst
        split at h
        · rename_i hfree
          cases h
          exact .lock t op st hf hfree
        · cases h
      · rename_i hst
        cases h
        exact .lockFails t op st status hf hst
    · cases h
  | test t =>
    simp only [bufferStep] at h
    split at h
    · rename_i op status hf
      split at h
      · rename_i hw
        obtain ⟨hw, rfl⟩ := hw
        cases h
        exact .testWait t op hf hw
      · rename_i hw
        split at h
        · rename_i hst
          cases h
          exact .testFails t op status hf hst
        · rename_i hst
          obtain rfl := not_not.mp hst
          cases h
          exact .testGo t op hf (by simpa using hw)
    · cases h
  | wait t status =>
    simp only [bufferStep] at h
    split at h
    · rename_i op st hf
      split at h
      · rename_i hst
        subst hst
        cases h
        exact .wait t op st hf
      · rename_i hst
        cases h
        exact .waitFails t op st status hf hst
    · cases h
  | wake t =>
    simp only [bufferStep] at h
    split at h
    · rename_i op st hf
      cases h
      exact .wake t op st hf
    · cases h
  | resume t status =>
    simp only [bufferStep] at h
    split at h
    · rename_i op st hf
      split at h
      · rename_i hfree
        cases h
        exact .resume t op st status hf hfree
      · cases h
    · cases h
  | update t =>
    simp only [bufferStep] at h
    split at h
    · rename_i op st hf
      cases h
      exact .update t op st hf
    · cases h
  | signal t status woken =>
    simp only [bufferStep] at h
    split at h
    · rename_i op st hf
      split at h
      · rename_i hst
        subst hst
        obtain ⟨s₁, hw, h⟩ := Option.map_eq_some_iff.mp h
        cases h
        exact .signal t op st woken s₁ hf hw
      · rename_i hst
        cases h
        exact .signalFails t op st status woken hf hst
    · cases h
  | unlock t status =>
    simp only [bufferStep] at h
    split at h
    · rename_i op st hf
      cases h
      exact .unlock t op st status hf
    · rename_i op st hf
      cases h
      exact .bail t op st status hf
    · cases h

/-! ## 4. The invariants -/

/-- Between the return of `pthread_mutex_lock` and the unlock, but not inside the wait. -/
def BufferPc.holds : BufferPc → Bool
  | .lock | .blocked _ => false
  | _ => true

/-- Whether the thread is in its critical section. -/
def BufferSys.holds (s : BufferSys τ) (t : τ) : Bool := (s.frames t).any fun f => f.pc.holds

/-- The owner of the mutex is the thread in its critical section. -/
def Owned (s : BufferSys τ) : Prop := ∀ t, s.owner = some t ↔ s.holds t = true

/-- A call behind its loop has found what it waited for, and has it still. -/
def Ready (s : BufferSys τ) : Prop :=
  ∀ t op st, s.frames t = some ⟨.update, op, st⟩ → op.mustWait s.bb = false

section

variable {s s' s₁ : BufferSys τ} {t u : τ} {f : Option BufferFrame}

@[simp] theorem BufferSys.set_bb : (s.set t f).bb = s.bb := rfl

@[simp] theorem BufferSys.set_owner : (s.set t f).owner = s.owner := rfl

@[simp] theorem BufferSys.frames_set_self : (s.set t f).frames t = f := Function.update_self ..

theorem BufferSys.frames_set_of_ne (h : u ≠ t) : (s.set t f).frames u = s.frames u :=
  Function.update_of_ne h _ _

theorem BufferSys.holds_set_of_ne (h : u ≠ t) : (s.set t f).holds u = s.holds u := by
  rw [BufferSys.holds, BufferSys.frames_set_of_ne h, BufferSys.holds]

theorem BufferSys.wakeUp_some {c : Cond} (h : s.wakeUp c (some u) = some s₁) :
    ∃ f, s.frames u = some f ∧ f.pc = .blocked false ∧ f.op.waitsOn = c ∧
      s₁ = s.set u (some { f with pc := .blocked true }) := by
  cases hf : s.frames u with
  | none => simp [BufferSys.wakeUp, hf] at h
  | some f =>
    simp only [BufferSys.wakeUp, hf] at h
    split at h
    · rename_i hu
      cases h
      exact ⟨f, rfl, hu.1, hu.2, rfl⟩
    · cases h

/-- Waking a thread up changes nothing but that it is awake. -/
theorem BufferSys.wakeUp_cases {c : Cond} {woken : Option τ} (h : s.wakeUp c woken = some s₁) :
    s₁ = s ∨ ∃ u f, s.frames u = some f ∧ f.pc = .blocked false ∧ f.op.waitsOn = c ∧
      s₁ = s.set u (some { f with pc := .blocked true }) := by
  cases woken with
  | none =>
    cases h
    exact Or.inl rfl
  | some u => exact Or.inr ⟨u, BufferSys.wakeUp_some h⟩

theorem BufferSys.wakeUp_spec {c : Cond} {woken : Option τ} (h : s.wakeUp c woken = some s₁) :
    s₁.bb = s.bb ∧ s₁.owner = s.owner ∧ (∀ u, s₁.holds u = s.holds u) ∧
      ∀ u op st, s₁.frames u = some ⟨.update, op, st⟩ → s.frames u = some ⟨.update, op, st⟩ := by
  rcases BufferSys.wakeUp_cases h with rfl | ⟨v, f, hf, hpc, -, rfl⟩
  · exact ⟨rfl, rfl, fun _ => rfl, fun _ _ _ h => h⟩
  · refine ⟨rfl, rfl, fun u => ?_, fun u op st hu => ?_⟩
    · by_cases huv : u = v
      · subst huv
        simp [BufferSys.holds, hf, hpc, BufferPc.holds]
      · exact BufferSys.holds_set_of_ne huv
    · by_cases huv : u = v
      · subst huv
        simp at hu
      · rwa [BufferSys.frames_set_of_ne huv] at hu

/-- What a step does to the mutex, by its thread: it takes it, gives it back, or leaves it. -/
theorem BufferMove.mutex {a : BufferAction τ} {ev : List (BufferEvent τ)}
    (hm : BufferMove s a s' ev) (hok : Succeeds s a) :
    ∃ t, (∀ u, u ≠ t → s'.holds u = s.holds u) ∧
      ((s.owner = none ∧ s'.owner = some t ∧ s.holds t = false ∧ s'.holds t = true) ∨
        (s.holds t = true ∧ s'.owner = none ∧ s'.holds t = false) ∨
        (s'.owner = s.owner ∧ s'.holds t = s.holds t)) := by
  have hother : ∀ {s : BufferSys τ} {t u : τ} {f}, u ≠ t → (s.set t f).holds u = s.holds u :=
    fun h => BufferSys.holds_set_of_ne h
  cases hm with
  | lock t op st hf hfree | resume t op st status hf hfree =>
    refine ⟨t, fun u hu => hother hu, Or.inl ⟨hfree, rfl, ?_, ?_⟩⟩
    · simp [BufferSys.holds, hf, BufferPc.holds]
    · simp [BufferSys.holds, BufferPc.holds]
  | wait t op st hf =>
    refine ⟨t, fun u hu => hother hu, Or.inr (Or.inl ⟨?_, rfl, ?_⟩)⟩
    · simp [BufferSys.holds, hf, BufferPc.holds]
    · simp [BufferSys.holds, BufferPc.holds]
  | unlock t op st status hf | bail t op st status hf =>
    obtain rfl : status = 0 := hok
    refine ⟨t, fun u hu => hother hu, Or.inr (Or.inl ⟨?_, rfl, ?_⟩)⟩
    · simp [BufferSys.holds, hf, BufferPc.holds]
    · simp [BufferSys.holds]
  | signal t op st woken s₁ hf hw =>
    obtain ⟨-, howner, hholds, -⟩ := BufferSys.wakeUp_spec hw
    refine ⟨t, fun u hu => (hother hu).trans (hholds u), Or.inr (Or.inr ⟨howner, ?_⟩)⟩
    simp [BufferSys.holds, hf, BufferPc.holds]
  | call t op hf | lockFails t op st status hf hst | testWait t op hf hw
  | testFails t op status hf hst | testGo t op hf hgo | waitFails t op st status hf hst
  | wake t op st hf | update t op st hf | signalFails t op st status woken hf hst =>
    refine ⟨t, fun u hu => hother hu, Or.inr (Or.inr ⟨rfl, ?_⟩)⟩
    simp [BufferSys.holds, hf, BufferPc.holds]

theorem Owned.step {a : BufferAction τ} {ev : List (BufferEvent τ)} (h : Owned s)
    (hok : Succeeds s a) (hm : BufferMove s a s' ev) : Owned s' := by
  obtain ⟨t, hothers, hcases⟩ := hm.mutex hok
  intro u
  by_cases hu : u = t
  · subst hu
    rcases hcases with ⟨-, howner, -, hholds⟩ | ⟨-, howner, hholds⟩ | ⟨howner, hholds⟩
    · simp [howner, hholds]
    · simp [howner, hholds]
    · rw [howner, hholds, h u]
  · rw [hothers u hu, ← h u]
    rcases hcases with ⟨hfree, howner, -, -⟩ | ⟨hholds, howner, -⟩ | ⟨howner, -⟩
    · simp [howner, hfree, Ne.symm hu]
    · rw [howner, (h t).mpr hholds]
      simp [Ne.symm hu]
    · rw [howner]

omit [DecidableEq τ] in
/-- One thread at a time is in its critical section. -/
theorem Owned.unique (h : Owned s) (ht : s.holds t = true) (hu : s.holds u = true) : t = u := by
  have ht' := (h t).mpr ht
  rw [(h u).mpr hu] at ht'
  exact (Option.some.inj ht').symm

theorem Ready.step {a : BufferAction τ} {ev : List (BufferEvent τ)} (h : Ready s) (ho : Owned s)
    (hm : BufferMove s a s' ev) : Ready s' := by
  have hset : ∀ {s₁ : BufferSys τ} {t : τ} {f : Option BufferFrame}, s₁.bb = s.bb →
      (∀ u op st, s₁.frames u = some ⟨.update, op, st⟩ → s.frames u = some ⟨.update, op, st⟩) →
      (∀ op st, f = some ⟨.update, op, st⟩ → op.mustWait s.bb = false) → Ready (s₁.set t f) := by
    intro s₁ t f hbb hframes hf u op st hu
    by_cases hut : u = t
    · subst hut
      rw [BufferSys.set_bb, hbb]
      exact hf op st (by simpa using hu)
    · rw [BufferSys.frames_set_of_ne hut] at hu
      rw [BufferSys.set_bb, hbb]
      exact h u op st (hframes u op st hu)
  cases hm with
  | testGo t op hf hgo =>
    refine hset rfl (fun _ _ _ h => h) fun op' st h => ?_
    cases h
    exact hgo
  | update t op st hf =>
    intro u op' st' hu
    by_cases hut : u = t
    · subst hut
      simp at hu
    · rw [BufferSys.frames_set_of_ne hut] at hu
      have htu := ho.unique (t := t) (u := u) (by simp [BufferSys.holds, hf, BufferPc.holds])
        (by simp [BufferSys.holds, show s.frames u = _ from hu, BufferPc.holds])
      exact absurd htu.symm hut
  | signal t op st woken s₁ hf hw =>
    obtain ⟨hbb, -, -, hframes⟩ := BufferSys.wakeUp_spec hw
    exact hset hbb hframes fun op' st h => by cases h
  | _ => exact hset rfl (fun _ _ _ h => h) fun op' st h => by cases h

end

/-! ## 5. First in, first out -/

def BufferEvent.inserted : BufferEvent τ → Option Int
  | .insert _ item => some item
  | _ => none

def BufferEvent.removed : BufferEvent τ → Option Int
  | .remove _ item => some item
  | _ => none

/-- The items inserted so far, in order. -/
def inserted (log : List (BufferEvent τ)) : List Int := log.filterMap BufferEvent.inserted

/-- The items removed so far, in order. -/
def removed (log : List (BufferEvent τ)) : List Int := log.filterMap BufferEvent.removed

/-- The buffer between two critical sections. -/
structure BufferT.Ok (bb : BufferT) : Prop where
  nonneg : 0 ≤ bb.totalitems
  le : bb.totalitems ≤ bufferSize
  out_lt : bb.out < bufferSize
  in_eq : bb.in_ = (bb.out + bb.totalitems.toNat) % bufferSize

theorem BufferT.ok_init : BufferT.init.Ok :=
  ⟨Int.le_refl _, by decide, by decide, rfl⟩

section

variable {bb : BufferT}

/-- An item that is inserted while there is room comes last. -/
theorem BufferT.Ok.insert (h : bb.Ok) (hroom : bb.totalitems < bufferSize) (item : Int) :
    (bb.insert item).Ok ∧ (bb.insert item).stored = bb.stored ++ [item] := by
  obtain ⟨hnonneg, -, hout, hin⟩ := h
  have hsucc : (bb.totalitems + 1).toNat = bb.totalitems.toNat + 1 := by omega
  refine ⟨⟨?_, ?_, hout, ?_⟩, ?_⟩
  · simp only [BufferT.insert]
    omega
  · simp only [BufferT.insert]
    omega
  · simp only [BufferT.insert, hin, hsucc, Nat.mod_add_mod, Nat.add_assoc]
  · simp only [BufferT.insert, BufferT.stored, hsucc, hin]
    exact ring_insert bb.item item (by omega)

/-- The item that is removed is the first one. -/
theorem BufferT.Ok.remove (h : bb.Ok) (hitems : 0 < bb.totalitems) :
    bb.remove.1.Ok ∧ bb.stored = bb.remove.2 :: bb.remove.1.stored := by
  obtain ⟨hnonneg, hle, hout, hin⟩ := h
  obtain ⟨n, hn⟩ : ∃ n, bb.totalitems.toNat = n + 1 := ⟨bb.totalitems.toNat - 1, by omega⟩
  have hpred : (bb.totalitems - 1).toNat = n := by omega
  refine ⟨⟨?_, ?_, Nat.mod_lt _ (by decide), ?_⟩, ?_⟩
  · simp only [BufferT.remove]
    omega
  · simp only [BufferT.remove]
    omega
  · simp only [BufferT.remove, hin, hn, hpred]
    rw [ring_index]
  · simp only [BufferT.remove, BufferT.stored, hn, hpred, ring_remove, Nat.mod_eq_of_lt hout]

end

/-- What the critical sections keep. -/
structure Fifo (log : List (BufferEvent τ)) (s : BufferSys τ) : Prop where
  owned : Owned s
  ready : Ready s
  ok : s.bb.Ok
  content : removed log ++ s.bb.stored = inserted log

omit [DecidableEq τ] in
theorem fifo_init : Fifo [] (BufferSys.init : BufferSys τ) := by
  refine ⟨fun t => ?_, fun t op st h => ?_, BufferT.ok_init, rfl⟩
  · simp [BufferSys.init, BufferSys.holds]
  · cases h

theorem Fifo.step {log ev : List (BufferEvent τ)} {s s' : BufferSys τ} {a : BufferAction τ}
    (h : Fifo log s) (hok : Succeeds s a) (hm : BufferMove s a s' ev) : Fifo (log ++ ev) s' := by
  -- only an update touches the buffer, and only its event counts
  have hskip : s'.bb = s.bb → ev.filterMap BufferEvent.inserted = [] →
      ev.filterMap BufferEvent.removed = [] →
      s'.bb.Ok ∧ removed (log ++ ev) ++ s'.bb.stored = inserted (log ++ ev) := by
    intro hbb hins hrem
    rw [inserted, removed, List.filterMap_append, List.filterMap_append, hins, hrem,
      List.append_nil, List.append_nil, hbb]
    exact ⟨h.ok, h.content⟩
  suffices hs : s'.bb.Ok ∧ removed (log ++ ev) ++ s'.bb.stored = inserted (log ++ ev) from
    ⟨h.owned.step hok hm, h.ready.step h.owned hm, hs.1, hs.2⟩
  cases hm with
  | update t op st hf =>
    have hgo := h.ready t op st hf
    have hcontent := h.content
    cases op with
    | insert item =>
      have hroom : s.bb.totalitems < bufferSize := by
        simpa [BufferOp.mustWait] using hgo
      obtain ⟨hok', hstored⟩ := h.ok.insert hroom item
      refine ⟨hok', ?_⟩
      simp only [BufferSys.set_bb, BufferOp.run, hstored, inserted, removed,
        List.filterMap_append] at hcontent ⊢
      rw [← hcontent]
      simp [BufferEvent.inserted, BufferEvent.removed]
    | remove =>
      have hitems : 0 < s.bb.totalitems := by
        simpa [BufferOp.mustWait] using hgo
      obtain ⟨hok', hstored⟩ := h.ok.remove hitems
      refine ⟨hok', ?_⟩
      simp only [BufferSys.set_bb, BufferOp.run, hstored, inserted, removed,
        List.filterMap_append] at hcontent ⊢
      rw [← hcontent]
      simp [BufferEvent.inserted, BufferEvent.removed]
  | signal t op st woken s₁ hf hw => exact hskip (BufferSys.wakeUp_spec hw).1 rfl rfl
  | _ => exact hskip rfl rfl rfl

/-- With any number of threads that insert and remove, and any interleaving of their steps in
which the library calls succeed, spurious wake-ups included: the counter stays within the array
and agrees with the two indices, and the items removed so far, followed by those in the buffer,
are the items inserted so far. -/
theorem bounded_buffer_fifo {log : List (BufferEvent τ)} {s : BufferSys τ}
    (h : Runs bufferStep Succeeds .init log s) :
    0 ≤ s.bb.totalitems ∧ s.bb.totalitems ≤ bufferSize ∧
      (s.bb.in_ : Int) = (s.bb.out + s.bb.totalitems) % bufferSize ∧
      removed log ++ s.bb.stored = inserted log := by
  have hf : Fifo log s := by
    refine h.invariant (I := Fifo) fifo_init ?_
    intro log s a s' ev _ ih hok hs
    exact ih.step hok (bufferStep_move hs)
  obtain ⟨hnonneg, hle, -, hin⟩ := hf.ok
  refine ⟨hnonneg, hle, ?_, hf.content⟩
  rw [hin]
  push_cast
  rw [Int.toNat_of_nonneg hnonneg]

/-- A consumer comes first and waits, a producer stores two items, and the consumer takes one. -/
def waitsForItem : List (BufferAction Nat) :=
  [.call 1 .remove, .lock 1 0, .test 1, .wait 1 0, .call 0 (.insert 7), .lock 0 0, .test 0,
    .update 0, .signal 0 0 (some 1), .unlock 0 0, .call 0 (.insert 8), .lock 0 0, .test 0,
    .update 0, .signal 0 0 none, .unlock 0 0, .resume 1 0, .test 1, .update 1]

theorem bounded_buffer_fifo_two : ∃ log s,
    Runs bufferStep Succeeds (.init : BufferSys Nat) log s ∧
    removed log = [7] ∧ inserted log = [7, 8] ∧ s.bb.totalitems = 1 ∧
    removed log ++ s.bb.stored = inserted log := by
  obtain ⟨log, s, hrun, hp⟩ : ∃ log s,
      Runs bufferStep Succeeds (.init : BufferSys Nat) log s ∧
      decide (removed log = [7] ∧ inserted log = [7, 8] ∧ s.bb.totalitems = 1) = true :=
    exists_runs_of_exec waitsForItem _ (by decide)
  obtain ⟨hrem, hins, htotal⟩ := of_decide_eq_true hp
  exact ⟨log, s, hrun, hrem, hins, htotal, (bounded_buffer_fifo hrun).2.2.2⟩

end PosixLab.Monitor
