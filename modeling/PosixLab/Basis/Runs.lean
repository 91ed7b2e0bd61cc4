/-
# Runs of a machine, and what holds along them

A machine is a step function `step : σ → α → Option (σ × List ε)`: in a state `s` the action
`a` is either not enabled (`none`), or leads to one state and emits a list of events.  The
nondeterminism of a program -- the scheduler, the kernel, the network, uninitialised memory --
is the choice of the action, so a run is a list of actions and its log is what they emitted.

`Runs step ok s₀ log s` says that some run from `s₀`, every step of which meets the condition
`ok` in the state it starts from, emits `log` and ends in `s`.  All runs are the case
`ok = anyStep`.  The two rules of the module are `Runs.invariant` (what one step keeps, a run
keeps) and `Runs.simulates` (what one step of a machine can be answered with, a run can be
answered with).
-/
import Mathlib.Data.List.Basic
import Mathlib.Order.Basic

namespace PosixLab

variable {σ α ε : Type*}

/-! ## 1. Runs -/

/-- The condition every step meets. -/
def anyStep (_ : σ) (_ : α) : Prop := True

instance (s : σ) (a : α) : Decidable (anyStep s a) := inferInstanceAs (Decidable True)

/-- `Runs step ok s₀ log s`: a run of `step` from `s₀` to `s` that emits `log` and whose steps
all meet `ok`. -/
inductive Runs (step : σ → α → Option (σ × List ε)) (ok : σ → α → Prop) (s₀ : σ) :
    List ε → σ → Prop
  | nil : Runs step ok s₀ [] s₀
  | snoc {log ev : List ε} {s s' : σ} {a : α} :
      Runs step ok s₀ log s → ok s a → step s a = some (s', ev) →
        Runs step ok s₀ (log ++ ev) s'

section

variable {step : σ → α → Option (σ × List ε)} {ok : σ → α → Prop} {s₀ s s' : σ}
  {log log' : List ε}

/-- A run of one step. -/
theorem Runs.one {a : α} {ev : List ε} (ha : ok s a) (h : step s a = some (s', ev)) :
    Runs step ok s ev s' := by
  have h₀ : Runs step ok s [] s := .nil
  simpa using h₀.snoc ha h

/-- Runs compose, and so do their logs. -/
theorem Runs.trans (h : Runs step ok s₀ log s) (h' : Runs step ok s log' s') :
    Runs step ok s₀ (log ++ log') s' := by
  induction h' with
  | nil => simpa using h
  | snoc _ ha hs ih =>
    rw [← List.append_assoc]
    exact .snoc ih ha hs

/-- The invariant rule.  What holds of the empty log and the first state, and is kept by every
step that meets `ok`, holds along every run.  The run itself is available to the step, so an
invariant can be built on ones already proved. -/
theorem Runs.invariant {I : List ε → σ → Prop} (h : Runs step ok s₀ log s) (h₀ : I [] s₀)
    (hstep : ∀ {log s a s' ev}, Runs step ok s₀ log s → I log s → ok s a →
      step s a = some (s', ev) → I (log ++ ev) s') : I log s := by
  induction h with
  | nil => exact h₀
  | snoc hr ha hs ih => exact hstep hr ih ha hs

end

/-! ## 2. Simulation -/

/-- The simulation rule.  `R` relates the states of a machine to those of a second one; if
each step of the first is answered by a run of the second that shows the same events (`vis`
keeps the visible ones), then so is each run. -/
theorem Runs.simulates {τ β δ : Type*} {step : σ → α → Option (σ × List ε)}
    {ok : σ → α → Prop} {step' : τ → β → Option (τ × List δ)} {ok' : τ → β → Prop}
    {vis : δ → Option ε} {R : σ → τ → Prop} {s₀ s : σ} {t₀ : τ} {log : List ε}
    (h : Runs step ok s₀ log s) (h₀ : R s₀ t₀)
    (hstep : ∀ {s a s' ev t}, R s t → ok s a → step s a = some (s', ev) →
      ∃ ev' t', Runs step' ok' t ev' t' ∧ ev'.filterMap vis = ev ∧ R s' t') :
    ∃ log' t, Runs step' ok' t₀ log' t ∧ log'.filterMap vis = log ∧ R s t := by
  induction h with
  | nil => exact ⟨[], t₀, .nil, rfl, h₀⟩
  | snoc _ ha hs ih =>
    obtain ⟨log', t, hrun, hvis, hR⟩ := ih
    obtain ⟨ev', t', hrun', hvis', hR'⟩ := hstep hR ha hs
    exact ⟨log' ++ ev', t', hrun.trans hrun', by rw [List.filterMap_append, hvis, hvis'], hR'⟩

/-! ## 3. Executing a run -/

/-- Execute a list of actions, each of which has to meet `ok` and be enabled. -/
def exec (step : σ → α → Option (σ × List ε)) (ok : σ → α → Prop)
    [∀ s a, Decidable (ok s a)] : σ → List α → Option (List ε × σ)
  | s, [] => some ([], s)
  | s, a :: as =>
    if ok s a then
      match step s a with
      | none => none
      | some (s', ev) => (exec step ok s' as).map fun r => (ev ++ r.1, r.2)
    else none

/-- What `exec` computes is a run. -/
theorem runs_of_exec {step : σ → α → Option (σ × List ε)} {ok : σ → α → Prop}
    [∀ s a, Decidable (ok s a)] {as : List α} {s s' : σ} {log : List ε}
    (h : exec step ok s as = some (log, s')) : Runs step ok s log s' := by
  induction as generalizing s log with
  | nil =>
    simp only [exec, Option.some.injEq, Prod.mk.injEq] at h
    obtain ⟨rfl, rfl⟩ := h
    exact .nil
  | cons a as ih =>
    unfold exec at h
    split at h
    · rename_i ha
      cases hs : step s a with
      | none => simp [hs] at h
      | some p =>
        obtain ⟨t, ev⟩ := p
        simp only [hs, Option.map_eq_some_iff, Prod.mk.injEq] at h
        obtain ⟨⟨log', u⟩, hr, rfl, rfl⟩ := h
        exact (Runs.one ha hs).trans (ih hr)
    · cases h

/-- A run that ends in a state with a decidable property, found by executing it. -/
theorem exists_runs_of_exec {step : σ → α → Option (σ × List ε)} {ok : σ → α → Prop}
    [∀ s a, Decidable (ok s a)] {s₀ : σ} (as : List α) (p : List ε → σ → Bool)
    (h : (exec step ok s₀ as).any (fun r => p r.1 r.2) = true) :
    ∃ log s, Runs step ok s₀ log s ∧ p log s = true := by
  cases hr : exec step ok s₀ as with
  | none => simp [hr] at h
  | some r => exact ⟨r.1, r.2, runs_of_exec hr, by simpa [hr] using h⟩

/-! ## 4. The actions of a run -/

/-- The machine that logs each action together with its events. -/
def recording (step : σ → α → Option (σ × List ε)) (s : σ) (a : α) :
    Option (σ × List (α × List ε)) :=
  (step s a).map fun r => (r.1, [(a, r.2)])

section

variable {step : σ → α → Option (σ × List ε)} {ok : σ → α → Prop} {s₀ s : σ}

theorem recording_eq {a : α} {s' : σ} {ev : List ε} (h : step s a = some (s', ev)) :
    recording step s a = some (s', [(a, ev)]) := by
  rw [recording, h]
  rfl

/-- Each run can be recorded. -/
theorem Runs.recorded {log : List ε} (h : Runs step ok s₀ log s) :
    ∃ full, Runs (recording step) ok s₀ full s ∧ full.flatMap Prod.snd = log := by
  induction h with
  | nil => exact ⟨[], .nil, rfl⟩
  | snoc _ ha hs ih =>
    obtain ⟨full, hrun, rfl⟩ := ih
    exact ⟨_, hrun.snoc ha (recording_eq hs), by simp⟩

/-- What every action of the run is, every action of the record is. -/
theorem Runs.actions {p : α → Prop} {full : List (α × List ε)}
    (h : Runs (recording step) (fun _ => p) s₀ full s) : ∀ y ∈ full, p y.1 := by
  refine h.invariant (I := fun full _ => ∀ y ∈ full, p y.1) (by simp) ?_
  intro full s a s' ev _ ih ha hs y hy
  obtain ⟨r, -, heq⟩ := Option.map_eq_some_iff.mp hs
  cases heq
  rcases List.mem_append.mp hy with hy | hy
  · exact ih y hy
  · cases List.mem_singleton.mp hy
    exact ha

end

/-! ## 5. What comes before what

A log is `Guarded` by `needs` when each event in it finds what it needs in the part of the log
before it. -/

/-- Each event of the log has what it needs before it. -/
def Guarded (needs : ε → List ε → Prop) (log : List ε) : Prop :=
  ∀ pre x post, log = pre ++ x :: post → needs x pre

theorem guarded_nil {needs : ε → List ε → Prop} : Guarded needs [] := by
  intro pre x post h
  simp at h

/-- New events that find what they need in the log so far. -/
theorem Guarded.append {needs : ε → List ε → Prop} {log ev : List ε} (h : Guarded needs log)
    (hmono : ∀ x l l', needs x l → needs x (l ++ l')) (hev : ∀ x ∈ ev, needs x log) :
    Guarded needs (log ++ ev) := by
  intro pre x post heq
  rcases List.append_eq_append_iff.mp heq with ⟨l, rfl, hl⟩ | ⟨l, rfl, hl⟩
  · exact hmono x log l (hev x (by simp [hl]))
  · cases l with
    | nil =>
      have hx : x ∈ [] ++ ev := hl ▸ List.mem_cons_self
      rw [List.append_nil] at hev
      exact hev x hx
    | cons y l =>
      obtain ⟨rfl, rfl⟩ := List.cons.inj hl
      exact h pre x l rfl

/-- One new event that finds what it needs. -/
theorem Guarded.concat {needs : ε → List ε → Prop} {log : List ε} {x : ε}
    (h : Guarded needs log) (hx : needs x log) : Guarded needs (log ++ [x]) := by
  intro pre y post heq
  rcases List.eq_nil_or_concat post with rfl | ⟨post, z, rfl⟩
  · obtain ⟨rfl, rfl⟩ := List.append_singleton_inj.mp heq
    exact hx
  · have hlog : log ++ [x] = (pre ++ y :: post) ++ [z] := by simpa using heq
    exact h pre y post (List.append_singleton_inj.mp hlog).1

/-! ## 6. Runs of a total step function

Where every action is enabled a run is just the list of its actions.  `Always` asks something
of each state along it, the first and the last included, and `Each` asks something of each
step, in the state it is taken from. -/

/-- `P` holds in every state that the actions lead through. -/
def Always (step : σ → α → σ) (P : σ → Prop) : σ → List α → Prop
  | s, [] => P s
  | s, a :: as => P s ∧ Always step P (step s a) as

/-- Each action meets `Q` in the state it is taken in. -/
def Each (step : σ → α → σ) (Q : σ → α → Prop) : σ → List α → Prop
  | _, [] => True
  | s, a :: as => Q s a ∧ Each step Q (step s a) as

instance decidableAlways {step : σ → α → σ} {P : σ → Prop} [DecidablePred P] :
    ∀ (s : σ) (as : List α), Decidable (Always step P s as)
  | s, [] => inferInstanceAs (Decidable (P s))
  | s, a :: as =>
    have : Decidable (Always step P (step s a) as) := decidableAlways (step s a) as
    inferInstanceAs (Decidable (P s ∧ Always step P (step s a) as))

instance decidableEach {step : σ → α → σ} {Q : σ → α → Prop} [∀ s a, Decidable (Q s a)] :
    ∀ (s : σ) (as : List α), Decidable (Each step Q s as)
  | _, [] => inferInstanceAs (Decidable True)
  | s, a :: as =>
    have : Decidable (Each step Q (step s a) as) := decidableEach (step s a) as
    inferInstanceAs (Decidable (Q s a ∧ Each step Q (step s a) as))

theorem Always.head {step : σ → α → σ} {P : σ → Prop} {as : List α} {s : σ}
    (h : Always step P s as) : P s := by
  cases as with
  | nil => exact h
  | cons a as => exact h.1

theorem Always.last {step : σ → α → σ} {P : σ → Prop} {as : List α} {s : σ}
    (h : Always step P s as) : P (as.foldl step s) := by
  induction as generalizing s with
  | nil => exact h
  | cons a as ih => exact ih h.2

theorem each_concat {step : σ → α → σ} {Q : σ → α → Prop} {as : List α} {s : σ} {a : α}
    (h : Each step Q s as) (ha : Q (as.foldl step s) a) : Each step Q s (as ++ [a]) := by
  induction as generalizing s with
  | nil => exact ⟨ha, trivial⟩
  | cons b as ih => exact ⟨h.1, ih h.2 ha⟩

/-- A sufficient condition for a property along runs: let the invariant `I` give `P`, and let a
step whose action is `ok` and meets `Q` keep `I`. -/
theorem always_of_each {step : σ → α → σ} {P I : σ → Prop} {ok : α → Prop} {Q : σ → α → Prop}
    (hP : ∀ {s}, I s → P s) (hkeep : ∀ {s a}, I s → ok a → Q s a → I (step s a))
    {as : List α} {s : σ} (hI : I s) (hok : ∀ a ∈ as, ok a) (hQ : Each step Q s as) :
    Always step P s as := by
  induction as generalizing s with
  | nil => exact hP hI
  | cons a as ih =>
    have hI' : I (step s a) := hkeep hI (hok a List.mem_cons_self) hQ.1
    exact ⟨hP hI, ih hI' (fun b hb => hok b (List.mem_cons_of_mem a hb)) hQ.2⟩

/-- The exact condition for a property along runs.  Among the runs whose steps are `ok`, let
the invariant `I` give `P`, let a step that meets `Q` keep `I`, and let a step that keeps `P`
meet `Q`.  Then `P` holds along a run exactly when each of its steps meets `Q`. -/
theorem always_iff_each {step : σ → α → σ} {P I : σ → Prop} {ok Q : σ → α → Prop}
    (hP : ∀ {s}, I s → P s)
    (hkeep : ∀ {s a}, I s → ok s a → Q s a → I (step s a))
    (hneed : ∀ {s a}, I s → ok s a → P (step s a) → Q s a)
    {as : List α} {s : σ} (hI : I s) (hok : Each step ok s as) :
    Always step P s as ↔ Each step Q s as := by
  induction as generalizing s with
  | nil => exact iff_of_true (hP hI) trivial
  | cons a as ih =>
    have hrest : Q s a → (Always step P (step s a) as ↔ Each step Q (step s a) as) :=
      fun hQ => ih (hkeep hI hok.1 hQ) hok.2
    constructor
    · rintro ⟨-, hA⟩
      have hQ : Q s a := hneed hI hok.1 hA.head
      exact ⟨hQ, (hrest hQ).mp hA⟩
    · rintro ⟨hQ, hE⟩
      exact ⟨hP hI, (hrest hQ).mpr hE⟩

end PosixLab
