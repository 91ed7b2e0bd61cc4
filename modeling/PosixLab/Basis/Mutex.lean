/-
# A mutex and the log of its uses

A mutex is free or belongs to one thread.  `MutexRun m log m'` says that the calls of `lock` and
`unlock` in `log` lead it from `m` to `m'`, where `lock` waits until the mutex is free and only
the owner calls `unlock`.  Whoever shows that the log of a program is such a run has the usual
consequences: each thread has called `lock` and `unlock` in turn (`MutexRun.balance`), and one
thread at a time is between the two (`MutexRun.exclusive`, `MutexRun.fresh`).
-/
import Mathlib.Data.List.Basic
import Mathlib.Data.List.Count

namespace PosixLab

variable {τ : Type*} [DecidableEq τ]

/-! ## 1. The log -/

/-- A return of `pthread_mutex_lock`, and a call of `pthread_mutex_unlock`. -/
inductive LockEvent (τ : Type*)
  | lock (t : τ)
  | unlock (t : τ)
deriving DecidableEq

/-- How often `t` has taken the mutex. -/
def locks (t : τ) (log : List (LockEvent τ)) : Nat := log.count (.lock t)

/-- How often `t` has released it. -/
def unlocks (t : τ) (log : List (LockEvent τ)) : Nat := log.count (.unlock t)

/-- After `log` the thread is between a `lock` and the `unlock` that belongs to it. -/
def Inside (t : τ) (log : List (LockEvent τ)) : Prop := unlocks t log < locks t log

/-! ## 2. Runs of a mutex -/

/-- The mutex goes from the first owner to the second one by the uses in the log. -/
inductive MutexRun (m : Option τ) : List (LockEvent τ) → Option τ → Prop
  | nil : MutexRun m [] m
  | lock {log : List (LockEvent τ)} (t : τ) :
      MutexRun m log none → MutexRun m (log ++ [.lock t]) (some t)
  | unlock {log : List (LockEvent τ)} (t : τ) :
      MutexRun m log (some t) → MutexRun m (log ++ [.unlock t]) none

section

variable {m m' : Option τ} {log : List (LockEvent τ)} {t u : τ}

omit [DecidableEq τ] in
/-- A part of a log is a run. -/
theorem MutexRun.of_append {log' : List (LockEvent τ)} (h : MutexRun m (log ++ log') m') :
    ∃ m₁, MutexRun m log m₁ ∧ MutexRun m₁ log' m' := by
  obtain ⟨l, hl⟩ : ∃ l, l = log ++ log' := ⟨_, rfl⟩
  rw [← hl] at h
  induction h generalizing log' with
  | nil =>
    obtain ⟨rfl, rfl⟩ := List.append_eq_nil_iff.mp hl.symm
    exact ⟨m, .nil, .nil⟩
  | lock t hrun ih | unlock t hrun ih =>
    rcases List.eq_nil_or_concat log' with rfl | ⟨l', x, rfl⟩
    · rw [List.append_nil] at hl
      subst hl
      exact ⟨_, by constructor; exact hrun, .nil⟩
    · rw [List.concat_eq_append, ← List.append_assoc] at hl
      obtain ⟨hlog, hx⟩ := List.append_inj' hl rfl
      cases hx
      obtain ⟨m₁, h₁, h₂⟩ := ih hlog
      rw [List.concat_eq_append]
      exact ⟨m₁, h₁, by constructor; exact h₂⟩

/-- A thread has taken the mutex as often as it has released it, but for the `lock` of the owner
before the log and the one of the owner after it. -/
theorem MutexRun.balance (h : MutexRun m log m') (t : τ) :
    locks t log + (if m = some t then 1 else 0) =
      unlocks t log + (if m' = some t then 1 else 0) := by
  induction h with
  | nil => simp [locks, unlocks]
  | lock u hrun ih | unlock u hrun ih =>
    simp only [locks, unlocks, List.count_append, List.count_singleton] at ih ⊢
    by_cases hu : u = t
    · subst hu
      simp at ih ⊢
      omega
    · simp [hu] at ih ⊢
      omega

/-- From a free mutex on, the thread inside is the owner. -/
theorem MutexRun.inside_iff (h : MutexRun none log m') : Inside t log ↔ m' = some t := by
  have hbal := h.balance t
  simp only [reduceCtorEq, if_false, Nat.add_zero] at hbal
  rw [Inside, hbal]
  by_cases ht : m' = some t
  · simp [ht]
  · simp [ht]

/-- One thread at a time is inside. -/
theorem MutexRun.exclusive (h : MutexRun none log m') (ht : Inside t log)
    (hu : Inside u log) : t = u := by
  rw [h.inside_iff] at ht hu
  exact Option.some.inj (ht.symm.trans hu)

/-- Nobody is inside when a `lock` returns, least of all its own thread. -/
theorem MutexRun.fresh {pre post : List (LockEvent τ)}
    (h : MutexRun none (pre ++ .lock t :: post) m') : ¬ Inside u pre := by
  obtain ⟨m₁, hpre, hrest⟩ := h.of_append
  obtain ⟨m₂, hlock, -⟩ := (show MutexRun m₁ ([.lock t] ++ post) m' from hrest).of_append
  have hfree : m₁ = none := by
    have hbal := hlock.balance
    cases m₁ with
    | none => rfl
    | some v =>
      have ht := hbal t
      have hv := hbal v
      simp only [locks, unlocks, List.count_singleton] at ht hv
      by_cases hvt : v = t
      · subst hvt
        simp at ht
        split at ht <;> omega
      · simp [hvt, Ne.symm hvt] at ht hv
        rw [hv] at ht
        exact absurd (Option.some.inj ht) hvt
  rw [hpre.inside_iff, hfree]
  simp

end

end PosixLab
