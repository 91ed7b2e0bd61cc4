/-
# How far a run gets

Invariants say what a run never does; the rules of this module say what it does get done.  Some
events of a machine are the visible ones (`vis`), and the others are work in between.  A
potential `Φ` bounds that work: each invisible event uses some of it up, and each visible one may
bring in `K`.  So a run with few visible events is short, whoever chooses its steps
(`Runs.potential`), and a machine that can always take a step can always be led to one more
visible event (`Runs.extends`).

Two sides that take turns leave a log of the form `alternate a b n`.
-/
import PosixLab.Basis.Runs
import Mathlib.Data.List.Count
import Mathlib.Data.List.Range

namespace PosixLab

variable {σ α ε : Type*} {step : σ → α → Option (σ × List ε)} {ok : σ → α → Prop} {s₀ s : σ}
  {log : List ε}

/-- A weaker condition allows more runs. -/
theorem Runs.mono {ok' : σ → α → Prop} (h : Runs step ok s₀ log s)
    (hok : ∀ s a, ok s a → ok' s a) : Runs step ok' s₀ log s := by
  induction h with
  | nil => exact .nil
  | snoc _ ha hs ih => exact ih.snoc (hok _ _ ha) hs

/-- What a log shows, behind one more event. -/
theorem filterMap_snoc {δ : Type*} (f : ε → Option δ) (log : List ε) (e : ε) :
    (log ++ [e]).filterMap f = log.filterMap f ++ (f e).toList := by
  rw [List.filterMap_append, List.filterMap_cons]
  cases f e <;> rfl

/-! ## 1. Potentials -/

/-- Every step pays for its invisible events out of the potential, to which a visible event adds
at most `K`. -/
def Pays (step : σ → α → Option (σ × List ε)) (ok : σ → α → Prop) (s₀ : σ) (vis : ε → Bool)
    (Φ : σ → Nat) (K : Nat) : Prop :=
  ∀ {log s a s' ev}, Runs step ok s₀ log s → ok s a → step s a = some (s', ev) →
    Φ s' + ev.countP (!vis ·) ≤ Φ s + K * ev.countP vis

variable {vis : ε → Bool} {Φ : σ → Nat} {K : Nat}

/-- The potential rule.  All the invisible events of a run have been paid for. -/
theorem Runs.potential (h : Runs step ok s₀ log s) (hpays : Pays step ok s₀ vis Φ K) :
    Φ s + log.countP (!vis ·) ≤ Φ s₀ + K * log.countP vis := by
  refine h.invariant (I := fun log s => Φ s + log.countP (!vis ·) ≤ Φ s₀ + K * log.countP vis)
    ?_ ?_
  · simp
  · intro log s a s' ev hrun ih ha hs
    have hstep := hpays hrun ha hs
    rw [List.countP_append, List.countP_append, Nat.mul_add]
    omega

/-- A run is not longer than its visible events allow. -/
theorem Runs.length_le (h : Runs step ok s₀ log s) (hpays : Pays step ok s₀ vis Φ K) :
    log.length ≤ Φ s₀ + (K + 1) * log.countP vis := by
  have hpot := h.potential hpays
  have hlen := List.length_eq_countP_add_countP (l := log) vis
  simp only [Bool.not_eq_true, Bool.decide_eq_false] at hlen
  rw [Nat.succ_mul]
  omega

/-- In every state that is reached some step can be taken, and it shows something. -/
def Goes (step : σ → α → Option (σ × List ε)) (ok : σ → α → Prop) (s₀ : σ) : Prop :=
  ∀ {log s}, Runs step ok s₀ log s →
    ∃ a s' ev, ok s a ∧ step s a = some (s', ev) ∧ ev ≠ []

/-- From every state that is reached the machine can be led on by any number of events. -/
theorem Runs.extends (h : Runs step ok s₀ log s) (hgoes : Goes step ok s₀) (n : Nat) :
    ∃ log' s', Runs step ok s log' s' ∧ n ≤ log'.length := by
  induction n with
  | zero => exact ⟨[], s, .nil, Nat.zero_le _⟩
  | succ n ih =>
    obtain ⟨log', s', hrun, hlen⟩ := ih
    obtain ⟨a, s'', ev, ha, hs, hne⟩ := hgoes (h.trans hrun)
    have hpos : 0 < ev.length := List.length_pos_of_ne_nil hne
    refine ⟨log' ++ ev, s'', hrun.snoc ha hs, ?_⟩
    rw [List.length_append]
    omega

/-- A machine that can always take a step, and whose invisible events are paid for, can be led to
any number of visible events. -/
theorem Runs.shows (h : Runs step ok s₀ log s) (hgoes : Goes step ok s₀)
    (hpays : Pays step ok s₀ vis Φ K) (n : Nat) :
    ∃ log' s', Runs step ok s log' s' ∧ n ≤ log'.countP vis := by
  obtain ⟨log', s', hrun, hlen⟩ := h.extends hgoes (Φ s₀ + (K + 1) * (log.countP vis + n))
  refine ⟨log', s', hrun, ?_⟩
  have hle := (h.trans hrun).length_le hpays
  rw [List.length_append, List.countP_append] at hle
  have hmul : (K + 1) * (log.countP vis + n) ≤ (K + 1) * (log.countP vis + log'.countP vis) := by
    omega
  have := Nat.le_of_mul_le_mul_left hmul (Nat.succ_pos K)
  omega

/-- A machine whose events all use up the potential can be led to where it can stop: as long as
`P` does not hold there is a step to be taken. -/
theorem Runs.finishes {P : σ → Prop} (h : Runs step ok s₀ log s)
    (hpays : Pays step ok s₀ (fun _ => false) Φ K)
    (hgoes : ∀ {log s}, Runs step ok s₀ log s → ¬P s →
      ∃ a s' ev, ok s a ∧ step s a = some (s', ev) ∧ ev ≠ []) :
    ∃ log' s', Runs step ok s log' s' ∧ P s' := by
  induction hn : Φ s using Nat.strong_induction_on generalizing log s with
  | h n ih =>
    by_cases hP : P s
    · exact ⟨[], s, .nil, hP⟩
    · obtain ⟨a, s', ev, ha, hs, hne⟩ := hgoes h hP
      have hpos : 0 < ev.length := List.length_pos_of_ne_nil hne
      have hless : Φ s' < n := by
        have := hpays h ha hs
        simp only [Bool.not_false, List.countP_true, List.countP_false, Function.const] at this
        omega
      obtain ⟨log', t, hrun, hPt⟩ := ih _ hless (h.snoc ha hs) rfl
      exact ⟨ev ++ log', t, (Runs.one ha hs).trans hrun, hPt⟩

/-! ## 2. Taking turns -/

/-- The one whose turn it is after `n` turns, when `a` has the first one. -/
def turnOf (a b : α) (n : Nat) : α := if n % 2 = 0 then a else b

/-- The first `n` turns. -/
def alternate (a b : α) (n : Nat) : List α := (List.range n).map (turnOf a b)

@[simp] theorem alternate_zero (a b : α) : alternate a b 0 = [] := rfl

@[simp] theorem length_alternate (a b : α) (n : Nat) : (alternate a b n).length = n := by
  simp [alternate]

theorem alternate_succ (a b : α) (n : Nat) :
    alternate a b (n + 1) = alternate a b n ++ [turnOf a b n] := by
  rw [alternate, List.range_succ, List.map_append]
  rfl

theorem turnOf_succ (a b : α) (n : Nat) : turnOf a b (n + 1) = turnOf b a n := by
  unfold turnOf
  rcases Nat.mod_two_eq_zero_or_one n with h | h
  · rw [if_neg (by omega), if_pos h]
  · rw [if_pos (by omega), if_neg (by omega)]

end PosixLab
