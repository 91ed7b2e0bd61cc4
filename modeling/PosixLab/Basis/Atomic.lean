/-
# Atomic objects

What it means for an object that many threads call at once to behave as if each call happened
in one instant.  `spec : V → Op → V × Res` is the sequential object.  The atomic object around
it (`atomicStep`) is a machine in which a caller is idle, has called, or has been answered, and
in which the whole effect of a call is the one step `lin` between its call and its return.

A program is linearizable when each of its histories of calls and returns is, up to the
invisible `lin` events, a history of that machine; that is shown with `Runs.simulates`, and the
three lemmas of the second section are the moves the simulation answers with.
-/
import Mathlib.Logic.Function.Basic
import PosixLab.Basis.Runs

namespace PosixLab

variable {τ V Op Res : Type*} [DecidableEq τ]

/-! ## 1. The machine -/

/-- Where a caller stands. -/
inductive Phase (Op Res : Type*)
  | idle
  | called (op : Op)
  | answered (op : Op) (res : Res)

/-- A call, its effect, and its return. -/
inductive CallEvent (τ Op Res : Type*)
  | inv (t : τ) (op : Op)
  | lin (t : τ) (op : Op) (res : Res)
  | ret (t : τ) (op : Op) (res : Res)
deriving DecidableEq

/-- The events a caller sees. -/
def CallEvent.visible : CallEvent τ Op Res → Option (CallEvent τ Op Res)
  | .lin _ _ _ => none
  | e => some e

/-- The value of the object, and where each caller stands. -/
structure AtomicState (τ V Op Res : Type*) where
  value : V
  phase : τ → Phase Op Res

/-- Nobody has called yet. -/
def AtomicState.init (v : V) : AtomicState τ V Op Res := ⟨v, fun _ => .idle⟩

inductive AtomicAction (τ Op : Type*)
  | inv (t : τ) (op : Op)
  | lin (t : τ)
  | ret (t : τ)

/-- The atomic object of a sequential one. -/
def atomicStep (spec : V → Op → V × Res) (s : AtomicState τ V Op Res) :
    AtomicAction τ Op → Option (AtomicState τ V Op Res × List (CallEvent τ Op Res))
  | .inv t op =>
    match s.phase t with
    | .idle => some ({ s with phase := Function.update s.phase t (.called op) }, [.inv t op])
    | _ => none
  | .lin t =>
    match s.phase t with
    | .called op =>
      let r := spec s.value op
      some (⟨r.1, Function.update s.phase t (.answered op r.2)⟩, [.lin t op r.2])
    | _ => none
  | .ret t =>
    match s.phase t with
    | .answered op res =>
      some ({ s with phase := Function.update s.phase t .idle }, [.ret t op res])
    | _ => none

/-- The histories of the atomic object. -/
abbrev AtomicRuns (spec : V → Op → V × Res) (s₀ : AtomicState τ V Op Res)
    (log : List (CallEvent τ Op Res)) (s : AtomicState τ V Op Res) : Prop :=
  Runs (atomicStep spec) anyStep s₀ log s

/-! ## 2. Its moves -/

variable {spec : V → Op → V × Res} {s : AtomicState τ V Op Res} {t : τ} {op : Op} {res : Res}

theorem AtomicRuns.inv (h : s.phase t = .idle) :
    AtomicRuns spec s [.inv t op]
      { s with phase := Function.update s.phase t (.called op) } :=
  Runs.one (a := .inv t op) trivial (by simp [atomicStep, h])

theorem AtomicRuns.lin (h : s.phase t = .called op) :
    AtomicRuns spec s [.lin t op (spec s.value op).2]
      ⟨(spec s.value op).1, Function.update s.phase t (.answered op (spec s.value op).2)⟩ :=
  Runs.one (a := .lin t) trivial (by simp [atomicStep, h])

theorem AtomicRuns.ret (h : s.phase t = .answered op res) :
    AtomicRuns spec s [.ret t op res]
      { s with phase := Function.update s.phase t .idle } :=
  Runs.one (a := .ret t) trivial (by simp [atomicStep, h])

/-- What one step of the atomic object can do: announce a call, return, or apply the
sequential object. -/
theorem atomicStep_cases {a : AtomicAction τ Op} {s' : AtomicState τ V Op Res}
    {ev : List (CallEvent τ Op Res)} (h : atomicStep spec s a = some (s', ev)) :
    (∃ t op, s.phase t = .idle ∧ ev = [.inv t op] ∧
      s' = { s with phase := Function.update s.phase t (.called op) }) ∨
    (∃ t op res, s.phase t = .answered op res ∧ ev = [.ret t op res] ∧
      s' = { s with phase := Function.update s.phase t .idle }) ∨
    (∃ t op, s.phase t = .called op ∧ ev = [.lin t op (spec s.value op).2] ∧
      s' = ⟨(spec s.value op).1,
        Function.update s.phase t (.answered op (spec s.value op).2)⟩) := by
  cases a with
  | inv t op =>
    simp only [atomicStep] at h
    split at h
    · rename_i hph
      cases h
      exact Or.inl ⟨t, op, hph, rfl, rfl⟩
    · cases h
  | ret t =>
    simp only [atomicStep] at h
    split at h
    · rename_i op res hph
      cases h
      exact Or.inr (Or.inl ⟨t, op, res, hph, rfl, rfl⟩)
    · cases h
  | lin t =>
    simp only [atomicStep] at h
    split at h
    · rename_i op hph
      cases h
      exact Or.inr (Or.inr ⟨t, op, hph, rfl, rfl⟩)
    · cases h

end PosixLab
