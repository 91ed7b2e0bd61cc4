/-
# Programs that make calls

A program of type `Prog C R α` makes calls `c : C`, looks at their results, of type `R c`, and
returns a value of type `α`; `loop` repeats a body until it says that it is done.  What a call
does is not part of the program: `sys s c r s'` says that in the state `s` the call `c` can
return `r` and leave the state `s'`, so one program can be read over many systems, and every
outcome of every call is covered by one relation.

`Exec sys p s a s'` are the finished executions.  `wp sys p Q s` is computed along the program,
with an invariant at each loop, and `Exec.wp` says that every execution from a state that
satisfies it ends as `Q` says.  A program all of whose calls are harmless is harmless
(`Uses.wp`).  `logged` keeps the calls and their results, for statements about what a program
was told.
-/
import Mathlib.Init

namespace PosixLab

/-- Programs with calls `C` and results `R`. -/
inductive Prog (C : Type) (R : C → Type) : Type → Type 1
  | ret {α : Type} (a : α) : Prog C R α
  | call {α : Type} (c : C) (k : R c → Prog C R α) : Prog C R α
  | loop {α β γ : Type} (body : β → Prog C R (β ⊕ α)) (b : β) (k : α → Prog C R γ) : Prog C R γ

namespace Prog

variable {C : Type} {R : C → Type} {α β γ : Type}

/-- Run a program, and then another on its result. -/
def bind : Prog C R α → (α → Prog C R β) → Prog C R β
  | ret a, f => f a
  | call c k, f => call c fun r => (k r).bind f
  | loop body b k, f => loop body b fun a => (k a).bind f

instance : Monad (Prog C R) where
  pure := ret
  bind := bind

/-- Make one call. -/
def perform (c : C) : Prog C R (R c) := call c ret

/-- Repeat `body`: `.inl` goes on with a new loop variable, `.inr` ends the loop. -/
def iterate (body : β → Prog C R (β ⊕ α)) (b : β) : Prog C R α := loop body b ret

variable {σ : Type*} {sys : σ → (c : C) → R c → σ → Prop}

/-! ## 1. Executions -/

/-- `Exec sys p s a s'`: started in `s` the program `p` can return `a` in the state `s'`. -/
inductive Exec (sys : σ → (c : C) → R c → σ → Prop) :
    {α : Type} → Prog C R α → σ → α → σ → Prop
  | ret {α : Type} {a : α} {s : σ} : Exec sys (ret a) s a s
  | call {α : Type} {c : C} {r : R c} {k : R c → Prog C R α} {s s' t : σ} {a : α} :
      sys s c r s' → Exec sys (k r) s' a t → Exec sys (call c k) s a t
  | again {α β γ : Type} {body : β → Prog C R (β ⊕ α)} {b b' : β} {k : α → Prog C R γ}
      {s s' t : σ} {a : γ} :
      Exec sys (body b) s (.inl b') s' → Exec sys (loop body b' k) s' a t →
        Exec sys (loop body b k) s a t
  | done {α β γ : Type} {body : β → Prog C R (β ⊕ α)} {b : β} {x : α} {k : α → Prog C R γ}
      {s s' t : σ} {a : γ} :
      Exec sys (body b) s (.inr x) s' → Exec sys (k x) s' a t →
        Exec sys (loop body b k) s a t

/-- The executions of two programs in a row. -/
theorem Exec.bind {p : Prog C R α} {f : α → Prog C R β} {s s' t : σ} {a : α} {b : β}
    (hp : Exec sys p s a s') (hf : Exec sys (f a) s' b t) : Exec sys (p >>= f) s b t := by
  induction hp with
  | ret => exact hf
  | call hc _ ih => exact .call hc (ih hf)
  | again hb _ _ ih => exact .again hb (ih hf)
  | done hb _ _ ih => exact .done hb (ih hf)

theorem Exec.perform {c : C} {r : R c} {s s' : σ} (h : sys s c r s') :
    Exec sys (perform c) s r s' :=
  .call h .ret

/-- A call, and then the rest. -/
theorem Exec.step {c : C} {f : R c → Prog C R β} {s s' t : σ} {b : β} (r : R c)
    (hc : sys s c r s') (hf : Exec sys (f r) s' b t) : Exec sys (Prog.perform c >>= f) s b t :=
  (Exec.perform hc).bind hf

/-- What every call keeps, an execution keeps. -/
theorem Exec.invariant {p : Prog C R α} {s s' : σ} {a : α} (h : Exec sys p s a s')
    {I : σ → Prop} (hkeep : ∀ s c r s', sys s c r s' → I s → I s') (hs : I s) : I s' := by
  induction h with
  | ret => exact hs
  | call hc _ ih => exact ih (hkeep _ _ _ _ hc hs)
  | again _ _ ihb ih => exact ih (ihb hs)
  | done _ _ ihb ih => exact ih (ihb hs)

/-! ## 2. Preconditions -/

/-- What has to hold at the start for `Q` to hold at the end, along the program.  A loop needs an
invariant of its variable and the state. -/
def wp (sys : σ → (c : C) → R c → σ → Prop) {α : Type} :
    Prog C R α → (α → σ → Prop) → σ → Prop
  | ret a, Q, s => Q a s
  | call c k, Q, s => ∀ r s', sys s c r s' → wp sys (k r) Q s'
  | loop (β := β) body b k, Q, s =>
    ∃ I : β → σ → Prop, I b s ∧ ∀ b s, I b s →
      wp sys (body b) (fun x s' => match x with
        | .inl b' => I b' s'
        | .inr a => wp sys (k a) Q s') s

section

variable {p : Prog C R α} {Q Q' : α → σ → Prop} {s s' : σ} {a : α}

/-- The rule for an execution: what is required at the start is enough for the end. -/
theorem Exec.wp (h : Exec sys p s a s') (hw : wp sys p Q s) : Q a s' := by
  induction h with
  | ret => exact hw
  | call hc _ ih => exact ih (hw _ _ hc)
  | again _ _ ihb ih =>
    obtain ⟨I, hI, hstep⟩ := hw
    have hI' := ihb (hstep _ _ hI)
    exact ih ⟨I, hI', hstep⟩
  | done _ _ ihb ih =>
    obtain ⟨I, hI, hstep⟩ := hw
    exact ih (ihb (hstep _ _ hI))

/-- And nothing less is. -/
theorem wp_of_exec (h : ∀ a s', Exec sys p s a s' → Q a s') : wp sys p Q s := by
  induction p generalizing s with
  | ret a => exact h a s .ret
  | call c k ih => exact fun r s' hc => ih r fun a t ha => h a t (.call hc ha)
  | loop body b k ihb ihk =>
    refine ⟨fun b s => ∀ a t, Exec sys (loop body b k) s a t → Q a t, h, fun b s hI => ?_⟩
    refine ihb b fun x t hx => ?_
    cases x with
    | inl b' => exact fun a u hu => hI a u (.again hx hu)
    | inr x => exact ihk x fun a u hu => hI a u (.done hx hu)

/-- The rule of consequence. -/
theorem wp_mono (h : wp sys p Q s) (hQ : ∀ a s', Q a s' → Q' a s') : wp sys p Q' s :=
  wp_of_exec fun a s' ha => hQ a s' (ha.wp h)

/-- The rule of conjunction. -/
theorem wp_and (h : wp sys p Q s) (h' : wp sys p Q' s) :
    wp sys p (fun a s' => Q a s' ∧ Q' a s') s :=
  wp_of_exec fun _ _ ha => ⟨ha.wp h, ha.wp h'⟩

@[simp] theorem wp_pure {Q : α → σ → Prop} : wp sys (pure a : Prog C R α) Q s ↔ Q a s := Iff.rfl

@[simp] theorem wp_perform {c : C} {Q : R c → σ → Prop} :
    wp sys (perform c) Q s ↔ ∀ r s', sys s c r s' → Q r s' := Iff.rfl

/-- The rule for two programs in a row. -/
@[simp] theorem wp_bind {f : α → Prog C R β} {Q : β → σ → Prop} :
    wp sys (p >>= f) Q s ↔ wp sys p (fun a s' => wp sys (f a) Q s') s := by
  induction p generalizing s with
  | ret a => exact Iff.rfl
  | call c k ih =>
    exact forall_congr' fun r => forall_congr' fun s' => imp_congr_right fun _ => ih r
  | loop body b k _ ihk =>
    refine exists_congr fun I => and_congr_right fun _ => forall_congr' fun b =>
      forall_congr' fun s => imp_congr_right fun _ => ?_
    constructor <;> refine fun h => wp_mono h fun x s' hx => ?_
    · cases x with
      | inl b' => exact hx
      | inr x => exact (ihk x).mp hx
    · cases x with
      | inl b' => exact hx
      | inr x => exact (ihk x).mpr hx

end

/-- Where every call has one outcome the end of an execution is what holds at the end. -/
theorem Exec.wp_eq {p : Prog C R α} {s s' : σ} {a : α} (h : Exec sys p s a s')
    (hdet : ∀ {s c r s' r' s''}, sys s c r s' → sys s c r' s'' → r' = r ∧ s'' = s') :
    Prog.wp sys p (fun b t => b = a ∧ t = s') s := by
  induction h with
  | ret => exact ⟨rfl, rfl⟩
  | call hc _ ih =>
    intro r' s'' hc'
    obtain ⟨rfl, rfl⟩ := hdet hc hc'
    exact ih
  | @again _ _ _ body b b' k s s' t a _ _ ihb ih =>
    obtain ⟨I, hI, hstep⟩ := ih
    refine ⟨fun b₁ s₁ => b₁ = b ∧ s₁ = s ∨ I b₁ s₁, .inl ⟨rfl, rfl⟩, ?_⟩
    rintro b₁ s₁ (⟨rfl, rfl⟩ | hI₁)
    · refine wp_mono ihb ?_
      rintro _ _ ⟨rfl, rfl⟩
      exact .inr hI
    · refine wp_mono (hstep _ _ hI₁) fun x s₂ hx => ?_
      cases x with
      | inl b₂ => exact .inr hx
      | inr x => exact hx
  | @done _ _ _ body b x k s s' t a _ _ ihb ih =>
    refine ⟨fun b₁ s₁ => b₁ = b ∧ s₁ = s, ⟨rfl, rfl⟩, ?_⟩
    rintro _ _ ⟨rfl, rfl⟩
    refine wp_mono ihb ?_
    rintro _ _ ⟨rfl, rfl⟩
    exact ih

/-! ## 3. Programs that make only certain calls -/

/-- Every call the program can make meets `P`. -/
def Uses (P : C → Prop) {α : Type} : Prog C R α → Prop
  | ret _ => True
  | call c k => P c ∧ ∀ r, Uses P (k r)
  | loop body _ k => (∀ b, Uses P (body b)) ∧ ∀ a, Uses P (k a)

section

variable {P : C → Prop}

@[simp] theorem uses_pure {a : α} : Uses P (pure a : Prog C R α) := trivial

@[simp] theorem uses_perform {c : C} : Uses P (perform c : Prog C R (R c)) ↔ P c :=
  ⟨fun h => h.1, fun h => ⟨h, fun _ => trivial⟩⟩

theorem Uses.bind {p : Prog C R α} {f : α → Prog C R β} (hp : Uses P p)
    (hf : ∀ a, Uses P (f a)) : Uses P (p >>= f) := by
  induction p with
  | ret a => exact hf a
  | call c k ih => exact ⟨hp.1, fun r => ih r (hp.2 r) hf⟩
  | loop body b k _ ihk => exact ⟨hp.1, fun a => ihk a (hp.2 a) hf⟩

theorem Uses.ite {c : Prop} [Decidable c] {p q : Prog C R α} (hp : Uses P p) (hq : Uses P q) :
    Uses P (if c then p else q) := by
  split
  · exact hp
  · exact hq

theorem Uses.iterate {body : β → Prog C R (β ⊕ α)} (h : ∀ b, Uses P (body b)) (b : β) :
    Uses P (iterate body b) :=
  ⟨h, fun _ => trivial⟩

/-- The frame rule: what every call that meets `P` leaves true, the whole program does. -/
theorem Uses.wp {p : Prog C R α} (hp : Uses P p) {I : σ → Prop} {s : σ} (hs : I s)
    (hkeep : ∀ s c r s', P c → sys s c r s' → I s → I s') :
    wp sys p (fun _ => I) s := by
  induction p generalizing s with
  | ret a => exact hs
  | call c k ih => exact fun r s' hc => ih r (hp.2 r) (hkeep s c r s' hp.1 hc hs)
  | loop body b k ihb ihk =>
    refine ⟨fun _ => I, hs, fun b s hI => wp_mono (ihb b (hp.1 b) hI) fun x s' hs' => ?_⟩
    cases x with
    | inl b' => exact hs'
    | inr a => exact ihk a (hp.2 a) hs'

end

/-! ## 4. Logs -/

/-- The calls that were made, with their results. -/
abbrev Log (C : Type) (R : C → Type) := List (Σ c, R c)

/-- The same system, with a log of the calls beside the state. -/
def logged (sys : σ → (c : C) → R c → σ → Prop) (t : σ × Log C R) (c : C) (r : R c)
    (t' : σ × Log C R) : Prop :=
  sys t.1 c r t'.1 ∧ t'.2 = t.2 ++ [⟨c, r⟩]

section

variable {p : Prog C R α} {a : α}

/-- Without the log it is an execution of the program. -/
theorem Exec.of_logged {t t' : σ × Log C R} (h : Exec (logged sys) p t a t') :
    Exec sys p t.1 a t'.1 := by
  induction h with
  | ret => exact .ret
  | call hc _ ih => exact .call hc.1 ih
  | again _ _ ihb ih => exact .again ihb ih
  | done _ _ ihb ih => exact .done ihb ih

/-- Every execution has a log. -/
theorem Exec.logged {s s' : σ} (h : Exec sys p s a s') (log : Log C R) :
    ∃ log', Exec (logged sys) p (s, log) a (s', log') := by
  induction h generalizing log with
  | ret => exact ⟨log, .ret⟩
  | @call _ c r _ _ _ _ _ hc _ ih =>
    obtain ⟨log', h'⟩ := ih (log ++ [⟨c, r⟩])
    exact ⟨log', .call ⟨hc, rfl⟩ h'⟩
  | again _ _ ihb ih =>
    obtain ⟨log₁, h₁⟩ := ihb log
    obtain ⟨log', h'⟩ := ih log₁
    exact ⟨log', .again h₁ h'⟩
  | done _ _ ihb ih =>
    obtain ⟨log₁, h₁⟩ := ihb log
    obtain ⟨log', h'⟩ := ih log₁
    exact ⟨log', .done h₁ h'⟩

/-- What holds without a log holds with one. -/
theorem wp_logged {Q : α → σ → Prop} {t : σ × Log C R} (h : wp sys p Q t.1) :
    wp (Prog.logged sys) p (fun a t' => Q a t'.1) t :=
  wp_of_exec fun _ _ ha => ha.of_logged.wp h

end

end Prog

end PosixLab
