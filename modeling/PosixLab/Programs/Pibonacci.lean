/-
# Fibonacci numbers and an interrupt

`pibonacci.c` prints the Fibonacci numbers.  A SIGINT jumps back to the head of the loop from
wherever it arrives, and the local variables are what they were there.  The two numbers are
updated one after the other, so between `cur_i += past_i` and `past_i = tmp_i` they are no
neighbours; a jump from there is harmless only in the first two rounds (`fibonacci_iff`).
-/
import PosixLab.Basis.Runs
import Mathlib.Data.Nat.Fib.Basic
import Mathlib.Data.List.Chain

namespace PosixLab.Programs

open PosixLab

/-! ## 1. The program -/

/-- The statement that comes next; `killed` is the end by a signal without a handler. -/
inductive PiPc
  | setjmp
  | handler
  | sigaction
  | print
  | save
  | add
  | move
  | sleep
  | killed
deriving DecidableEq

/-- The local variables of `main`, as exact integers. -/
structure PiState where
  pc : PiPc
  curI : Int
  pastI : Int
  tmpI : Int
deriving DecidableEq

/-- The program at its start; `tmp_i` is not set. -/
def PiState.init (tmp : Int) : PiState := ⟨.setjmp, 1, 0, tmp⟩

/-- The next statement, or a SIGINT before it. -/
inductive PiAction
  | next
  | interrupt
deriving DecidableEq

/-- One step, and what it prints. -/
def piStep (s : PiState) : PiAction → Option (PiState × List Int)
  | .next =>
    match s.pc with
    | .setjmp => some ({ s with pc := .handler }, [])
    | .handler => some ({ s with pc := .sigaction }, [])
    | .sigaction => some ({ s with pc := .print }, [])
    | .print => some ({ s with pc := .save }, [s.curI])
    | .save => some ({ s with pc := .add, tmpI := s.curI }, [])
    | .add => some ({ s with pc := .move, curI := s.curI + s.pastI }, [])
    | .move => some ({ s with pc := .sleep, pastI := s.tmpI }, [])
    | .sleep => some ({ s with pc := .print }, [])
    | .killed => none
  | .interrupt =>
    match s.pc with
    -- the default action of SIGINT
    | .setjmp | .handler | .sigaction => some ({ s with pc := .killed }, [])
    | .print | .save | .add | .move | .sleep => some ({ s with pc := .print }, [])
    | .killed => none

/-! ## 2. What is printed -/

/-- The second number is the first one or comes next in the Fibonacci sequence. -/
def FibFollows (x y : Int) : Prop :=
  ∃ k, x = Nat.fib k ∧ (y = Nat.fib k ∨ y = Nat.fib (k + 1))

/-- All numbers are Fibonacci numbers, and each follows the one before it. -/
def FibPrints (log : List Int) : Prop :=
  (∀ x ∈ log, ∃ k, x = Nat.fib k) ∧ log.IsChain FibFollows

/-- No interrupt between the two assignments, but for the first two rounds. -/
def Timely (s : PiState) : PiAction → Prop
  | .next => True
  | .interrupt => s.pc = .move → s.curI ≤ 2

instance (s : PiState) : (a : PiAction) → Decidable (Timely s a)
  | .next => inferInstanceAs (Decidable True)
  | .interrupt => inferInstanceAs (Decidable (_ → _))

theorem fibPrints_nil : FibPrints [] := by
  refine ⟨fun x h => ?_, List.isChain_nil⟩
  cases h

/-- One number more is printed. -/
theorem FibPrints.concat {log : List Int} {n : Nat} (h : FibPrints log)
    (hlast : ∀ x ∈ log.getLast?, x = Nat.fib n ∨ ∃ m, n = m + 1 ∧ x = Nat.fib m) :
    FibPrints (log ++ [(Nat.fib n : Int)]) := by
  obtain ⟨hfib, hchain⟩ := h
  refine ⟨fun x hx => ?_, hchain.append (.singleton _) fun x hx y hy => ?_⟩
  · rcases List.mem_append.mp hx with hx | hx
    · exact hfib x hx
    · exact ⟨n, List.mem_singleton.mp hx⟩
  · obtain rfl : (Nat.fib n : Int) = y := by simpa using hy
    rcases hlast x hx with rfl | ⟨m, rfl, rfl⟩
    · exact ⟨n, rfl, .inl rfl⟩
    · exact ⟨m, rfl, .inr rfl⟩

/-! ## 3. What the loop keeps -/

/-- In round `n` of the sequence: the variables before each statement. -/
def InRound (n : Nat) (s : PiState) : Prop :=
  match s.pc with
  | .setjmp | .handler | .sigaction | .print | .save =>
    s.curI = Nat.fib (n + 1) ∧ s.pastI = Nat.fib n
  | .add => s.curI = Nat.fib (n + 1) ∧ s.pastI = Nat.fib n ∧ s.tmpI = Nat.fib (n + 1)
  | .move => s.curI = Nat.fib (n + 2) ∧ s.pastI = Nat.fib n ∧ s.tmpI = Nat.fib (n + 1)
  | .sleep => s.curI = Nat.fib (n + 2) ∧ s.pastI = Nat.fib (n + 1)
  | .killed => True

/-- The number printed last, if there is one. -/
def Printed (n : Nat) (log : List Int) (s : PiState) : Prop :=
  match s.pc with
  | .setjmp | .handler | .sigaction => log = []
  | .print => ∀ x ∈ log.getLast?, x = Nat.fib (n + 1) ∨ x = Nat.fib n
  | .save | .add | .move | .sleep => log.getLast? = some (Nat.fib (n + 1) : Int)
  | .killed => True

/-- What timely steps keep. -/
def OnTrack (log : List Int) (s : PiState) : Prop :=
  FibPrints log ∧ ∃ n, InRound n s ∧ Printed n log s

theorem onTrack_init (tmp : Int) : OnTrack [] (.init tmp) :=
  ⟨fibPrints_nil, 0, ⟨rfl, rfl⟩, rfl⟩

theorem OnTrack.next {log ev : List Int} {s s' : PiState} (h : OnTrack log s)
    (hs : piStep s .next = some (s', ev)) : OnTrack (log ++ ev) s' := by
  obtain ⟨hlog, n, hround, hlast⟩ := h
  obtain ⟨pc, cur, past, tmp⟩ := s
  cases pc with
  | setjmp | handler =>
    cases hs
    rw [List.append_nil]
    exact ⟨hlog, n, hround, hlast⟩
  | sigaction =>
    cases hs
    obtain rfl : log = [] := hlast
    exact ⟨hlog, n, hround, fun x hx => by simp at hx⟩
  | print =>
    cases hs
    obtain ⟨rfl, rfl⟩ := hround
    refine ⟨hlog.concat fun x hx => ?_, n, ⟨rfl, rfl⟩, by simp [Printed]⟩
    rcases hlast x hx with rfl | rfl
    · exact .inl rfl
    · exact .inr ⟨n, rfl, rfl⟩
  | save =>
    cases hs
    obtain ⟨rfl, rfl⟩ := hround
    rw [List.append_nil]
    exact ⟨hlog, n, ⟨rfl, rfl, rfl⟩, hlast⟩
  | add =>
    cases hs
    obtain ⟨rfl, rfl, rfl⟩ := hround
    rw [List.append_nil]
    refine ⟨hlog, n, ⟨?_, rfl, rfl⟩, hlast⟩
    rw [Nat.fib_add_two]
    push_cast
    exact Int.add_comm _ _
  | move =>
    cases hs
    obtain ⟨rfl, rfl, rfl⟩ := hround
    rw [List.append_nil]
    exact ⟨hlog, n, ⟨rfl, rfl⟩, hlast⟩
  | sleep =>
    cases hs
    obtain ⟨rfl, rfl⟩ := hround
    rw [List.append_nil]
    refine ⟨hlog, n + 1, ⟨rfl, rfl⟩, fun x hx => ?_⟩
    rw [show log.getLast? = _ from hlast] at hx
    exact .inr (Option.some.inj hx).symm
  | killed => cases hs

/-- From the third round on the numbers grow. -/
theorem two_lt_fib {n : Nat} (h : 2 ≤ n) : (2 : Int) < Nat.fib (n + 2) := by
  have hmono : Nat.fib 4 ≤ Nat.fib (n + 2) := Nat.fib_mono (by omega)
  have hfour : Nat.fib 4 = 3 := rfl
  omega

theorem OnTrack.interrupt {log ev : List Int} {s s' : PiState} (h : OnTrack log s)
    (ht : Timely s .interrupt) (hs : piStep s .interrupt = some (s', ev)) :
    OnTrack (log ++ ev) s' := by
  obtain ⟨hlog, n, hround, hlast⟩ := h
  obtain ⟨pc, cur, past, tmp⟩ := s
  -- behind the `printf` of a round its number is the last one
  have hprinted : ∀ {m}, log.getLast? = some (Nat.fib (m + 1) : Int) →
      ∀ x ∈ log.getLast?, x = (Nat.fib (m + 1) : Int) := by
    intro m hm x hx
    rw [hm] at hx
    exact (Option.some.inj hx).symm
  cases pc with
  | setjmp | handler | sigaction =>
    cases hs
    rw [List.append_nil]
    exact ⟨hlog, n, trivial, trivial⟩
  | print =>
    cases hs
    rw [List.append_nil]
    exact ⟨hlog, n, hround, hlast⟩
  | save =>
    cases hs
    rw [List.append_nil]
    exact ⟨hlog, n, hround, fun x hx => .inl (hprinted hlast x hx)⟩
  | add =>
    cases hs
    obtain ⟨hcur, hpast, -⟩ := hround
    rw [List.append_nil]
    exact ⟨hlog, n, ⟨hcur, hpast⟩, fun x hx => .inl (hprinted hlast x hx)⟩
  | move =>
    cases hs
    obtain ⟨rfl, rfl, rfl⟩ := hround
    rw [List.append_nil]
    have hle : (Nat.fib (n + 2) : Int) ≤ 2 := ht rfl
    -- in the first two rounds the numbers are neighbours all the same
    obtain rfl | rfl : n = 0 ∨ n = 1 := by
      by_contra hn
      have hgt := two_lt_fib (n := n) (by omega)
      omega
    · exact ⟨hlog, 0, ⟨rfl, rfl⟩, fun x hx => .inl (hprinted hlast x hx)⟩
    · exact ⟨hlog, 2, ⟨rfl, rfl⟩, fun x hx => .inr (hprinted hlast x hx)⟩
  | sleep =>
    cases hs
    rw [List.append_nil]
    exact ⟨hlog, n + 1, hround, fun x hx => .inr (hprinted hlast x hx)⟩
  | killed => cases hs

theorem onTrack_of_runs {tmp : Int} {log : List Int} {s : PiState}
    (h : Runs piStep Timely (.init tmp) log s) : OnTrack log s := by
  refine h.invariant (I := OnTrack) (onTrack_init tmp) ?_
  intro log s a s' ev _ ih ht hs
  cases a with
  | next => exact ih.next hs
  | interrupt => exact ih.interrupt ht hs

/-! ## 4. The exact condition -/

/-- The sum of a Fibonacci number and the second one before it comes next to nothing. -/
theorem not_fibFollows_add {n : Nat} (h : 2 ≤ n) :
    ¬FibFollows (Nat.fib (n + 2)) (Nat.fib (n + 2) + Nat.fib n) := by
  rintro ⟨k, hk, hnext⟩
  have hgt := two_lt_fib h
  have hk2 : 2 ≤ k := by
    by_contra hlt
    have hle : Nat.fib k ≤ Nat.fib 1 := Nat.fib_mono (by omega)
    have hone : Nat.fib 1 = 1 := rfl
    omega
  obtain rfl : n + 2 = k := by
    refine Nat.fib_strictMonoOn.injOn (Set.mem_Ici.mpr (by omega)) (Set.mem_Ici.mpr hk2) ?_
    exact_mod_cast hk
  have hpos : 0 < Nat.fib n := Nat.fib_pos.mpr (by omega)
  have hlt : Nat.fib n < Nat.fib (n + 1) := Nat.fib_lt_fib_succ h
  have hsum : Nat.fib (n + 2 + 1) = Nat.fib (n + 1) + Nat.fib (n + 2) := Nat.fib_add_two
  omega

/-- After an interrupt that is not timely, and no other one, a wrong number is printed. -/
theorem untimely_prints {tmp : Int} {log : List Int} {s : PiState}
    (h : Runs piStep Timely (.init tmp) log s) (hpc : s.pc = .move) (hcur : 2 < s.curI) :
    ∃ log' t, Runs piStep Timely { s with pc := .print } log' t ∧ ¬FibPrints (log ++ log') := by
  obtain ⟨-, n, hround, -⟩ := onTrack_of_runs h
  obtain ⟨pc, cur, past, tmp'⟩ := s
  obtain rfl : pc = .move := hpc
  obtain ⟨rfl, rfl, -⟩ := hround
  have hn : 2 ≤ n := by
    by_contra hlt
    have hle : Nat.fib (n + 2) ≤ Nat.fib 3 := Nat.fib_mono (by omega)
    have hthree : Nat.fib 3 = 2 := rfl
    have hcur' : (2 : Int) < Nat.fib (n + 2) := hcur
    omega
  have hexec : exec piStep Timely ⟨.print, Nat.fib (n + 2), Nat.fib n, tmp'⟩
      [.next, .next, .next, .next, .next, .next] =
        some ([(Nat.fib (n + 2) : Int), Nat.fib (n + 2) + Nat.fib n], _) := rfl
  refine ⟨_, _, runs_of_exec hexec, ?_⟩
  rintro ⟨-, hchain⟩
  exact not_fibFollows_add hn (List.isChain_append.mp hchain).2.1.rel

/-- For any number of iterations, and interrupts at any statement boundary: as long as each of
them is timely, the numbers printed are Fibonacci numbers, each of them the one before it or the
next one.  And a step is timely exactly if this goes on for all timely steps behind it. -/
theorem fibonacci_iff {tmp : Int} {log : List Int} {s : PiState}
    (h : Runs piStep Timely (.init tmp) log s) :
    FibPrints log ∧ ∀ a s' ev, piStep s a = some (s', ev) →
      (Timely s a ↔
        ∀ log' t, Runs piStep Timely s' log' t → FibPrints (log ++ ev ++ log')) := by
  refine ⟨(onTrack_of_runs h).1, fun a s' ev hs => ⟨fun ht log' t hrun => ?_, fun hall => ?_⟩⟩
  · exact (onTrack_of_runs ((h.snoc ht hs).trans hrun)).1
  · by_contra ht
    cases a with
    | next => exact ht trivial
    | interrupt =>
      obtain ⟨hpc, hcur⟩ : s.pc = .move ∧ 2 < s.curI := by simpa [Timely] using ht
      obtain ⟨log', t, hrun, hbad⟩ := untimely_prints h hpc hcur
      have hstep : piStep s .interrupt = some ({ s with pc := .print }, []) := by
        simp [piStep, hpc]
      obtain ⟨rfl, rfl⟩ : { s with pc := .print } = s' ∧ [] = ev := by simpa [hstep] using hs
      exact hbad (by simpa using hall log' t hrun)

/-- Two rounds, the second of them with an interrupt between the two assignments. -/
def twoRounds : List PiAction :=
  [.next, .next, .next, .next, .next, .next, .next, .next,
    .next, .next, .next, .interrupt, .next, .next, .next]

theorem fibonacci_iff_two : ∃ log s, Runs piStep Timely (.init 0) log s ∧ log = [1, 1, 2] ∧
    FibPrints log ∧ ∀ a s' ev, piStep s a = some (s', ev) →
      (Timely s a ↔
        ∀ log' t, Runs piStep Timely s' log' t → FibPrints (log ++ ev ++ log')) := by
  obtain ⟨log, s, hrun, hlog⟩ : ∃ log s, Runs piStep Timely (.init 0) log s ∧
      decide (log = [1, 1, 2]) = true :=
    exists_runs_of_exec twoRounds _ (by decide)
  exact ⟨log, s, hrun, of_decide_eq_true hlog, fibonacci_iff hrun⟩

/-- In the third round the interrupt is followed by 3 and 4. -/
theorem interrupt_prints_four :
    ∃ log s, Runs piStep anyStep (.init 0) log s ∧ log = [1, 1, 2, 3, 4] ∧ ¬FibPrints log := by
  obtain ⟨log, s, hrun, hlog⟩ : ∃ log s, Runs piStep anyStep (.init 0) log s ∧
      decide (log = [1, 1, 2, 3, 4]) = true :=
    exists_runs_of_exec
      [.next, .next, .next, .next, .next, .next, .next, .next, .next, .next, .next, .next,
        .next, .next, .next, .next, .interrupt, .next, .next, .next, .next, .next, .next]
      _ (by decide)
  obtain rfl : log = [1, 1, 2, 3, 4] := of_decide_eq_true hlog
  refine ⟨_, s, hrun, rfl, ?_⟩
  rintro ⟨-, hchain⟩
  have hsplit : ([1, 1, 2, 3, 4] : List Int) = [1, 1, 2] ++ [3, 4] := rfl
  rw [hsplit] at hchain
  have hlast : FibFollows 3 4 := (List.isChain_append.mp hchain).2.1.rel
  exact not_fibFollows_add (n := 2) (by decide) hlast

end PosixLab.Programs
