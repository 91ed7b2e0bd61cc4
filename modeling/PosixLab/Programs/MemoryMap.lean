/-
# A counter in a mapped file

In `memorymapfile.c` a parent counts to 50 in a file that its child has mapped, too, and the child
prints the values that it sees.  Every access is between two calls of `flock`, which are to keep
the two apart.  A lock belongs to an open file description, though, and what `fork` copies is the
descriptor: the two processes have one description, and the call of one of them converts the lock
of the other.

A step is one call or one access.  The descriptions are a parameter, so that the locks can be
compared with those of two processes that have each opened the file: these exclude each other, and
those of the program never do (`locks_exclude_iff`).  The values that the child prints go up
whatever the locks do (`observed_goes_up`), since only the parent writes.
-/
import PosixLab.Basis.Progress
import Mathlib.Data.Fintype.Basic

namespace PosixLab.Programs

open PosixLab

/-! ## 1. The locks of a file -/

inductive FlockMode
  | shared
  | exclusive
deriving DecidableEq

/-- The lock that an open file description has on the file. -/
abbrev Flocks (δ : Type*) := δ → Option FlockMode

/-- A lock may be had beside that of another description. -/
def FlockMode.Beside (mode : FlockMode) (other : Option FlockMode) : Prop :=
  other = none ∨ (mode = .shared ∧ other = some .shared)

instance (mode : FlockMode) : DecidablePred mode.Beside := fun _ =>
  inferInstanceAs (Decidable (_ ∨ _))

variable {δ : Type*} [Fintype δ] [DecidableEq δ]

/-- `flock` with `LOCK_SH` or `LOCK_EX`: it waits for the other descriptions, and converts the lock
of its own. -/
def Flocks.lock (held : Flocks δ) (d : δ) (mode : FlockMode) : Option (Flocks δ) :=
  if ∀ e, e ≠ d → mode.Beside (held e) then some (Function.update held d (some mode)) else none

/-- `flock` with `LOCK_UN`. -/
def Flocks.unlock (held : Flocks δ) (d : δ) : Flocks δ := Function.update held d none

/-! ## 2. The two processes -/

inductive MapSide
  | parent
  | child
deriving DecidableEq

/-- Where the parent stands, with the value of its loop. -/
inductive WriterPc
  | started
  | zero
  | lock (i : Nat)
  | store (i : Nat)
  | unlock (i : Nat)
  | report (i : Nat)
  | sleep (i : Nat)
  | wait
  | done
  | ended
deriving DecidableEq

/-- Where the child stands, with the value that it has read. -/
inductive ReaderPc
  | started
  | lock
  | load
  | unlock (v : Nat)
  | test (v : Nat)
  | done
  | ended
deriving DecidableEq

/-- `(uint64_t)-1`. -/
def noValue : Nat := 18446744073709551615

/-- The processes behind `mmap`, the counter that they share, and the locks. -/
structure MapSys (δ : Type*) where
  parent : WriterPc
  child : ReaderPc
  last : Nat
  counter : Nat
  held : Flocks δ

/-- `ftruncate` has filled the file with zeros. -/
def MapSys.init : MapSys δ where
  parent := .started
  child := .started
  last := noValue
  counter := 0
  held _ := none

/-- What is printed, and a round of the child in which it has seen nothing new. -/
inductive MapEvent
  | silent
  | idle
  | started (p : MapSide)
  | wrote (i : Nat)
  | observed (v : Nat)
  | done (p : MapSide)
deriving DecidableEq

/-- One step of the parent. -/
def writerStep (d : δ) (s : MapSys δ) : Option (MapSys δ × List MapEvent) :=
  match s.parent with
  | .started => some ({ s with parent := .zero }, [.started .parent])
  | .zero => some ({ s with parent := .lock 0, counter := 0 }, [.silent])
  | .lock i =>
    (s.held.lock d .exclusive).map fun held => ({ s with parent := .store i, held }, [.silent])
  | .store i => some ({ s with parent := .unlock i, counter := i }, [.silent])
  | .unlock i => some ({ s with parent := .report i, held := s.held.unlock d }, [.silent])
  | .report i =>
    some ({ s with parent := .sleep i }, [if i % 5 = 0 then .wrote i else .silent])
  | .sleep i =>
    some ({ s with parent := if i + 1 ≤ 50 then .lock (i + 1) else .wait }, [.silent])
  | .wait => if s.child = .ended then some ({ s with parent := .done }, [.silent]) else none
  | .done => some ({ s with parent := .ended }, [.done .parent])
  | .ended => none

/-- One step of the child. -/
def readerStep (d : δ) (s : MapSys δ) : Option (MapSys δ × List MapEvent) :=
  match s.child with
  | .started => some ({ s with child := .lock }, [.started .child])
  | .lock => (s.held.lock d .shared).map fun held => ({ s with child := .load, held }, [.silent])
  | .load => some ({ s with child := .unlock s.counter }, [.silent])
  | .unlock v => some ({ s with child := .test v, held := s.held.unlock d }, [.silent])
  | .test v =>
    if v ≠ s.last then
      some ({ s with child := if 50 ≤ v then .done else .lock, last := v }, [.observed v])
    else some ({ s with child := .lock }, [.idle])
  | .done => some ({ s with child := .ended }, [.done .child])
  | .ended => none

/-- One step of one of the two, whose descriptors are of these descriptions. -/
def mapStep (desc : MapSide → δ) (s : MapSys δ) : MapSide → Option (MapSys δ × List MapEvent)
  | .parent => writerStep (desc .parent) s
  | .child => readerStep (desc .child) s

/-- What `fork` leaves: the descriptors are copies, of one description. -/
def forked (_ : MapSide) : Unit := ()

/-- What a step can do. -/
inductive MapMove (desc : MapSide → δ) (s : MapSys δ) :
    MapSide → MapSys δ → List MapEvent → Prop
  | parentStarted (hpc : s.parent = .started) :
      MapMove desc s .parent { s with parent := .zero } [.started .parent]
  | zero (hpc : s.parent = .zero) :
      MapMove desc s .parent { s with parent := .lock 0, counter := 0 } [.silent]
  | lockEx (i : Nat) (hpc : s.parent = .lock i)
      (hfree : ∀ e, e ≠ desc .parent → s.held e = none) :
      MapMove desc s .parent { s with
        parent := .store i
        held := Function.update s.held (desc .parent) (some .exclusive) } [.silent]
  | store (i : Nat) (hpc : s.parent = .store i) :
      MapMove desc s .parent { s with parent := .unlock i, counter := i } [.silent]
  | unlockEx (i : Nat) (hpc : s.parent = .unlock i) :
      MapMove desc s .parent { s with
        parent := .report i
        held := Function.update s.held (desc .parent) none } [.silent]
  | report (i : Nat) (hpc : s.parent = .report i) :
      MapMove desc s .parent { s with parent := .sleep i }
        [if i % 5 = 0 then .wrote i else .silent]
  | sleep (i : Nat) (hpc : s.parent = .sleep i) :
      MapMove desc s .parent { s with parent := if i + 1 ≤ 50 then .lock (i + 1) else .wait }
        [.silent]
  | wait (hpc : s.parent = .wait) (hchild : s.child = .ended) :
      MapMove desc s .parent { s with parent := .done } [.silent]
  | parentDone (hpc : s.parent = .done) :
      MapMove desc s .parent { s with parent := .ended } [.done .parent]
  | childStarted (hpc : s.child = .started) :
      MapMove desc s .child { s with child := .lock } [.started .child]
  | lockSh (hpc : s.child = .lock)
      (hfree : ∀ e, e ≠ desc .child → s.held e ≠ some .exclusive) :
      MapMove desc s .child { s with
        child := .load
        held := Function.update s.held (desc .child) (some .shared) } [.silent]
  | load (hpc : s.child = .load) :
      MapMove desc s .child { s with child := .unlock s.counter } [.silent]
  | unlockSh (v : Nat) (hpc : s.child = .unlock v) :
      MapMove desc s .child { s with
        child := .test v
        held := Function.update s.held (desc .child) none } [.silent]
  | observed (v : Nat) (hpc : s.child = .test v) (hne : v ≠ s.last) :
      MapMove desc s .child { s with
        child := if 50 ≤ v then .done else .lock
        last := v } [.observed v]
  | idle (hpc : s.child = .test s.last) : MapMove desc s .child { s with child := .lock } [.idle]
  | childDone (hpc : s.child = .done) :
      MapMove desc s .child { s with child := .ended } [.done .child]

variable {desc : MapSide → δ} {s s' : MapSys δ} {p : MapSide} {ev log : List MapEvent}

theorem mapStep_move (h : mapStep desc s p = some (s', ev)) : MapMove desc s p s' ev := by
  cases p with
  | parent =>
    simp only [mapStep, writerStep] at h
    split at h
    · rename_i hpc
      cases h
      exact .parentStarted hpc
    · rename_i hpc
      cases h
      exact .zero hpc
    · rename_i i hpc
      obtain ⟨held, hlock, heq⟩ := Option.map_eq_some_iff.mp h
      obtain ⟨hfree, hheld⟩ := Option.ite_none_right_eq_some.mp hlock
      cases hheld
      cases heq
      exact .lockEx i hpc fun e he => (hfree e he).resolve_right fun h => by cases h.1
    · rename_i i hpc
      cases h
      exact .store i hpc
    · rename_i i hpc
      cases h
      exact .unlockEx i hpc
    · rename_i i hpc
      cases h
      exact .report i hpc
    · rename_i i hpc
      cases h
      exact .sleep i hpc
    · rename_i hpc
      obtain ⟨hchild, heq⟩ := Option.ite_none_right_eq_some.mp h
      cases heq
      exact .wait hpc hchild
    · rename_i hpc
      cases h
      exact .parentDone hpc
    · cases h
  | child =>
    simp only [mapStep, readerStep] at h
    split at h
    · rename_i hpc
      cases h
      exact .childStarted hpc
    · rename_i hpc
      obtain ⟨held, hlock, heq⟩ := Option.map_eq_some_iff.mp h
      obtain ⟨hfree, hheld⟩ := Option.ite_none_right_eq_some.mp hlock
      cases hheld
      cases heq
      refine .lockSh hpc fun e he hex => ?_
      rcases hfree e he with h | ⟨-, h⟩ <;> rw [hex] at h <;> cases h
    · rename_i hpc
      cases h
      exact .load hpc
    · rename_i v hpc
      cases h
      exact .unlockSh v hpc
    · rename_i v hpc
      split at h
      · rename_i hne
        cases h
        exact .observed v hpc hne
      · rename_i heq
        cases h
        exact .idle (by rw [hpc, not_not.mp heq])
    · rename_i hpc
      cases h
      exact .childDone hpc
    · cases h

/-! ## 3. What the locks keep apart -/

/-- The parent is between its two calls of `flock`. -/
def WriterPc.inside : WriterPc → Bool
  | .store _ | .unlock _ => true
  | _ => false

/-- The child is between its two calls of `flock`. -/
def ReaderPc.inside : ReaderPc → Bool
  | .load | .unlock _ => true
  | _ => false

/-- Whoever is inside has a lock, and only one of them is. -/
structure Locks (desc : MapSide → δ) (s : MapSys δ) : Prop where
  writer : s.parent.inside = true → s.held (desc .parent) = some .exclusive
  reader : s.child.inside = true → s.held (desc .child) = some .shared
  apart : s.parent.inside = true → s.child.inside = false

omit [Fintype δ] in
/-- With two descriptions each process leaves the lock of the other one as it is. -/
theorem Locks.step (h : Locks desc s) (hne : desc .parent ≠ desc .child)
    (hm : MapMove desc s p s' ev) : Locks desc s' := by
  cases hm with
  | parentStarted hpc | zero hpc | report i hpc | wait hpc _ | parentDone hpc =>
    exact ⟨fun hin => (by cases hin), h.reader, fun hin => (by cases hin)⟩
  | lockEx i hpc hfree =>
    refine ⟨fun _ => Function.update_self .., fun hin => by simpa [hne.symm] using h.reader hin,
      fun _ => Bool.eq_false_iff.mpr fun hin => ?_⟩
    have hnone := hfree _ hne.symm
    rw [h.reader hin] at hnone
    cases hnone
  | store i hpc =>
    have hin : s.parent.inside = true := by rw [hpc]; rfl
    exact ⟨fun _ => h.writer hin, h.reader, fun _ => h.apart hin⟩
  | unlockEx i hpc =>
    exact ⟨fun hin => (by cases hin), fun hin => by simpa [hne.symm] using h.reader hin,
      fun hin => (by cases hin)⟩
  | sleep i hpc =>
    have hout : (if i + 1 ≤ 50 then WriterPc.lock (i + 1) else .wait).inside = false := by
      split <;> rfl
    have hfalse : (if i + 1 ≤ 50 then WriterPc.lock (i + 1) else .wait).inside ≠ true := by
      rw [hout]
      exact Bool.false_ne_true
    exact ⟨fun hin => absurd hin hfalse, h.reader, fun hin => absurd hin hfalse⟩
  | childStarted hpc | idle hpc | childDone hpc =>
    exact ⟨h.writer, fun hin => (by cases hin), fun _ => rfl⟩
  | lockSh hpc hfree =>
    refine ⟨fun hin => by simpa [hne] using h.writer hin, fun _ => Function.update_self ..,
      fun hin => ?_⟩
    exact absurd (h.writer hin) (hfree _ hne)
  | load hpc =>
    have hin : s.child.inside = true := by rw [hpc]; rfl
    refine ⟨h.writer, fun _ => h.reader hin, fun hw => ?_⟩
    rw [h.apart hw] at hin
    cases hin
  | unlockSh v hpc =>
    exact ⟨fun hin => by simpa [hne] using h.writer hin, fun hin => (by cases hin), fun _ => rfl⟩
  | observed v hpc hv =>
    have hout : (if 50 ≤ v then ReaderPc.done else .lock).inside = false := by split <;> rfl
    exact ⟨h.writer, fun hin => absurd hin (by simp [hout]), fun _ => hout⟩

/-- With one description for both, both can be inside. -/
theorem exists_both_inside {desc : MapSide → δ} (heq : desc .parent = desc .child) :
    ∃ log s, Runs (mapStep desc) anyStep .init log s ∧
      s.parent.inside = true ∧ s.child.inside = true := by
  obtain ⟨held, hheld⟩ : ∃ held : Flocks δ,
      held = Function.update (fun _ => none) (desc .parent) (some .exclusive) := ⟨_, rfl⟩
  have hex : mapStep desc ⟨.lock 0, .lock, noValue, 0, fun _ => none⟩ .parent =
      some (⟨.store 0, .lock, noValue, 0, held⟩, [.silent]) := by
    simp [mapStep, writerStep, Flocks.lock, FlockMode.Beside, hheld]
  -- the description of the child is that of the parent, so nobody else has a lock
  have hsh : mapStep desc ⟨.store 0, .lock, noValue, 0, held⟩ .child =
      some (⟨.store 0, .load, noValue, 0, Function.update held (desc .child) (some .shared)⟩,
        [.silent]) := by
    have hfree : ∀ e, e ≠ desc .child → held e = none := by
      intro e he
      rw [hheld, Function.update_of_ne (heq ▸ he)]
    simp only [mapStep, readerStep, Flocks.lock, FlockMode.Beside]
    rw [if_pos fun e he => .inl (hfree e he)]
    rfl
  have hstart : Runs (mapStep desc) anyStep .init _ ⟨.lock 0, .lock, noValue, 0, fun _ => none⟩ :=
    ((Runs.one (a := .parent) trivial rfl).snoc (a := .parent) trivial rfl).snoc (a := .child)
      trivial rfl
  exact ⟨_, _, (hstart.snoc trivial hex).snoc trivial hsh, rfl, rfl⟩

/-- The two processes are never inside at the same time, whatever the interleaving, if and only if
their descriptors are of different descriptions; and with those that `fork` leaves both can be. -/
theorem locks_exclude_iff (desc : MapSide → δ) :
    ((∀ log s, Runs (mapStep desc) anyStep .init log s →
      ¬(s.parent.inside = true ∧ s.child.inside = true)) ↔ desc .parent ≠ desc .child) ∧
    ∃ log s, Runs (mapStep forked) anyStep .init log s ∧
      s.parent.inside = true ∧ s.child.inside = true := by
  refine ⟨⟨fun h heq => ?_, ?_⟩, exists_both_inside rfl⟩
  · obtain ⟨log, s, hrun, hin⟩ := exists_both_inside heq
    exact h log s hrun hin
  · rintro hne log s hrun ⟨hw, hr⟩
    have hlocks : Locks desc s := by
      refine hrun.invariant (I := fun _ s => Locks desc s) ?_ ?_
      · exact ⟨fun hin => (by cases hin), fun hin => (by cases hin), fun hin => (by cases hin)⟩
      · intro log s p s' ev _ ih _ hs
        exact ih.step hne (mapStep_move hs)
    rw [hlocks.apart hw] at hr
    cases hr

/-! ## 4. What the child sees -/

def MapEvent.observedValue : MapEvent → Option Nat
  | .observed v => some v
  | _ => none

def MapEvent.wroteValue : MapEvent → Option Nat
  | .wrote i => some i
  | _ => none

/-- The values that the child prints. -/
def observedOf (log : List MapEvent) : List Nat := log.filterMap MapEvent.observedValue

/-- The values that the parent prints. -/
def wroteOf (log : List MapEvent) : List Nat := log.filterMap MapEvent.wroteValue

/-- The multiples of five below `n`. -/
def fives (n : Nat) : List Nat := (List.range n).filter (· % 5 = 0)

/-- What is in the file, by where the parent stands. -/
def WriterPc.Fits (counter : Nat) : WriterPc → Prop
  | .started | .zero => counter = 0
  | .lock i | .store i => i ≤ 50 ∧ counter = i - 1
  | .unlock i | .report i | .sleep i => i ≤ 50 ∧ counter = i
  | .wait | .done | .ended => counter = 50

/-- How many values the parent is past. -/
def WriterPc.reported : WriterPc → Nat
  | .started | .zero => 0
  | .lock i | .store i | .unlock i | .report i => i
  | .sleep i => i + 1
  | .wait | .done | .ended => 51

/-- The value that the child has read and not yet compared. -/
def ReaderPc.read : ReaderPc → Option Nat
  | .unlock v | .test v => some v
  | _ => none

/-- The child has left its loop. -/
def ReaderPc.out : ReaderPc → Bool
  | .done | .ended => true
  | _ => false

/-- What holds along the runs, whatever the locks do. -/
structure Counted (log : List MapEvent) (s : MapSys δ) : Prop where
  fits : s.parent.Fits s.counter
  wrote : wroteOf log = fives s.parent.reported
  last : s.last = noValue ∨ s.last ≤ s.counter
  read : ∀ v, s.child.read = some v → v ≤ s.counter ∧ (s.last = noValue ∨ s.last ≤ v)
  out : s.child.out = true ↔ s.last = 50
  observed : (observedOf log).getLast? = if s.last = noValue then none else some s.last
  up : (observedOf log).Pairwise (· < ·)
  below : ∀ v ∈ observedOf log, v ≤ s.last
  waited : s.parent = .done ∨ s.parent = .ended → s.child = .ended

omit [Fintype δ] [DecidableEq δ] in
theorem WriterPc.Fits.le {s : MapSys δ} (h : s.parent.Fits s.counter) : s.counter ≤ 50 := by
  cases hpc : s.parent <;> simp only [hpc, WriterPc.Fits] at h <;> omega

theorem fives_succ (n : Nat) : fives (n + 1) = fives n ++ if n % 5 = 0 then [n] else [] := by
  rw [fives, List.range_succ, List.filter_append, ← fives]
  split <;> simp [*]

omit [Fintype δ] [DecidableEq δ] in
/-- A step of the parent that prints nothing. -/
theorem Counted.writer {s' : MapSys δ} {e : MapEvent} (h : Counted log s)
    (hchild : s'.child = s.child) (hlast : s'.last = s.last) (hle : s.counter ≤ s'.counter)
    (hfits : s'.parent.Fits s'.counter) (he : e.observedValue = none)
    (hwrote : wroteOf (log ++ [e]) = fives s'.parent.reported)
    (hwaited : s'.parent = .done ∨ s'.parent = .ended → s.child = .ended) :
    Counted (log ++ [e]) s' := by
  have hobs : observedOf (log ++ [e]) = observedOf log := by
    rw [observedOf, filterMap_snoc, he]
    exact List.append_nil _
  refine ⟨hfits, hwrote, ?_, fun v hv => ?_, ?_, ?_, ?_, ?_, by rwa [hchild]⟩
  · rw [hlast]
    exact h.last.imp_right fun hl => hl.trans hle
  · rw [hchild] at hv
    rw [hlast]
    exact ⟨(h.read v hv).1.trans hle, (h.read v hv).2⟩
  · rw [hchild, hlast]
    exact h.out
  · rw [hobs, hlast]
    exact h.observed
  · rw [hobs]
    exact h.up
  · rw [hobs, hlast]
    exact h.below

omit [Fintype δ] [DecidableEq δ] in
/-- A step of the child that prints no value. -/
theorem Counted.reader {s' : MapSys δ} {e : MapEvent} (h : Counted log s)
    (hparent : s'.parent = s.parent) (hcounter : s'.counter = s.counter) (hlast : s'.last = s.last)
    (hread : ∀ v, s'.child.read = some v → s.child.read = some v ∨ v = s.counter)
    (hout : s'.child.out = s.child.out) (hended : s.child = .ended → s'.child = .ended)
    (he : e.observedValue = none) (hw : e.wroteValue = none) : Counted (log ++ [e]) s' := by
  have hobs : observedOf (log ++ [e]) = observedOf log := by
    rw [observedOf, filterMap_snoc, he]
    exact List.append_nil _
  have hwrote : wroteOf (log ++ [e]) = wroteOf log := by
    rw [wroteOf, filterMap_snoc, hw]
    exact List.append_nil _
  refine ⟨?_, ?_, ?_, fun v hv => ?_, ?_, ?_, ?_, ?_, fun hp => ?_⟩
  · rw [hparent, hcounter]
    exact h.fits
  · rw [hwrote, hparent]
    exact h.wrote
  · rw [hlast, hcounter]
    exact h.last
  · rw [hlast, hcounter]
    rcases hread v hv with hv | rfl
    · exact h.read v hv
    · exact ⟨Nat.le_refl _, h.last⟩
  · rw [hout, hlast]
    exact h.out
  · rw [hobs, hlast]
    exact h.observed
  · rw [hobs]
    exact h.up
  · rw [hobs, hlast]
    exact h.below
  · rw [hparent] at hp
    exact hended (h.waited hp)

omit [Fintype δ] [DecidableEq δ] in
/-- The child prints a value: it is above all that it has printed before. -/
theorem Counted.sees {v : Nat} (h : Counted log s) (hpc : s.child = .test v) (hne : v ≠ s.last) :
    Counted (log ++ [.observed v])
      { s with child := if 50 ≤ v then .done else .lock, last := v } := by
  obtain ⟨hle, hlast⟩ := h.read v (by rw [hpc]; rfl)
  have hfifty : v ≤ 50 := hle.trans h.fits.le
  have hval : v ≠ noValue := by
    rw [noValue]
    omega
  have hobs : observedOf (log ++ [.observed v]) = observedOf log ++ [v] := filterMap_snoc ..
  have hnew : ∀ w ∈ observedOf log, w < v := by
    intro w hw
    have hw' := h.below w hw
    rcases hlast with hno | hlt
    · have hnil := h.observed
      rw [if_pos hno, List.getLast?_eq_none_iff] at hnil
      rw [hnil] at hw
      cases hw
    · omega
  refine ⟨h.fits, ?_, .inr hle, fun w hw => ?_, ?_, ?_, ?_, fun w hw => ?_, fun hp => ?_⟩
  · rw [wroteOf, filterMap_snoc]
    exact (List.append_nil _).trans h.wrote
  · simp only at hw
    split at hw <;> cases hw
  · simp only
    split
    · exact iff_of_true rfl (by omega)
    · exact iff_of_false (by simp [ReaderPc.out]) (by omega)
  · rw [hobs, if_neg hval, List.getLast?_concat]
  · rw [hobs]
    exact List.pairwise_append.mpr ⟨h.up, List.pairwise_singleton _ _, by simpa using hnew⟩
  · rw [hobs] at hw
    rcases List.mem_append.mp hw with hw | hw
    · exact Nat.le_of_lt (hnew w hw)
    · exact Nat.le_of_eq (List.mem_singleton.mp hw)
  · have := h.waited hp
    rw [hpc] at this
    cases this

omit [Fintype δ] in
theorem Counted.step (h : Counted log s) (hm : MapMove desc s p s' ev) :
    Counted (log ++ ev) s' := by
  have hfits := h.fits
  have hwrote := h.wrote
  have hnone : ∀ {e : MapEvent}, e.wroteValue = none → wroteOf (log ++ [e]) = wroteOf log := by
    intro e he
    rw [wroteOf, filterMap_snoc, he]
    exact List.append_nil _
  cases hm with
  | parentStarted hpc =>
    rw [hpc] at hfits hwrote
    exact h.writer rfl rfl le_rfl hfits rfl ((hnone rfl).trans hwrote) (by simp)
  | zero hpc =>
    rw [hpc] at hfits hwrote
    exact h.writer rfl rfl (Nat.le_of_eq hfits) ⟨Nat.zero_le _, rfl⟩ rfl
      ((hnone rfl).trans hwrote) (by simp)
  | lockEx i hpc hfree =>
    rw [hpc] at hfits hwrote
    exact h.writer rfl rfl le_rfl hfits rfl ((hnone rfl).trans hwrote) (by simp)
  | store i hpc =>
    rw [hpc] at hfits hwrote
    exact h.writer rfl rfl (by rw [hfits.2]; exact Nat.sub_le i 1) ⟨hfits.1, rfl⟩ rfl
      ((hnone rfl).trans hwrote) (by simp)
  | unlockEx i hpc =>
    rw [hpc] at hfits hwrote
    exact h.writer rfl rfl le_rfl hfits rfl ((hnone rfl).trans hwrote) (by simp)
  | report i hpc =>
    rw [hpc] at hfits hwrote
    refine h.writer rfl rfl le_rfl hfits (by split <;> rfl) ?_ (by simp)
    rw [wroteOf, filterMap_snoc, ← wroteOf, hwrote, WriterPc.reported, WriterPc.reported,
      fives_succ]
    by_cases hi : i % 5 = 0 <;> simp [hi, MapEvent.wroteValue]
  | sleep i hpc =>
    rw [hpc] at hfits hwrote
    obtain ⟨hi, hcounter⟩ := hfits
    by_cases hlt : i + 1 ≤ 50
    · simp only [if_pos hlt]
      exact h.writer rfl rfl le_rfl ⟨hlt, hcounter⟩ rfl ((hnone rfl).trans hwrote) (by simp)
    · simp only [if_neg hlt]
      obtain rfl : i = 50 := by omega
      exact h.writer rfl rfl le_rfl hcounter rfl ((hnone rfl).trans hwrote) (by simp)
  | wait hpc hchild =>
    rw [hpc] at hfits hwrote
    exact h.writer rfl rfl le_rfl hfits rfl ((hnone rfl).trans hwrote) fun _ => hchild
  | parentDone hpc =>
    rw [hpc] at hfits hwrote
    exact h.writer rfl rfl le_rfl hfits rfl ((hnone rfl).trans hwrote)
      fun _ => h.waited (.inl hpc)
  | childStarted hpc =>
    exact h.reader rfl rfl rfl (fun v hv => by cases hv) (by rw [hpc]; rfl)
      (fun he => by rw [hpc] at he; cases he) rfl rfl
  | lockSh hpc hfree =>
    exact h.reader rfl rfl rfl (fun v hv => by cases hv) (by rw [hpc]; rfl)
      (fun he => by rw [hpc] at he; cases he) rfl rfl
  | load hpc =>
    refine h.reader rfl rfl rfl (fun v hv => ?_) (by rw [hpc]; rfl)
      (fun he => by rw [hpc] at he; cases he) rfl rfl
    cases hv
    exact .inr rfl
  | unlockSh v hpc =>
    exact h.reader rfl rfl rfl (fun w hw => .inl (by rw [hpc]; exact hw)) (by rw [hpc]; rfl)
      (fun he => by rw [hpc] at he; cases he) rfl rfl
  | observed v hpc hne => exact h.sees hpc hne
  | idle hpc =>
    exact h.reader rfl rfl rfl (fun v hv => by cases hv) (by rw [hpc]; rfl)
      (fun he => by rw [hpc] at he; cases he) rfl rfl
  | childDone hpc =>
    exact h.reader rfl rfl rfl (fun v hv => by cases hv) (by rw [hpc]; rfl)
      (fun _ => rfl) rfl rfl

theorem counted_of_runs (h : Runs (mapStep desc) anyStep .init log s) : Counted log s := by
  refine h.invariant (I := fun log s => Counted log s) ?_ ?_
  · exact ⟨rfl, rfl, .inl rfl, fun v hv => (by cases hv),
      iff_of_false Bool.false_ne_true (by simp [MapSys.init, noValue]), rfl, List.Pairwise.nil,
      fun v hv => (by cases hv), fun hp => by rcases hp with hp | hp <;> cases hp⟩
  · intro log s p s' ev _ ih _ hs
    exact ih.step (mapStep_move hs)

/-- For every interleaving and whatever the locks do: the values that the child prints go up, none
of them is above 50, and the last one is 50 when the child has ended; the parent prints the
multiples of five in order, and when it has ended it has printed all of them and the child has
ended, too. -/
theorem observed_goes_up (h : Runs (mapStep desc) anyStep .init log s) :
    (observedOf log).Pairwise (· < ·) ∧ (∀ v ∈ observedOf log, v ≤ 50) ∧
    (s.child = .ended → (observedOf log).getLast? = some 50) ∧
    wroteOf log <+: fives 51 ∧
    (s.parent = .ended → s.child = .ended ∧ wroteOf log = fives 51) := by
  have hk := counted_of_runs h
  refine ⟨hk.up, fun v hv => ?_, fun hended => ?_, ?_, fun hended => ⟨hk.waited (.inr hended), ?_⟩⟩
  · have hle := hk.below v hv
    rcases hk.last with hno | hlast
    · have hnil := hk.observed
      rw [if_pos hno, List.getLast?_eq_none_iff] at hnil
      rw [hnil] at hv
      cases hv
    · exact hle.trans (hlast.trans hk.fits.le)
  · have hlast : s.last = 50 := hk.out.mp (by rw [hended]; rfl)
    have hobs := hk.observed
    rwa [hlast, if_neg (by decide)] at hobs
  · rw [hk.wrote]
    have hle : s.parent.reported ≤ 51 := by
      have hfits := hk.fits
      cases hpc : s.parent <;> simp only [hpc, WriterPc.Fits] at hfits <;>
        simp only [WriterPc.reported] <;> omega
    have hpre : List.range s.parent.reported <+: List.range 51 := by
      have htake := List.take_prefix s.parent.reported (List.range 51)
      rwa [List.take_range, min_eq_left hle] at htake
    exact hpre.filter _
  · rw [hk.wrote, hended]
    rfl

/-- The child looks before the parent has begun, and again when the parent has written 1 and is
still inside. -/
def looksTwice : List MapSide :=
  List.replicate 5 .child ++ List.replicate 9 .parent ++ List.replicate 4 .child

theorem observed_goes_up_looksTwice : ∃ log s,
    Runs (mapStep forked) anyStep .init log s ∧ observedOf log = [0, 1] ∧
    s.parent = .unlock 1 ∧ (observedOf log).Pairwise (· < ·) := by
  obtain ⟨log, s, hrun, hp⟩ : ∃ log s, Runs (mapStep forked) anyStep .init log s ∧
      decide (observedOf log = [0, 1] ∧ s.parent = .unlock 1) = true :=
    exists_runs_of_exec looksTwice _ (by decide)
  obtain ⟨hobs, hpc⟩ := of_decide_eq_true hp
  exact ⟨log, s, hrun, hobs, hpc, (observed_goes_up hrun).1⟩

/-! ## 5. How far they get -/

/-- How many steps the parent has in front of it, when it does not have to wait. -/
def WriterPc.left : WriterPc → Nat
  | .started => 259
  | .zero => 258
  | .lock i => 5 * (50 - i) + 7
  | .store i => 5 * (50 - i) + 6
  | .unlock i => 5 * (50 - i) + 5
  | .report i => 5 * (50 - i) + 4
  | .sleep i => 5 * (50 - i) + 3
  | .wait => 2
  | .done => 1
  | .ended => 0

/-- How many values the child may still see. -/
def MapSys.ahead (s : MapSys δ) : Nat := if s.last ≤ 50 then 50 - s.last else 51

/-- How many steps the child has in front of it, when every round shows a value. -/
def MapSys.rounds (s : MapSys δ) : Nat :=
  match s.child with
  | .started => 4 * s.ahead + 5
  | .lock => 4 * s.ahead + 4
  | .load => 4 * s.ahead + 3
  | .unlock _ => 4 * s.ahead + 2
  | .test _ => 4 * s.ahead + 1
  | .done => 1
  | .ended => 0

def MapEvent.isIdle : MapEvent → Bool
  | .idle => true
  | _ => false

omit [Fintype δ] in
/-- Each step brings the two closer to their ends, but for a round that shows nothing new. -/
theorem MapMove.pays (h : Counted log s) (hm : MapMove desc s p s' ev) :
    s'.parent.left + s'.rounds + ev.countP (!MapEvent.isIdle ·) ≤
      s.parent.left + s.rounds + 3 * ev.countP MapEvent.isIdle := by
  cases hm with
  | parentStarted hpc | zero hpc | lockEx i hpc _ | store i hpc | unlockEx i hpc | wait hpc _
  | parentDone hpc =>
    simp only [MapSys.rounds, MapSys.ahead, hpc, WriterPc.left, List.countP_singleton,
      MapEvent.isIdle, Bool.not_false, Bool.false_eq_true, if_true, if_false]
    omega
  | report i hpc =>
    have hquiet : (if i % 5 = 0 then MapEvent.wrote i else .silent).isIdle = false := by
      split <;> rfl
    simp only [MapSys.rounds, MapSys.ahead, hpc, WriterPc.left, List.countP_singleton, hquiet,
      Bool.not_false, Bool.false_eq_true, if_true, if_false]
    omega
  | sleep i hpc =>
    have hleft : (if i + 1 ≤ 50 then WriterPc.lock (i + 1) else .wait).left + 1 ≤
        s.parent.left := by
      rw [hpc]
      split <;> simp only [WriterPc.left] <;> omega
    have hrounds : MapSys.rounds { s with
        parent := if i + 1 ≤ 50 then .lock (i + 1) else .wait } = s.rounds := rfl
    simp only [hrounds, List.countP_singleton, MapEvent.isIdle, Bool.not_false,
      Bool.false_eq_true, if_true, if_false]
    omega
  | childStarted hpc | lockSh hpc _ | load hpc | unlockSh v hpc | idle hpc | childDone hpc =>
    simp only [MapSys.rounds, MapSys.ahead, hpc, List.countP_singleton, MapEvent.isIdle,
      Bool.not_false, Bool.not_true, Bool.false_eq_true, if_true, if_false]
    omega
  | observed v hpc hne =>
    obtain ⟨hle, hlast⟩ := h.read v (by rw [hpc]; rfl)
    have hfifty : v ≤ 50 := hle.trans h.fits.le
    have hahead : 50 - v + 1 ≤ s.ahead := by
      simp only [MapSys.ahead]
      rcases hlast with hno | hlast
      · rw [if_neg (by rw [hno]; decide)]
        omega
      · rw [if_pos (by omega)]
        omega
    have hrounds : MapSys.rounds { s with child := if 50 ≤ v then .done else .lock, last := v } ≤
        4 * (50 - v) + 4 := by
      by_cases hv : 50 ≤ v <;> simp [MapSys.rounds, MapSys.ahead, hv, hfifty]
    have hround : s.rounds = 4 * s.ahead + 1 := by rw [MapSys.rounds, hpc]
    simp only [List.countP_singleton, MapEvent.isIdle, Bool.not_false, Bool.false_eq_true, if_true,
      if_false, hround]
    omega

/-- The child does not look again before there is something new. -/
def Useful (s : MapSys δ) : MapSide → Prop
  | .parent => True
  | .child => s.child = .lock → s.counter ≠ s.last

/-- The round that the child is in shows nothing new. -/
def MapSys.stale (s : MapSys δ) : Bool :=
  match s.child with
  | .load => s.counter = s.last
  | .unlock v | .test v => v = s.last
  | _ => false

/-- The steps that the two have in front of them when no round is for nothing. -/
def MapSys.work (s : MapSys δ) : Nat :=
  s.parent.left + s.rounds + if s.stale = true then 4 else 0

omit [Fintype δ] in
/-- A round gets stale only when it is begun before there is something new. -/
theorem MapMove.stale (h : Counted log s) (hu : Useful s p) (hm : MapMove desc s p s' ev) :
    (ev = [.idle] ∧ s.stale = true ∧ s'.stale = false) ∨
      (ev.countP MapEvent.isIdle = 0 ∧ (s'.stale = true → s.stale = true)) := by
  have hfits := h.fits
  cases hm with
  | parentStarted hpc | lockEx i hpc _ | unlockEx i hpc | sleep i hpc | wait hpc _
  | parentDone hpc => exact .inr ⟨rfl, id⟩
  | report i hpc =>
    refine .inr ⟨?_, id⟩
    split <;> rfl
  | zero hpc =>
    rw [hpc, WriterPc.Fits] at hfits
    refine .inr ⟨rfl, fun hst => ?_⟩
    simpa only [MapSys.stale, hfits] using hst
  | store i hpc =>
    rw [hpc] at hfits
    obtain ⟨hi, hcounter⟩ := hfits
    refine .inr ⟨rfl, fun hst => ?_⟩
    have hlast : i = s.last → s.counter = s.last := by
      intro heq
      rcases h.last with hno | hle
      · rw [noValue] at hno
        omega
      · omega
    simp only [MapSys.stale] at hst ⊢
    split at hst
    · exact decide_eq_true (hlast (of_decide_eq_true hst))
    · exact hst
    · exact hst
    · cases hst
  | childStarted hpc | childDone hpc => exact .inr ⟨rfl, fun hst => by cases hst⟩
  | lockSh hpc _ => exact .inr ⟨rfl, fun hst => absurd (of_decide_eq_true hst) (hu hpc)⟩
  | load hpc | unlockSh v hpc =>
    refine .inr ⟨rfl, fun hst => ?_⟩
    simpa only [MapSys.stale, hpc] using hst
  | observed v hpc hne =>
    refine .inr ⟨rfl, fun hst => ?_⟩
    by_cases hv : 50 ≤ v <;> simp [MapSys.stale, hv] at hst
  | idle hpc => exact .inl ⟨rfl, by simp [MapSys.stale, hpc], rfl⟩

omit [Fintype δ] in
/-- A useful step brings the two closer to their ends. -/
theorem MapMove.useful (h : Counted log s) (hu : Useful s p) (hm : MapMove desc s p s' ev) :
    s'.work + ev.length ≤ s.work := by
  have hpays := hm.pays h
  simp only [MapSys.work]
  rcases hm.stale h hu with ⟨rfl, hst, hst'⟩ | ⟨hnone, hst⟩
  · simp only [List.countP_singleton, MapEvent.isIdle, Bool.not_true, Bool.false_eq_true, if_true,
      if_false, List.length_singleton, hst, hst'] at hpays ⊢
    omega
  · have hlen := List.length_eq_countP_add_countP (l := ev) MapEvent.isIdle
    simp only [Bool.not_eq_true, Bool.decide_eq_false] at hlen
    have hbonus : (if s'.stale = true then 4 else 0) ≤ if s.stale = true then 4 else 0 := by
      by_cases h' : s'.stale = true
      · rw [if_pos h', if_pos (hst h')]
      · rw [if_neg h']
        exact Nat.zero_le _
    omega

/-- The locks that are held are those of processes that are inside. -/
def Held (desc : MapSide → δ) (s : MapSys δ) : Prop :=
  ∀ e, s.held e ≠ none →
    (e = desc .parent ∧ s.parent.inside = true) ∨ (e = desc .child ∧ s.child.inside = true)

omit [Fintype δ] in
theorem Held.step (h : Held desc s) (hm : MapMove desc s p s' ev) : Held desc s' := by
  intro e he
  cases hm with
  | parentStarted hpc | zero hpc | report i hpc | sleep i hpc | wait hpc _ | parentDone hpc =>
    refine (h e he).imp_left fun ⟨_, hin⟩ => ?_
    rw [hpc] at hin
    cases hin
  | lockEx i hpc _ =>
    by_cases hd : e = desc .parent
    · exact .inl ⟨hd, rfl⟩
    · simp only [Function.update_of_ne hd] at he
      exact .inr ((h e he).resolve_left fun ⟨heq, _⟩ => hd heq)
  | store i hpc =>
    exact (h e he).imp_left fun ⟨heq, _⟩ => ⟨heq, rfl⟩
  | unlockEx i hpc =>
    by_cases hd : e = desc .parent
    · simp [hd] at he
    · simp only [Function.update_of_ne hd] at he
      exact .inr ((h e he).resolve_left fun ⟨heq, _⟩ => hd heq)
  | childStarted hpc | observed v hpc _ | idle hpc | childDone hpc =>
    refine (h e he).imp_right fun ⟨_, hin⟩ => ?_
    rw [hpc] at hin
    cases hin
  | lockSh hpc _ =>
    by_cases hd : e = desc .child
    · exact .inr ⟨hd, rfl⟩
    · simp only [Function.update_of_ne hd] at he
      exact .inl ((h e he).resolve_right fun ⟨heq, _⟩ => hd heq)
  | load hpc => exact (h e he).imp_right fun ⟨heq, _⟩ => ⟨heq, rfl⟩
  | unlockSh v hpc =>
    by_cases hd : e = desc .child
    · simp [hd] at he
    · simp only [Function.update_of_ne hd] at he
      exact .inl ((h e he).resolve_right fun ⟨heq, _⟩ => hd heq)

/-- As long as the parent has not ended, one of the two can take a useful step. -/
theorem exists_useful (h : Counted log s) (hh : Held desc s) (hleft : s.parent ≠ .ended) :
    ∃ p, Useful s p ∧ (mapStep desc s p).isSome = true := by
  -- a child that is inside, or that has something to look at, can go on
  have hchild : ∀ {pc : ReaderPc}, s.child = pc → pc ≠ .lock → pc ≠ .ended →
      ∃ p, Useful s p ∧ (mapStep desc s p).isSome = true := by
    intro pc hpc hlock hended
    refine ⟨.child, fun hc => absurd (hpc.symm.trans hc) hlock, ?_⟩
    cases pc with
    | started | load | unlock v | done => simp [mapStep, readerStep, hpc]
    | test v =>
      simp only [mapStep, readerStep, hpc]
      split <;> rfl
    | lock => exact absurd rfl hlock
    | ended => exact absurd rfl hended
  have hfits := h.fits
  cases hpc : s.parent with
  | started | zero | store i | unlock i | report i | sleep i | done =>
    exact ⟨.parent, trivial, by simp [mapStep, writerStep, hpc]⟩
  | lock i =>
    by_cases hin : s.child.inside = true
    · exact hchild rfl (fun hc => by rw [hc] at hin; cases hin)
        (fun hc => by rw [hc] at hin; cases hin)
    · have hfree : ∀ e, e ≠ desc .parent → FlockMode.exclusive.Beside (s.held e) := by
        intro e he
        refine .inl (by_contra fun hheld => ?_)
        exact (hh e hheld).elim (fun h => he h.1) fun h => hin h.2
      exact ⟨.parent, trivial, by simp [mapStep, writerStep, hpc, Flocks.lock, if_pos hfree]⟩
  | wait =>
    rw [hpc, WriterPc.Fits] at hfits
    by_cases hlock : s.child = .lock
    · have hnew : s.counter ≠ s.last := by
        intro heq
        have hout := h.out.mpr (heq.symm.trans hfits)
        rw [hlock] at hout
        cases hout
      have hfree : ∀ e, e ≠ desc .child → FlockMode.shared.Beside (s.held e) := by
        intro e he
        refine .inl (by_contra fun hheld => ?_)
        rcases hh e hheld with ⟨-, hin⟩ | ⟨heq, -⟩
        · rw [hpc] at hin
          cases hin
        · exact he heq
      exact ⟨.child, fun _ => hnew,
        by simp [mapStep, readerStep, hlock, Flocks.lock, if_pos hfree]⟩
    · by_cases hended : s.child = .ended
      · exact ⟨.parent, trivial, by simp [mapStep, writerStep, hpc, hended]⟩
      · exact hchild rfl hlock hended
  | ended => exact absurd hpc hleft

omit [Fintype δ] in
theorem MapMove.ne_nil (hm : MapMove desc s p s' ev) : ev ≠ [] := by
  cases hm <;> exact List.cons_ne_nil _ _

/-- For every interleaving and whatever the locks do: the two take at most 468 steps, and four for
each round in which the child sees nothing new, and whatever they have done they can be led to
their ends. -/
theorem both_end (h : Runs (mapStep desc) anyStep .init log s) :
    log.length ≤ 468 + 4 * log.countP MapEvent.isIdle ∧
    ∃ log' s', Runs (mapStep desc) anyStep s log' s' ∧ s'.parent = .ended ∧ s'.child = .ended := by
  constructor
  · have hpays : Pays (mapStep desc) anyStep .init MapEvent.isIdle
        (fun s => s.parent.left + s.rounds) 3 := by
      intro log s p s' ev hrun _ hs
      exact (mapStep_move hs).pays (counted_of_runs hrun)
    exact h.length_le hpays
  · have hany : ∀ {log' s'}, Runs (mapStep desc) Useful s log' s' →
        Runs (mapStep desc) anyStep .init (log ++ log') s' :=
      fun h' => h.trans (h'.mono fun _ _ _ => trivial)
    have hheld : ∀ {log s}, Runs (mapStep desc) anyStep .init log s → Held desc s := by
      intro log s hrun
      refine hrun.invariant (I := fun _ s => Held desc s) (fun e he => absurd rfl he) ?_
      intro log s p s' ev _ ih _ hs
      exact ih.step (mapStep_move hs)
    have hpays : Pays (mapStep desc) Useful s (fun _ => false) MapSys.work 0 := by
      intro log' t p t' ev hrun hu hs
      simpa using (mapStep_move hs).useful (counted_of_runs (hany hrun)) hu
    have hstart : Runs (mapStep desc) Useful s [] s := .nil
    obtain ⟨log', s', hrun, hended⟩ := hstart.finishes (P := fun s => s.parent = .ended) hpays (by
      intro log' t hrun hleft
      obtain ⟨p, hu, hsome⟩ := exists_useful (counted_of_runs (hany hrun)) (hheld (hany hrun)) hleft
      obtain ⟨⟨t', ev⟩, hs⟩ := Option.isSome_iff_exists.mp hsome
      exact ⟨p, t', ev, hu, hs, (mapStep_move hs).ne_nil⟩)
    exact ⟨log', s', hrun.mono fun _ _ _ => trivial, hended,
      (counted_of_runs (hany hrun)).waited (.inr hended)⟩

theorem both_end_looksTwice : ∃ log s log' s',
    Runs (mapStep forked) anyStep .init log s ∧ s.parent = .unlock 1 ∧
    Runs (mapStep forked) anyStep s log' s' ∧ s'.parent = .ended ∧ s'.child = .ended := by
  obtain ⟨log, s, hrun, hp⟩ : ∃ log s, Runs (mapStep forked) anyStep .init log s ∧
      decide (s.parent = .unlock 1) = true :=
    exists_runs_of_exec looksTwice _ (by decide)
  obtain ⟨log', s', hrun', hended⟩ := (both_end hrun).2
  exact ⟨log, s, log', s', hrun, of_decide_eq_true hp, hrun', hended⟩

end PosixLab.Programs
