/-
# A thread that is cancelled in time

The thread of `cancelthread.c` prints a line in each round, with cancellation disabled, and asks
for a pending request in every fifth one; `main` requests the cancellation after a while and waits
for the thread.  A request takes effect at a cancellation point that the thread comes to while
cancellation is enabled: `printf` and `sleep` are such points as much as `pthread_testcancel` is,
and it is for `state` to keep them from acting on it.

The request is never acted on in the middle of a round, at most five lines are printed after it
(`cancelled_in_time`), and it always gets through (`cancel_gets_through`).
-/
import PosixLab.Basis.Progress

namespace PosixLab.Programs

open PosixLab

/-! ## 1. The program -/

inductive CancelState
  | enable
  | disable
deriving DecidableEq

/-- Where the thread stands, named after what it does next. -/
inductive CancelPc
  | disable
  | print
  | sleep
  | restore
  | test
  | canceled
deriving DecidableEq

inductive CancelMain
  | sleep
  | cancel
  | join
  | returned
deriving DecidableEq

/-- The thread with its variables `i` and `state`, its cancelability, a request that has not been
acted on, and `main`. -/
structure CancelSys where
  pc : CancelPc
  i : Nat
  state : CancelState
  cancelState : CancelState
  pending : Bool
  main : CancelMain
deriving DecidableEq

/-- The thread has been created; `state` is not initialised. -/
def CancelSys.init (state : CancelState) : CancelSys where
  pc := .disable
  i := 0
  state
  cancelState := .enable
  pending := false
  main := .sleep

/-- A call of the thread, a request that it acts on, or a call of `main`. -/
inductive CancelAction
  | thread
  | canceled
  | main
deriving DecidableEq

inductive CancelEvent
  | silent
  | line
  | requested
  | canceled
  | returned (v : Int)
deriving DecidableEq

/-- `PTHREAD_CANCELED`, as an `int`. -/
def pthreadCanceled : Int := -1

/-- The cancellation points of the thread. -/
def CancelPc.isPoint : CancelPc → Bool
  | .print | .sleep | .test => true
  | _ => false

/-- The thread has come to a point where it acts on a request. -/
def CancelSys.Acts (s : CancelSys) : Prop :=
  s.pending = true ∧ s.cancelState = .enable ∧ s.pc.isPoint = true

instance : DecidablePred CancelSys.Acts := fun _ => inferInstanceAs (Decidable (_ ∧ _ ∧ _))

/-- One step.  The thread does not get past a point where it acts on a request. -/
def cancelStep (s : CancelSys) : CancelAction → Option (CancelSys × List CancelEvent)
  | .thread =>
    if s.Acts then none
    else
      match s.pc with
      | .disable =>
        some ({ s with pc := .print, state := s.cancelState, cancelState := .disable }, [.silent])
      | .print => some ({ s with pc := .sleep }, [.line])
      | .sleep => some ({ s with pc := .restore }, [.silent])
      | .restore =>
        some ({ s with
          pc := if s.i % 5 = 0 then .test else .disable
          i := if s.i % 5 = 0 then s.i else s.i + 1
          state := s.cancelState
          cancelState := s.state }, [.silent])
      | .test => some ({ s with pc := .disable, i := s.i + 1 }, [.silent])
      | .canceled => none
  | .canceled => if s.Acts then some ({ s with pc := .canceled }, [.canceled]) else none
  | .main =>
    match s.main with
    | .sleep => some ({ s with main := .cancel }, [.silent])
    | .cancel => some ({ s with main := .join, pending := true }, [.requested])
    | .join =>
      if s.pc = .canceled then some ({ s with main := .returned }, [.returned pthreadCanceled])
      else none
    | .returned => none

/-- What a step can do. -/
inductive CancelMove (s : CancelSys) : CancelAction → CancelSys → List CancelEvent → Prop
  | disable (hpc : s.pc = .disable) :
      CancelMove s .thread { s with
        pc := .print
        state := s.cancelState
        cancelState := .disable } [.silent]
  | print (hpc : s.pc = .print) : CancelMove s .thread { s with pc := .sleep } [.line]
  | sleep (hpc : s.pc = .sleep) : CancelMove s .thread { s with pc := .restore } [.silent]
  | restore (hpc : s.pc = .restore) :
      CancelMove s .thread { s with
        pc := if s.i % 5 = 0 then .test else .disable
        i := if s.i % 5 = 0 then s.i else s.i + 1
        state := s.cancelState
        cancelState := s.state } [.silent]
  | test (hpc : s.pc = .test) (hno : ¬s.Acts) :
      CancelMove s .thread { s with pc := .disable, i := s.i + 1 } [.silent]
  | canceled (hacts : s.Acts) : CancelMove s .canceled { s with pc := .canceled } [.canceled]
  | slept (hmain : s.main = .sleep) : CancelMove s .main { s with main := .cancel } [.silent]
  | requested (hmain : s.main = .cancel) :
      CancelMove s .main { s with main := .join, pending := true } [.requested]
  | returned (hmain : s.main = .join) (hpc : s.pc = .canceled) :
      CancelMove s .main { s with main := .returned } [.returned pthreadCanceled]

variable {s s' : CancelSys} {a : CancelAction} {ev log : List CancelEvent} {st : CancelState}

theorem cancelStep_move (h : cancelStep s a = some (s', ev)) : CancelMove s a s' ev := by
  cases a with
  | thread =>
    obtain ⟨hno, heq⟩ := Option.ite_none_left_eq_some.mp h
    split at heq <;> rename_i hpc <;> cases heq
    · exact .disable hpc
    · exact .print hpc
    · exact .sleep hpc
    · exact .restore hpc
    · exact .test hpc hno
  | canceled =>
    obtain ⟨hacts, heq⟩ := Option.ite_none_right_eq_some.mp h
    cases heq
    exact .canceled hacts
  | main =>
    simp only [cancelStep] at h
    split at h <;> rename_i hmain
    · cases h
      exact .slept hmain
    · cases h
      exact .requested hmain
    · obtain ⟨hpc, heq⟩ := Option.ite_none_right_eq_some.mp h
      cases heq
      exact .returned hmain hpc
    · cases h

/-! ## 2. What holds along the runs -/

/-- The lines since the request, if there has been one. -/
def sinceRequest : Option Nat → CancelEvent → Option Nat
  | _, .requested => some 0
  | n, .line => n.map (· + 1)
  | n, _ => n

/-- How many lines are printed after the request. -/
def linesAfter (log : List CancelEvent) : Nat := (log.foldl sinceRequest none).getD 0

/-- Whether the line of the round has been printed. -/
def CancelPc.printed : CancelPc → Nat
  | .disable | .print => 0
  | .sleep | .restore | .test | .canceled => 1

/-- The cancelability, by where the thread stands; `test` is for every fifth round. -/
def CancelSys.Fits (s : CancelSys) : Prop :=
  match s.pc with
  | .disable => s.cancelState = .enable
  | .print | .sleep | .restore => s.cancelState = .disable ∧ s.state = .enable
  | .test => s.cancelState = .enable ∧ s.i % 5 = 0
  | .canceled => s.i % 5 = 0

/-- What holds along the runs.  The rounds since the last `test` are at most five. -/
structure Rounds (log : List CancelEvent) (s : CancelSys) : Prop where
  fits : s.Fits
  lines : log.count .line = s.i + s.pc.printed
  pending : s.pending = (log.foldl sinceRequest none).isSome
  since : linesAfter log ≤ (s.i + 4) % 5 + s.pc.printed
  canceled : .canceled ∈ log ↔ s.pc = .canceled
  returned : ∀ v, .returned v ∈ log → v = pthreadCanceled ∧ s.pc = .canceled
  asked : s.pending = true → s.main = .join ∨ s.main = .returned

theorem foldl_snoc (log : List CancelEvent) (e : CancelEvent) :
    (log ++ [e]).foldl sinceRequest none = sinceRequest (log.foldl sinceRequest none) e :=
  List.foldl_concat ..

/-- A step that prints no line and requests nothing, into a state with as many rounds behind it. -/
theorem Rounds.quiet (h : Rounds log s) (hfits : s'.Fits)
    (hlines : s'.i + s'.pc.printed = s.i + s.pc.printed) (hpending : s'.pending = s.pending)
    (hsince : linesAfter log ≤ (s.i + 4) % 5 + s.pc.printed →
      linesAfter log ≤ (s'.i + 4) % 5 + s'.pc.printed)
    (hpc : s'.pc = .canceled ↔ s.pc = .canceled)
    (hmain : s'.main = s.main ∨ s.main = .sleep) : Rounds (log ++ [.silent]) s' := by
  refine ⟨hfits, ?_, ?_, ?_, ?_, fun v hv => ?_, fun hp => ?_⟩
  · simp [List.count_append, h.lines, hlines]
  · rw [hpending, h.pending, foldl_snoc]
    rfl
  · have hsame : linesAfter (log ++ [.silent]) = linesAfter log := by
      rw [linesAfter, foldl_snoc]
      rfl
    rw [hsame]
    exact hsince h.since
  · simp [h.canceled, hpc]
  · rw [hpc]
    exact h.returned v (by simpa using hv)
  · have hasked := h.asked (hpending ▸ hp)
    rcases hmain with heq | hsleep
    · rwa [heq]
    · rw [hsleep] at hasked
      exact absurd hasked (by simp)

theorem Rounds.step (h : Rounds log s) (hm : CancelMove s a s' ev) : Rounds (log ++ ev) s' := by
  have hfits := h.fits
  unfold CancelSys.Fits at hfits
  rcases hm with hpc | hpc | hpc | hpc | ⟨hpc, hno⟩ | hacts | hmain | hmain | ⟨hmain, hpc⟩
  · rw [hpc] at hfits
    exact h.quiet ⟨rfl, hfits⟩ (by simp [hpc, CancelPc.printed]) rfl
      (by simp [hpc, CancelPc.printed]) (by simp [hpc]) (.inl rfl)
  · rw [hpc] at hfits
    refine ⟨hfits, ?_, ?_, ?_, ?_, fun v hv => ?_, h.asked⟩
    · simp [List.count_append, h.lines, hpc, CancelPc.printed]
    · rw [foldl_snoc, h.pending]
      simp [sinceRequest]
    · have hle := h.since
      have hmore : linesAfter (log ++ [.line]) ≤ linesAfter log + 1 := by
        rw [linesAfter, foldl_snoc, linesAfter]
        rcases log.foldl sinceRequest none with _ | n <;> simp [sinceRequest]
      rw [hpc] at hle
      simp only [CancelPc.printed] at hle ⊢
      omega
    · simp [h.canceled, hpc]
    · have := (h.returned v (by simpa using hv)).2
      rw [hpc] at this
      exact absurd this (by simp)
  · rw [hpc] at hfits
    exact h.quiet hfits (by simp [hpc, CancelPc.printed]) rfl (by simp [hpc, CancelPc.printed])
      (by simp [hpc]) (.inl rfl)
  · rw [hpc] at hfits
    by_cases hi : s.i % 5 = 0
    · simp only [if_pos hi]
      exact h.quiet ⟨hfits.2, hi⟩ (by simp [hpc, CancelPc.printed]) rfl
        (by simp [hpc, CancelPc.printed]) (by simp [hpc]) (.inl rfl)
    · simp only [if_neg hi]
      refine h.quiet hfits.2 (by simp [hpc, CancelPc.printed]) rfl (fun hle => ?_)
        (by simp [hpc]) (.inl rfl)
      rw [hpc] at hle
      simp only [CancelPc.printed] at hle ⊢
      omega
  · rw [hpc] at hfits
    -- nothing is pending, or the thread would not get past this point
    have hnone : linesAfter log = 0 := by
      have hpending : s.pending = false := by
        rw [Bool.eq_false_iff]
        exact fun hp => hno ⟨hp, hfits.1, by rw [hpc]; rfl⟩
      rw [h.pending, Option.isSome_eq_false_iff, Option.isNone_iff_eq_none] at hpending
      rw [linesAfter, hpending]
      rfl
    exact h.quiet hfits.1 (by simp [hpc, CancelPc.printed]) rfl
      (fun _ => by rw [hnone]; exact Nat.zero_le _) (by simp [hpc]) (.inl rfl)
  · -- the thread is at `test`, since cancellation is disabled at the other points
    obtain ⟨-, hen, hpoint⟩ := hacts
    have hpc : s.pc = .test := by
      rcases hc : s.pc <;> rw [hc] at hfits hpoint <;>
        simp [CancelPc.isPoint, hen] at hfits hpoint ⊢
    rw [hpc] at hfits
    refine ⟨hfits.2, ?_, ?_, ?_, by simp, fun v hv => ?_, h.asked⟩
    · simp [List.count_append, h.lines, hpc, CancelPc.printed]
    · rw [foldl_snoc, h.pending]
      rfl
    · have hsame : linesAfter (log ++ [.canceled]) = linesAfter log := by
        rw [linesAfter, foldl_snoc]
        rfl
      rw [hsame]
      simpa [hpc, CancelPc.printed] using h.since
    · have := (h.returned v (by simpa using hv)).2
      rw [hpc] at this
      exact absurd this (by simp)
  · exact h.quiet h.fits rfl rfl id Iff.rfl (.inr hmain)
  · refine ⟨h.fits, ?_, ?_, ?_, by simpa using h.canceled,
      fun v hv => h.returned v (by simpa using hv), fun _ => .inl rfl⟩
    · simpa [List.count_append] using h.lines
    · rw [foldl_snoc]
      rfl
    · rw [linesAfter, foldl_snoc]
      exact Nat.zero_le _
  · refine ⟨h.fits, ?_, ?_, ?_, by simpa using h.canceled, fun v hv => ?_, fun _ => .inr rfl⟩
    · simpa [List.count_append] using h.lines
    · rw [foldl_snoc, h.pending]
      rfl
    · have hsame : linesAfter (log ++ [.returned pthreadCanceled]) = linesAfter log := by
        rw [linesAfter, foldl_snoc]
        rfl
      rw [hsame]
      exact h.since
    · rcases List.mem_append.mp hv with hv | hv
      · exact h.returned v hv
      · simp only [List.mem_singleton, CancelEvent.returned.injEq] at hv
        exact ⟨hv, hpc⟩

theorem rounds_of_runs (h : Runs cancelStep anyStep (.init st) log s) : Rounds log s := by
  refine h.invariant (I := Rounds) ⟨rfl, rfl, rfl, Nat.zero_le _, by simp [CancelSys.init], ?_,
    by simp [CancelSys.init]⟩ ?_
  · exact fun v hv => absurd hv List.not_mem_nil
  · intro log s a s' ev _ ih _ hs
    exact ih.step (cancelStep_move hs)

/-- For every interleaving, whenever the request comes: the thread is cancelled at the end of a
round, the first one or every fifth one after it, with at most five lines since the request; and
`main` returns only behind that, with what a cancelled thread leaves. -/
theorem cancelled_in_time (h : Runs cancelStep anyStep (.init st) log s) :
    linesAfter log ≤ 5 ∧ (.canceled ∈ log → log.count .line % 5 = 1) ∧
    ∀ v, .returned v ∈ log → v = pthreadCanceled ∧ .canceled ∈ log := by
  have hr := rounds_of_runs h
  refine ⟨?_, fun hmem => ?_, fun v hv => ?_⟩
  · have hle := hr.since
    have hprinted : s.pc.printed ≤ 1 := by
      rcases s.pc <;> decide
    omega
  · have hpc := hr.canceled.mp hmem
    have hfits := hr.fits
    rw [hr.lines, hpc]
    rw [CancelSys.Fits, hpc] at hfits
    simp only [CancelPc.printed] at hfits ⊢
    omega
  · obtain ⟨hval, hpc⟩ := hr.returned v hv
    exact ⟨hval, hr.canceled.mpr hpc⟩

/-! ## 3. The request gets through -/

/-- How many calls the thread may make before it acts on a request. -/
def CancelSys.left (s : CancelSys) : Nat :=
  match s.pc with
  | .disable => 4 * ((5 - s.i % 5) % 5) + 5
  | .print => 4 * ((5 - s.i % 5) % 5) + 4
  | .sleep => 4 * ((5 - s.i % 5) % 5) + 3
  | .restore => 4 * ((5 - s.i % 5) % 5) + 2
  | .test => 1
  | .canceled => 0

def CancelMain.left : CancelMain → Nat
  | .sleep => 3
  | .cancel => 2
  | .join => 1
  | .returned => 0

theorem CancelMove.comes_closer (h : s.Fits) (hp : s.pending = true)
    (hm : CancelMove s a s' ev) :
    s'.pending = true ∧ s'.left + s'.main.left + ev.length ≤ s.left + s.main.left := by
  unfold CancelSys.Fits at h
  rcases hm with hpc | hpc | hpc | hpc | ⟨hpc, hno⟩ | hacts | hmain | hmain | ⟨hmain, hpc⟩
  · refine ⟨hp, ?_⟩
    simp only [CancelSys.left, hpc, List.length_singleton]
    omega
  · refine ⟨hp, ?_⟩
    simp only [CancelSys.left, hpc, List.length_singleton]
    omega
  · refine ⟨hp, ?_⟩
    simp only [CancelSys.left, hpc, List.length_singleton]
    omega
  · refine ⟨hp, ?_⟩
    by_cases hi : s.i % 5 = 0
    · simp only [CancelSys.left, hpc, if_pos hi, List.length_singleton]
      omega
    · simp only [CancelSys.left, hpc, if_neg hi, List.length_singleton]
      omega
  · rw [hpc] at h
    exact absurd ⟨hp, h.1, by rw [hpc]; rfl⟩ hno
  · refine ⟨hp, ?_⟩
    have hpos : 0 < s.left := by
      obtain ⟨-, -, hpoint⟩ := hacts
      rcases hc : s.pc <;> rw [hc] at hpoint <;>
        simp [CancelPc.isPoint, CancelSys.left, hc] at hpoint ⊢
    simp only [CancelSys.left, List.length_singleton] at hpos ⊢
    omega
  · refine ⟨hp, ?_⟩
    simp only [CancelSys.left, hmain, CancelMain.left, List.length_singleton]
    omega
  · refine ⟨rfl, ?_⟩
    simp only [CancelSys.left, hmain, CancelMain.left, List.length_singleton]
    omega
  · refine ⟨hp, ?_⟩
    simp only [CancelSys.left, hmain, CancelMain.left, List.length_singleton]
    omega

/-- Once the request has been made at most 22 steps are left, whoever takes them, and when none can
be taken `main` has returned. -/
theorem cancel_gets_through {log' : List CancelEvent}
    (h : Runs cancelStep anyStep (.init st) log s) (hp : s.pending = true)
    (h' : Runs cancelStep anyStep s log' s') :
    log'.length ≤ 22 ∧ ((∀ a, cancelStep s' a = none) → s'.main = .returned) := by
  have hpending : ∀ {log' s'}, Runs cancelStep anyStep s log' s' → s'.pending = true := by
    intro log' s' h'
    refine h'.invariant (I := fun _ s => s.pending = true) hp ?_
    intro log' r a r' ev hrun ih _ hs
    exact ((cancelStep_move hs).comes_closer (rounds_of_runs (h.trans hrun)).fits ih).1
  constructor
  · have hpays : Pays cancelStep anyStep s (fun _ => false) (fun s => s.left + s.main.left) 0 := by
      intro log' r a r' ev hrun _ hs
      simpa using ((cancelStep_move hs).comes_closer (rounds_of_runs (h.trans hrun)).fits
        (hpending hrun)).2
    have hle := h'.length_le hpays
    have hleft : s.left ≤ 21 := by
      unfold CancelSys.left
      split <;> omega
    have hmain : s.main.left ≤ 1 := by
      rcases (rounds_of_runs h).asked hp with hm | hm <;> rw [hm] <;> decide
    simp only [List.countP_false, Function.const] at hle
    omega
  · intro hstuck
    have hr := rounds_of_runs (h.trans h')
    have hfits := hr.fits
    unfold CancelSys.Fits at hfits
    have hcanceled : s'.pc = .canceled := by
      by_contra hne
      by_cases hacts : s'.Acts
      · have := hstuck .canceled
        simp [cancelStep, hacts] at this
      · have := hstuck .thread
        rw [cancelStep, if_neg hacts] at this
        rcases hpc : s'.pc <;> simp [hpc] at this hne
    refine (hr.asked (hpending h')).resolve_left fun hjoin => ?_
    have := hstuck .main
    simp [cancelStep, hjoin, hcanceled] at this

/-- The request comes in the second round, so that four more rounds follow. -/
def asksInRoundTwo : List CancelAction :=
  List.replicate 8 .thread ++ [.main, .main] ++ List.replicate 17 .thread ++ [.canceled, .main]

theorem cancelled_in_time_roundTwo : ∃ log s, Runs cancelStep anyStep (.init .disable) log s ∧
    linesAfter log = 4 ∧ .returned (-1) ∈ log ∧ log.count .line % 5 = 1 := by
  obtain ⟨log, s, hrun, hp⟩ : ∃ log s, Runs cancelStep anyStep (.init .disable) log s ∧
      decide (linesAfter log = 4 ∧ .returned (-1) ∈ log ∧ .canceled ∈ log) = true :=
    exists_runs_of_exec asksInRoundTwo _ (by decide)
  obtain ⟨hafter, hret, hmem⟩ := of_decide_eq_true hp
  exact ⟨log, s, hrun, hafter, hret, (cancelled_in_time hrun).2.1 hmem⟩

theorem cancel_gets_through_roundTwo : ∃ log s log' s',
    Runs cancelStep anyStep (.init .disable) log s ∧ s.pending = true ∧
    Runs cancelStep anyStep s log' s' ∧ log'.length ≤ 22 := by
  obtain ⟨log, s, hrun, hp⟩ : ∃ log s, Runs cancelStep anyStep (.init .disable) log s ∧
      decide (s = ⟨.sleep, 1, .enable, .disable, true, .join⟩) = true :=
    exists_runs_of_exec (List.replicate 7 .thread ++ [.main, .main]) _ (by decide)
  obtain rfl := of_decide_eq_true hp
  have hone : Runs cancelStep anyStep ⟨.sleep, 1, .enable, .disable, true, .join⟩ [.silent]
      ⟨.restore, 1, .enable, .disable, true, .join⟩ := .one (a := .thread) trivial rfl
  exact ⟨log, _, _, _, hrun, rfl, hone, (cancel_gets_through hrun rfl hone).1⟩

end PosixLab.Programs
