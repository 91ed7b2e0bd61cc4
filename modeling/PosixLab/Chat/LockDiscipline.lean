/-
# The lock discipline of the server

The mutex is taken and released at five places: by `main` around the entry into the table, by
`handle_clnt` around the search for a second login and around the `DISCONNECT` block, in
`process_auth`, which has a return of its own for a registration that fails, and in `send_msg`.
`lockStep` is the server with a log of these calls in place of its own events.  Its log is the
run of a mutex (`mutexRun_of_lockRuns`), and the rest follows from that: `lock_discipline`.
-/
import PosixLab.Basis.Mutex
import PosixLab.Chat.Invariants

namespace PosixLab.Chat

open PosixLab

/-! ## 1. The calls of `lock` and `unlock` -/

/-- The thread of an action, and what its step does to the shared state. -/
def Server.effect (s : Server) : Action → Option (Tid × Effect)
  | .main x => (mainStep s x).map fun p => (.main, p.2)
  | .handler c x =>
    (s.handlers c).bind fun h => (handlerStep s c h x).map fun r => (.handler c, r.2.1)

/-- The calls that a step of thread `t` makes. -/
def Effect.lockEvents (t : Tid) : Effect → List (LockEvent Tid)
  | .sync .lock | .enterSend => [.lock t]
  | .sync .unlock => [.unlock t]
  | _ => []

/-- A step of the server, with the calls it makes. -/
def lockStep (s : Server) (a : Action) : Option (Server × List (LockEvent Tid)) :=
  match serverStep s a, s.effect a with
  | some (s', _), some (t, e) => some (s', e.lockEvents t)
  | _, _ => none

/-- A thread that has started and not returned. -/
def Server.Active (s : Server) : Tid → Prop
  | .main => True
  | .handler c => ∃ h, s.handlers c = some h ∧ h.pc ≠ .done

def MainPc.locks : MainPc → Bool
  | .lock _ => true
  | _ => false

def HandlerPc.locks : HandlerPc → Bool
  | .dupLock | .sendLock | .discLock => true
  | .auth f => f.pc == .lock
  | _ => false

/-- Whether the next statement of the thread is a `pthread_mutex_lock`. -/
def Server.locks (s : Server) : Tid → Bool
  | .main => s.main.locks
  | .handler c => (s.handlers c).any fun h => h.pc.locks

/-- The thread is at a `lock` and the mutex is taken. -/
def Server.Blocked (s : Server) (t : Tid) : Prop := s.locks t = true ∧ s.mutx ≠ none

/-- The functions that use the mutex. -/
inductive LockUser
  | handleClnt
  | processAuth
  | sendMsg

/-- The handler is about to start the function. -/
def LockUser.entry : LockUser → HandlerPc → Prop
  | .handleClnt, pc => pc = .read
  | .processAuth, pc => pc = .call
  | .sendMsg, pc => pc = .sendLock

/-- The handler is where the function has returned to. -/
def LockUser.exit : LockUser → HandlerPc → Prop
  | .handleClnt, pc => pc = .done
  | .processAuth, pc => ∃ r, pc = .reply r
  | .sendMsg, pc => pc = .chatRead

theorem LockUser.entry_holds {f : LockUser} {pc : HandlerPc} (h : f.entry pc) :
    pc.holds = false := by
  cases f <;> cases h <;> rfl

theorem LockUser.exit_holds {f : LockUser} {pc : HandlerPc} (h : f.exit pc) :
    pc.holds = false := by
  cases f with
  | processAuth =>
    obtain ⟨r, rfl⟩ := h
    rfl
  | handleClnt | sendMsg =>
    cases h
    rfl

/-! ## 2. The log is the run of a mutex -/

/-- A step of `lockStep` is a step of the server and an effect that its thread may have. -/
theorem lockStep_cases {s s' : Server} {a : Action} {l : List (LockEvent Tid)} (hl : Locked s)
    (h : lockStep s a = some (s', l)) :
    ∃ t e s₁, s.apply t e = some s₁ ∧ e.Allowed (s.holds t) ∧ s'.mutx = s₁.mutx ∧
      l = e.lockEvents t := by
  cases a with
  | main x =>
    cases hm : mainStep s x with
    | none => simp [lockStep, serverStep, hm] at h
    | some p =>
      obtain ⟨pc, e⟩ := p
      cases he : s.apply .main e with
      | none => simp [lockStep, serverStep, hm, he] at h
      | some s₁ =>
        simp only [lockStep, serverStep, hm, he, Server.effect, Option.map_some,
          Option.some.injEq, Prod.mk.injEq] at h
        obtain ⟨rfl, rfl⟩ := h
        exact ⟨.main, e, s₁, he, (mainStep_move hm).mutx.1, rfl, rfl⟩
  | handler c x =>
    cases hh : s.handlers c with
    | none => simp [lockStep, serverStep, hh] at h
    | some f =>
      cases hm : handlerStep s c f x with
      | none => simp [lockStep, serverStep, hh, hm] at h
      | some r =>
        obtain ⟨f', e, ev⟩ := r
        cases he : s.apply (.handler c) e with
        | none => simp [lockStep, serverStep, hh, hm, he] at h
        | some s₁ =>
          simp only [lockStep, serverStep, hh, hm, he, Server.effect, Option.map_some,
            Option.bind_some, Option.some.injEq, Prod.mk.injEq] at h
          obtain ⟨rfl, rfl⟩ := h
          refine ⟨.handler c, e, s₁, he, ?_, rfl, rfl⟩
          have hallow := ((handlerStep_move hm).mutx (hl.flushed c f hh)).1
          simpa [Server.holds, hh] using hallow

/-- What a step does to the mutex is in its log. -/
theorem mutexRun_of_lockStep {s s' : Server} {a : Action} {m : Option Tid}
    {log l : List (LockEvent Tid)} (hl : Locked s) (h : lockStep s a = some (s', l))
    (hrun : MutexRun m log s.mutx) : MutexRun m (log ++ l) s'.mutx := by
  obtain ⟨t, e, s₁, he, hallow, hmutx, rfl⟩ := lockStep_cases hl h
  rw [hmutx]
  have hskip : ∀ {s₁ : Server}, s₁.mutx = s.mutx → MutexRun m (log ++ []) s₁.mutx := by
    intro s₁ hs
    rw [hs, List.append_nil]
    exact hrun
  cases e with
  | sync y =>
    cases y with
    | skip | users content =>
      cases he
      exact hskip rfl
    | lock =>
      obtain ⟨hfree, rfl⟩ := Server.of_lock he
      rw [hfree] at hrun
      exact hrun.lock t
    | unlock =>
      cases he
      rw [(hl.holds t).mpr hallow] at hrun
      exact hrun.unlock t
  | enterSend =>
    obtain ⟨hfree, rfl⟩ := Server.of_enterSend he
    rw [hfree] at hrun
    exact hrun.lock t
  | accept | add | create | setName | setRoom | remove | close =>
    cases he
    exact hskip rfl

/-- `lockStep` makes the steps of the server. -/
theorem serverStep_of_lockStep {s s' : Server} {a : Action} {l : List (LockEvent Tid)}
    (h : lockStep s a = some (s', l)) : ∃ ev, serverStep s a = some (s', ev) := by
  unfold lockStep at h
  split at h
  · rename_i s₁ ev t e hs he
    cases h
    exact ⟨ev, hs⟩
  · cases h

section

variable {s s' : Server} {log : List (LockEvent Tid)}

theorem locked_of_lockRuns (h : Runs lockStep anyStep s log s') (hal : Alive s)
    (hl : Locked s) : Alive s' ∧ Locked s' := by
  refine h.invariant (I := fun _ s => Alive s ∧ Locked s) ⟨hal, hl⟩ ?_
  rintro _ s a s' l - ⟨hal, hl⟩ - hs
  obtain ⟨ev, hs⟩ := serverStep_of_lockStep hs
  have hstep := serverStep_stepOf hs
  exact ⟨hal.step hstep, hl.step hal hstep⟩

/-- The calls in a run are a run of the mutex. -/
theorem mutexRun_of_lockRuns (h : Runs lockStep anyStep s log s') (hal : Alive s)
    (hl : Locked s) : MutexRun s.mutx log s'.mutx := by
  refine h.invariant (I := fun log s' => MutexRun s.mutx log s'.mutx) .nil ?_
  intro log s₁ a s₂ l hrun ih _ hs
  exact mutexRun_of_lockStep (locked_of_lockRuns hrun hal hl).2 hs ih

/-- The calls of a thread balance between two points outside its critical sections. -/
theorem balanced_of_lockRuns (h : Runs lockStep anyStep s log s') (hal : Alive s)
    (hl : Locked s) {t : Tid} (ht : s.holds t = false) (ht' : s'.holds t = false) :
    locks t log = unlocks t log := by
  have hbal := (mutexRun_of_lockRuns h hal hl).balance t
  have hl' := (locked_of_lockRuns h hal hl).2
  rw [if_neg (by rw [hl.holds, ht]; exact Bool.false_ne_true),
    if_neg (by rw [hl'.holds, ht']; exact Bool.false_ne_true)] at hbal
  omega

/-! ## 3. The owner goes on -/

/-- Inside its critical section a thread is not at a `lock`. -/
theorem Server.locks_of_holds {t : Tid} (h : s.holds t = true) : s.locks t = false := by
  cases t with
  | main =>
    cases hm : s.main <;> simp_all [Server.holds, Server.locks, MainPc.holds, MainPc.locks]
  | handler c =>
    cases hh : s.handlers c with
    | none => simp [Server.locks, hh]
    | some f =>
      simp only [Server.holds, hh, Option.any_some] at h
      simp only [Server.locks, hh, Option.any_some]
      cases hpc : f.pc with
      | auth g =>
        rw [hpc] at h
        cases hg : g.pc <;> simp_all [HandlerPc.holds, AuthPc.holds, HandlerPc.locks]
      | _ => first | rfl | (rw [hpc] at h; cases h)

/-- A thread in its critical section has a step. -/
theorem Locked.enabled {t : Tid} (hl : Locked s) (h : s.holds t = true) :
    ∃ a s' l, lockStep s a = some (s', l) ∧ (s.effect a).map Prod.fst = some t := by
  cases t with
  | main =>
    refine ⟨.main .go, ?_⟩
    cases hm : s.main with
    | add c | unlock c => exact ⟨_, _, by simp only [lockStep, serverStep, mainStep, hm,
        Server.effect, Server.apply, Option.map_some]; rfl, by simp [Server.effect, mainStep, hm]⟩
    | _ => simp [Server.holds, hm, MainPc.holds] at h
  | handler c =>
    cases hh : s.handlers c with
    | none => simp [Server.holds, hh] at h
    | some f =>
      simp only [Server.holds, hh, Option.any_some] at h
      -- every statement of a critical section can be made, and none of them takes the mutex
      obtain ⟨f', e, ev, s₁, hm, he⟩ : ∃ f' e ev s₁, handlerStep s c f .go = some (f', e, ev) ∧
          s.apply (.handler c) e = some s₁ := by
        cases hpc : f.pc with
        | auth g =>
          rw [hpc] at h
          obtain ⟨hallow, -⟩ := authStep_sync s.users (hl.flushed c f hh g hpc)
          cases hstep : authStep s.users g with
          | mk o y =>
            have hy : ∃ s₁, s.apply (.handler c) (.sync y) = some s₁ := by
              rw [hstep] at hallow
              cases y with
              | lock => exact absurd (h.symm.trans hallow) (by simp)
              | _ => exact ⟨_, rfl⟩
            obtain ⟨s₁, hy⟩ := hy
            cases o with
            | inl g' => exact ⟨_, _, _, s₁, by simp only [handlerStep, hpc, hstep]; rfl, hy⟩
            | inr r => exact ⟨_, _, _, s₁, by simp only [handlerStep, hpc, hstep]; rfl, hy⟩
        | sendLoop i =>
          by_cases hi : (i : Int) < s.reg.clntCnt
          · exact ⟨_, _, _, _, by simp only [handlerStep, hpc, if_pos hi]; rfl, rfl⟩
          · exact ⟨_, _, _, _, by simp only [handlerStep, hpc, if_neg hi]; rfl, rfl⟩
        | dupCheck | dupUnlock b | discRemove | discUnlock =>
          exact ⟨_, _, _, _, by simp only [handlerStep, hpc]; rfl, rfl⟩
        | _ => simp [hpc, HandlerPc.holds] at h
      refine ⟨.handler c .go, { s₁ with handlers := Function.update s₁.handlers c (some f') },
        e.lockEvents (.handler c), ?_, ?_⟩
      · simp only [lockStep, serverStep, hh, hm, he, Server.effect, Option.bind_some,
          Option.map_some]
      · simp [Server.effect, hh, hm]

/-- A blocked thread has none. -/
theorem Server.Blocked.not_enabled {t : Tid} (h : s.Blocked t) {a : Action} {e : Effect}
    (ha : s.effect a = some (t, e)) : s.apply t e = none := by
  obtain ⟨hlock, hmutx⟩ := h
  have hno : ∀ {e}, e = .sync .lock ∨ e = .enterSend → s.apply t e = none := by
    rintro e (rfl | rfl) <;> simp [Server.apply, hmutx]
  cases a with
  | main x =>
    obtain ⟨⟨pc, e'⟩, hm, he⟩ := Option.map_eq_some_iff.mp ha
    cases he
    refine hno ?_
    cases mainStep_move hm with
    | lock d hpc => exact Or.inl rfl
    | accept _ _ hpc _ _ | add _ hpc | unlock _ hpc | create _ _ hpc =>
      simp [Server.locks, hpc, MainPc.locks] at hlock
  | handler c x =>
    obtain ⟨f, hf, he⟩ := Option.bind_eq_some_iff.mp ha
    obtain ⟨⟨f', e', ev⟩, hm, he⟩ := Option.map_eq_some_iff.mp he
    cases he
    refine hno ?_
    simp only [Server.locks, hf, Option.any_some] at hlock
    cases handlerStep_move hm with
    | dupLock _ | discLock _ => exact Or.inl rfl
    | sendLock _ => exact Or.inr rfl
    | auth g g' y hpc hstep | authReturn g r y hpc hstep =>
      have hg : g.pc = .lock := by simpa [hpc, HandlerPc.locks] using hlock
      simp only [authStep, hg, Prod.mk.injEq] at hstep
      exact Or.inl (congrArg Effect.sync hstep.2.symm)
    | readFails _ hpc | read _ _ hpc _ _ | dupCheck hpc | dupUnlock _ hpc | dupFail hpc
    | call _ _ hpc | replyOk hpc | replyFail _ hpc _ | setName hpc | welcome hpc | gateShut hpc _
    | gateOpen hpc _ | chatEnd _ hpc | chatIgnore _ _ _ hpc | chatJoin _ _ _ _ hpc
    | chatText _ _ _ hpc _ | joinRoom _ hpc | joinAck _ hpc | sendNext _ _ hpc _ _
    | sendEnd _ hpc _ | discRemove hpc | discUnlock hpc | close hpc =>
      rw [hpc] at hlock
      cases hlock

end

/-! ## 4. The result -/

/-- What a log of calls and the state it leads to say about the use of the mutex. -/
structure Disciplined (log : List (LockEvent Tid)) (s : Server) : Prop where
  /-- one thread at a time is between its `lock` and its `unlock` -/
  exclusive : ∀ t u, Inside t log → Inside u log → t = u
  /-- no thread takes the mutex again that has it -/
  fresh : ∀ pre t post, log = pre ++ .lock t :: post → ¬ Inside t pre
  /-- whichever way a handler gets from the start of a function to its end, it has released the
  mutex as often as it has taken it -/
  balanced : ∀ (f : LockUser) c log' s', Runs lockStep anyStep s log' s' →
    (∃ h, s.handlers c = some h ∧ f.entry h.pc) → (∃ h, s'.handlers c = some h ∧ f.exit h.pc) →
    locks (.handler c) log' = unlocks (.handler c) log'
  /-- the thread inside can go on -/
  proceeds : ∀ t, Inside t log →
    ∃ a s' l, lockStep s a = some (s', l) ∧ (s.effect a).map Prod.fst = some t
  /-- not every thread waits for the mutex -/
  unblocked : ∃ t, s.Active t ∧ ¬ s.Blocked t

/-- In every run of the server, of any number of handlers and with any interleaving, the mutex
is used with discipline. -/
theorem lock_discipline {users : Option Bytes} {log : List (LockEvent Tid)} {s : Server}
    (h : Runs lockStep anyStep (.init users) log s) : Disciplined log s := by
  have hrun : MutexRun none log s.mutx :=
    mutexRun_of_lockRuns h (alive_init users) (locked_init users)
  obtain ⟨hal, hl⟩ := locked_of_lockRuns h (alive_init users) (locked_init users)
  refine ⟨fun t u => hrun.exclusive, ?_, ?_, ?_, ?_⟩
  · rintro pre t post rfl
    exact hrun.fresh
  · rintro f c log' s' hrun' ⟨g, hg, hentry⟩ ⟨g', hg', hexit⟩
    refine balanced_of_lockRuns hrun' hal hl ?_ ?_
    · simp [Server.holds, hg, LockUser.entry_holds hentry]
    · simp [Server.holds, hg', LockUser.exit_holds hexit]
  · intro t ht
    exact hl.enabled ((hl.holds t).mp (hrun.inside_iff.mp ht))
  · cases hm : s.mutx with
    | none => exact ⟨.main, trivial, fun hb => hb.2 hm⟩
    | some t =>
      -- the owner is a thread that is not at a `lock`
      have hholds : s.holds t = true := (hl.holds t).mp hm
      refine ⟨t, ?_, fun hb => ?_⟩
      · cases t with
        | main => trivial
        | handler c =>
          cases hg : s.handlers c with
          | none => simp [Server.holds, hg] at hholds
          | some g =>
            refine ⟨g, hg, fun hdone => ?_⟩
            simp [Server.holds, hg, hdone, HandlerPc.holds] at hholds
      · exact Bool.false_ne_true ((Server.locks_of_holds hholds).symm.trans hb.1)

/-- A user logs in and says something; the second connection waits to log in. -/
def saysAndWaits : List Action :=
  connects 4 (List.replicate 20 0) ++ connects 5 (List.replicate 20 0) ++
    logsIn 0 "LOGIN kim 1" 7 ++ goesOn 0 4 ++ hears 0 "hi" 2 ++
    [.handler 1 (.request (some (utf8 "LOGIN lee 2")) ⟨[], [], []⟩)]

theorem lock_discipline_two : ∃ log s,
    Runs lockStep anyStep (.init (some (utf8 "kim 1\nlee 2\n"))) log s ∧
    (locks (.handler 0) log = 3 ∧ s.mutx = some (.handler 0) ∧ s.locks (.handler 1) = true) ∧
    Disciplined log s := by
  obtain ⟨log, s, hrun, hp⟩ : ∃ log s,
      Runs lockStep anyStep (.init (some (utf8 "kim 1\nlee 2\n"))) log s ∧
      decide (locks (.handler 0) log = 3 ∧ s.mutx = some (.handler 0) ∧
        s.locks (.handler 1) = true) = true :=
    exists_runs_of_exec saysAndWaits _ (by decide +kernel)
  exact ⟨log, s, hrun, of_decide_eq_true hp, lock_discipline hrun⟩

end PosixLab.Chat
