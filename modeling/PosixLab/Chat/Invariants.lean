/-
# What every run of the server keeps

Whatever the clients do and however the threads interleave:

* a thread has the mutex exactly between its `lock` and its `unlock` (`Locked`), so only one
  thread at a time is there and the table changes under nobody's hands;
* records are allocated once, and a handler belongs to a record that was allocated (`Alive`);
* `clnt_cnt` counts the connections between their `accept` and their `DISCONNECT`, and no record
  stands in the table twice (`Tabled`);
* the descriptor of a connection that is open leads to that connection (`Wired`).

Which records stand in the table is another matter.  It holds the clients that belong there
(`Present`) as long as they leave from the last slot: see `Chat.Registry`.
-/
import PosixLab.Chat.Server

namespace PosixLab.Chat

open PosixLab

/-! ## 1. Effects, field by field -/

def Effect.heap (s : Server) : Effect → Addr → Client
  | .accept sock name => Function.update s.heap s.next ⟨sock, name, 0⟩
  | .setName c name =>
    Function.update s.heap c { s.heap c with name := strcpy (s.heap c).name name }
  | .setRoom c room => Function.update s.heap c { s.heap c with room := room }
  | _ => s.heap

def Effect.next (s : Server) : Effect → Nat
  | .accept _ _ => s.next + 1
  | _ => s.next

def Effect.fds (s : Server) : Effect → Int → Option Addr
  | .accept sock _ => if 0 ≤ sock then Function.update s.fds sock (some s.next) else s.fds
  | .close c => if 0 ≤ s.sockOf c then Function.update s.fds (s.sockOf c) none else s.fds
  | _ => s.fds

def Effect.reg (s : Server) : Effect → Registry
  | .add c => s.reg.add c
  | .remove c => s.reg.remove s.sockOf (s.sockOf c)
  | _ => s.reg

def Effect.users (s : Server) : Effect → Option Bytes
  | .sync (.users content) => some content
  | _ => s.users

def Effect.sends (s : Server) : Effect → Nat
  | .enterSend => s.sends + 1
  | _ => s.sends

def Effect.handlers (s : Server) : Effect → Addr → Option Handler
  | .create c msg => Function.update s.handlers c (some (.start msg))
  | _ => s.handlers

/-- What an effect does to each part of the state but the mutex. -/
structure Applied (s : Server) (e : Effect) (s₁ : Server) : Prop where
  heap : s₁.heap = e.heap s
  next : s₁.next = e.next s
  fds : s₁.fds = e.fds s
  reg : s₁.reg = e.reg s
  users : s₁.users = e.users s
  sends : s₁.sends = e.sends s
  main : s₁.main = s.main
  handlers : s₁.handlers = e.handlers s

/-- A thread gets past `pthread_mutex_lock` when the mutex is free. -/
theorem Server.of_lock {s s₁ : Server} {t : Tid} (h : s.apply t (.sync .lock) = some s₁) :
    s.mutx = none ∧ s₁ = { s with mutx := some t } := by
  obtain ⟨hfree, heq⟩ := Option.ite_none_right_eq_some.mp h
  exact ⟨hfree, (Option.some.inj heq).symm⟩

theorem Server.of_enterSend {s s₁ : Server} {t : Tid} (h : s.apply t .enterSend = some s₁) :
    s.mutx = none ∧ s₁ = { s with mutx := some t, sends := s.sends + 1 } := by
  obtain ⟨hfree, heq⟩ := Option.ite_none_right_eq_some.mp h
  exact ⟨hfree, (Option.some.inj heq).symm⟩

theorem Server.applied {s s₁ : Server} {t : Tid} {e : Effect} (h : s.apply t e = some s₁) :
    Applied s e s₁ := by
  cases e with
  | sync y =>
    cases y with
    | lock =>
      obtain ⟨-, rfl⟩ := Server.of_lock h
      exact ⟨rfl, rfl, rfl, rfl, rfl, rfl, rfl, rfl⟩
    | _ =>
      cases h
      exact ⟨rfl, rfl, rfl, rfl, rfl, rfl, rfl, rfl⟩
  | enterSend =>
    obtain ⟨-, rfl⟩ := Server.of_enterSend h
    exact ⟨rfl, rfl, rfl, rfl, rfl, rfl, rfl, rfl⟩
  | _ =>
    cases h
    exact ⟨rfl, rfl, rfl, rfl, rfl, rfl, rfl, rfl⟩

/-- The effects only `main` has. -/
def Effect.ofMain : Effect → Bool
  | .accept _ _ | .add _ | .create _ _ => true
  | _ => false

theorem Move.ofMain {s : Server} {c : Addr} {h h' : Handler} {x : Input} {e : Effect}
    {ev : List Event} (hm : Move s c h x h' e ev) : e.ofMain = false := by
  cases hm <;> rfl

section

variable {s : Server} {e : Effect}

theorem Effect.next_of_handler (h : e.ofMain = false) : e.next s = s.next := by
  cases e <;> first | rfl | cases h

theorem Effect.handlers_of_handler (h : e.ofMain = false) : e.handlers s = s.handlers := by
  cases e <;> first | rfl | cases h

/-- The socket of a record is set once. -/
theorem Effect.sockOf_of_handler (h : e.ofMain = false) (c : Addr) :
    (e.heap s c).sock = s.sockOf c := by
  cases e with
  | setName d name =>
    by_cases hd : c = d
    · subst hd
      simp [Effect.heap, Server.sockOf]
    · simp [Effect.heap, Server.sockOf, hd]
  | setRoom d room =>
    by_cases hd : c = d
    · subst hd
      simp [Effect.heap, Server.sockOf]
    · simp [Effect.heap, Server.sockOf, hd]
  | _ => first | rfl | cases h

end

/-! ## 2. Allocation -/

/-- The record `main` is working on. -/
def MainPc.client : MainPc → Option Addr
  | .accept => none
  | .lock c | .add c | .unlock c | .create c => some c

/-- Handlers belong to records that were allocated, and the record that `main` is working on is
the latest and has no handler yet. -/
structure Alive (s : Server) : Prop where
  unborn : ∀ c, s.next ≤ c → s.handlers c = none
  client : ∀ c, s.main.client = some c → c < s.next ∧ s.handlers c = none

theorem alive_init (users : Option Bytes) : Alive (.init users) :=
  ⟨fun _ _ => rfl, fun _ h => by cases h⟩

theorem Alive.lt (h : Alive s) {c : Addr} {f : Handler} (hc : s.handlers c = some f) :
    c < s.next := by
  by_contra hlt
  rw [h.unborn c (Nat.le_of_not_lt hlt)] at hc
  cases hc

theorem Alive.step {s s' : Server} {a : Action} {ev : List Event} (h : Alive s)
    (hs : StepOf s a s' ev) : Alive s' := by
  cases hs with
  | main hm he =>
    have ha := Server.applied he
    cases hm with
    | accept sock name hpc hsock hname =>
      constructor
      · intro c hc
        simp only [ha.next, ha.handlers, Effect.next, Effect.handlers] at hc ⊢
        exact h.unborn c (by omega)
      · intro c hc
        simp only [ha.next, ha.handlers, Effect.next, Effect.handlers] at hc ⊢
        cases hc
        exact ⟨Nat.lt_succ_self _, h.unborn _ (Nat.le_refl _)⟩
    | lock c hpc | add c hpc | unlock c hpc =>
      constructor
      · intro d hd
        simp only [ha.next, ha.handlers, Effect.next, Effect.handlers] at hd ⊢
        exact h.unborn d hd
      · intro d hd
        simp only [ha.next, ha.handlers, Effect.next, Effect.handlers] at hd ⊢
        exact h.client d (by rw [hpc]; exact hd)
    | create c msg hpc =>
      obtain ⟨hc, -⟩ := h.client c (by rw [hpc]; rfl)
      constructor
      · intro d hd
        simp only [ha.next, ha.handlers, Effect.next, Effect.handlers] at hd ⊢
        rw [Function.update_of_ne (Nat.ne_of_gt (Nat.lt_of_lt_of_le hc hd))]
        exact h.unborn d hd
      · intro d hd
        cases hd
  | handler hh hm he =>
    rename_i c x f f' e s₁
    have ha := Server.applied he
    have hc := h.lt hh
    constructor
    · intro d hd
      simp only [ha.next, ha.handlers, Effect.next_of_handler hm.ofMain,
        Effect.handlers_of_handler hm.ofMain] at hd ⊢
      rw [Function.update_of_ne (Nat.ne_of_gt (Nat.lt_of_lt_of_le hc hd))]
      exact h.unborn d hd
    · intro d hd
      simp only [ha.main] at hd
      obtain ⟨hlt, hnone⟩ := h.client d hd
      simp only [ha.next, ha.handlers, Effect.next_of_handler hm.ofMain,
        Effect.handlers_of_handler hm.ofMain]
      have hne : d ≠ c := by
        rintro rfl
        rw [hnone] at hh
        cases hh
      rw [Function.update_of_ne hne]
      exact ⟨hlt, hnone⟩

/-! ## 3. The mutex -/

def HandlerPc.holds : HandlerPc → Bool
  | .dupCheck | .dupUnlock _ | .sendLoop _ | .discRemove | .discUnlock => true
  | .auth f => f.pc.holds
  | _ => false

def MainPc.holds : MainPc → Bool
  | .add _ | .unlock _ => true
  | _ => false

/-- Whether a thread is between a `lock` and the `unlock` that belongs to it. -/
def Server.holds (s : Server) : Tid → Bool
  | .main => s.main.holds
  | .handler c => (s.handlers c).any fun h => h.pc.holds

/-- What a step may do, by whether its thread has the mutex. -/
def Effect.Allowed (holds : Bool) : Effect → Prop
  | .sync y => y.Allowed holds
  | .enterSend => holds = false
  | .add _ | .remove _ => holds = true
  | _ => True

/-- Whether the thread has the mutex afterwards. -/
def Effect.holds (holds : Bool) : Effect → Bool
  | .sync y => y.holds holds
  | .enterSend => true
  | _ => holds

/-- The call of `process_auth` that a handler is in has no output pending outside its
registration. -/
def Handler.Flushed (h : Handler) : Prop := ∀ f, h.pc = .auth f → f.Flushed

theorem MainMove.mutx {s : Server} {x : MainInput} {pc : MainPc} {e : Effect}
    (hm : MainMove s x pc e) :
    e.Allowed s.main.holds ∧ e.holds s.main.holds = pc.holds := by
  cases hm with
  | accept sock name hpc hsock hname =>
    rw [hpc]
    exact ⟨trivial, rfl⟩
  | lock c hpc | add c hpc | unlock c hpc =>
    rw [hpc]
    exact ⟨rfl, rfl⟩
  | create c msg hpc =>
    rw [hpc]
    exact ⟨trivial, rfl⟩

theorem Move.mutx {s : Server} {c : Addr} {h h' : Handler} {x : Input} {e : Effect}
    {ev : List Event} (hm : Move s c h x h' e ev) (hf : h.Flushed) :
    e.Allowed h.pc.holds ∧ e.holds h.pc.holds = h'.pc.holds ∧ h'.Flushed := by
  have hno : ∀ {pc : HandlerPc}, (∀ f, pc ≠ .auth f) → ∀ f, pc = .auth f → f.Flushed :=
    fun hne f hf => absurd hf (hne f)
  cases hm with
  | auth f f' y hpc hstep =>
    have hsync := authStep_sync s.users (hf f hpc)
    rw [hstep] at hsync
    rw [hpc]
    refine ⟨hsync.1, hsync.2.1, ?_⟩
    intro g hg
    cases hg
    exact hsync.2.2
  | authReturn f r y hpc hstep =>
    have hsync := authStep_sync s.users (hf f hpc)
    rw [hstep] at hsync
    rw [hpc]
    exact ⟨hsync.1, hsync.2, hno (by simp)⟩
  | call fileId filePw hpc =>
    rw [hpc]
    refine ⟨trivial, rfl, ?_⟩
    intro g hg
    cases hg
    exact flushed_call ..
  | dupUnlock b hpc =>
    rw [hpc]
    refine ⟨rfl, ?_, hno ?_⟩
    · simp only [Effect.holds, Sync.holds]
      split <;> rfl
    · intro f
      simp only
      split <;> simp
  | read _ _ hpc _ _ | replyOk hpc =>
    rw [hpc]
    refine ⟨trivial, ?_, hno ?_⟩
    · simp only [Effect.holds, Sync.holds]
      split <;> rfl
    · intro f
      simp only
      split <;> simp
  | dupLock hpc | sendLock hpc | sendEnd i hpc hi | discLock hpc | discRemove hpc
  | discUnlock hpc =>
    rw [hpc]
    exact ⟨rfl, rfl, hno (by simp)⟩
  | readFails old hpc | dupCheck hpc | dupFail hpc | replyFail r hpc hr | setName hpc
  | welcome hpc | gateShut hpc hname | gateOpen hpc hname | chatEnd r hpc
  | chatIgnore r msg strLen hpc | chatJoin r n msg strLen hpc | chatText r msg strLen hpc hread
  | joinRoom n hpc | joinAck n hpc | sendNext i e hpc hi he | close hpc =>
    rw [hpc]
    exact ⟨trivial, rfl, hno (by simp)⟩

/-- What an allowed effect does to the mutex. -/
theorem Server.apply_mutx {s s₁ : Server} {t : Tid} {e : Effect} {b : Bool}
    (he : s.apply t e = some s₁) (ha : e.Allowed b) (hb : s.mutx = some t ↔ b = true) :
    (s₁.mutx = some t ↔ e.holds b = true) ∧
      ∀ u, u ≠ t → (s₁.mutx = some u ↔ s.mutx = some u) := by
  cases e with
  | sync y =>
    cases y with
    | lock =>
      obtain ⟨hfree, rfl⟩ := Server.of_lock he
      refine ⟨by simp [Effect.holds, Sync.holds], fun u hu => ?_⟩
      simp [hfree, Ne.symm hu]
    | unlock =>
      cases he
      refine ⟨by simp [Effect.holds, Sync.holds], fun u hu => ?_⟩
      have hm : s.mutx = some t := hb.mpr ha
      simp [hm, Ne.symm hu]
    | skip =>
      cases he
      exact ⟨hb, fun _ _ => Iff.rfl⟩
    | users content =>
      cases he
      exact ⟨hb, fun _ _ => Iff.rfl⟩
  | enterSend =>
    obtain ⟨hfree, rfl⟩ := Server.of_enterSend he
    refine ⟨by simp [Effect.holds], fun u hu => ?_⟩
    simp [hfree, Ne.symm hu]
  | _ =>
    cases he
    exact ⟨hb, fun _ _ => Iff.rfl⟩

/-- The holder of the mutex is the thread between its `lock` and its `unlock`. -/
structure Locked (s : Server) : Prop where
  holds : ∀ t, s.mutx = some t ↔ s.holds t = true
  flushed : ∀ c h, s.handlers c = some h → h.Flushed

theorem locked_init (users : Option Bytes) : Locked (.init users) := by
  refine ⟨fun t => ?_, fun c h hc => by cases hc⟩
  cases t <;> simp [Server.init, Server.holds, MainPc.holds]

/-- `main` starts handlers and leaves those that run alone. -/
theorem MainMove.handlers {s : Server} {x : MainInput} {pc : MainPc} {e : Effect}
    (hm : MainMove s x pc e) (hal : Alive s) (c : Addr) :
    e.handlers s c = s.handlers c ∨
      (s.handlers c = none ∧ ∃ msg, e.handlers s c = some (.start msg)) := by
  cases hm with
  | create d msg hpc =>
    obtain ⟨-, hnone⟩ := hal.client d (by rw [hpc]; rfl)
    by_cases hd : c = d
    · subst hd
      exact Or.inr ⟨hnone, msg, by simp [Effect.handlers]⟩
    · exact Or.inl (by simp [Effect.handlers, hd])
  | accept _ _ _ _ _ | lock _ _ | add _ _ | unlock _ _ => exact Or.inl rfl

theorem Locked.step {s s' : Server} {a : Action} {ev : List Event} (h : Locked s)
    (hal : Alive s) (hs : StepOf s a s' ev) : Locked s' := by
  cases hs with
  | main hm he =>
    have ha := Server.applied he
    obtain ⟨hallow, hholds⟩ := hm.mutx
    obtain ⟨hself, hothers⟩ := Server.apply_mutx he hallow (h.holds .main)
    constructor
    · intro t
      cases t with
      | main => exact hself.trans (by rw [hholds]; rfl)
      | handler c =>
        simp only [hothers (.handler c) (by simp), h.holds, Server.holds, ha.handlers]
        rcases hm.handlers hal c with hc | ⟨hnone, msg, hc⟩
        · rw [hc]
        · rw [hc, hnone]
          rfl
    · intro c f hf
      simp only [ha.handlers] at hf
      rcases hm.handlers hal c with hc | ⟨-, msg, hc⟩
      · exact h.flushed c f (hc ▸ hf)
      · rw [hc] at hf
        cases hf
        intro g hg
        cases hg
  | handler hh hm he =>
    rename_i c x f f' e s₁
    have ha := Server.applied he
    have hhandlers : s₁.handlers = s.handlers :=
      ha.handlers.trans (Effect.handlers_of_handler hm.ofMain)
    obtain ⟨hallow, hholds, hflushed⟩ := hm.mutx (h.flushed c f hh)
    have hc : s.mutx = some (.handler c) ↔ f.pc.holds = true := by
      rw [h.holds]
      simp [Server.holds, hh]
    obtain ⟨hself, hothers⟩ := Server.apply_mutx he hallow hc
    constructor
    · intro t
      cases t with
      | main =>
        simp only [hothers .main (by simp), h.holds, Server.holds, ha.main]
      | handler d =>
        by_cases hd : d = c
        · subst hd
          rw [hself, hholds]
          simp [Server.holds]
        · have hne : Tid.handler d ≠ Tid.handler c := fun e => hd (Tid.handler.inj e)
          simp only [hothers _ hne, h.holds, Server.holds, hhandlers, Function.update_of_ne hd]
    · intro d g hg
      by_cases hd : d = c
      · subst hd
        simp only [Function.update_self, Option.some.injEq] at hg
        exact hg ▸ hflushed
      · simp only [Function.update_of_ne hd, hhandlers] at hg
        exact h.flushed d g hg

/-- At most one thread holds the mutex. -/
theorem Locked.unique {s : Server} (h : Locked s) {t u : Tid} (ht : s.holds t = true)
    (hu : s.holds u = true) : t = u := by
  have h₁ := (h.holds t).mpr ht
  rw [(h.holds u).mpr hu] at h₁
  exact (Option.some.inj h₁).symm

/-! ## 4. The table -/

/-- Between the `accept` loop's entry into the table and the handler's `DISCONNECT`. -/
def HandlerPc.inTable : HandlerPc → Bool
  | .discUnlock | .close | .done => false
  | _ => true

def MainPc.inTable (c : Addr) : MainPc → Bool
  | .unlock d | .create d => d == c
  | _ => false

/-- Whether the client `c` has been put into the table and not been taken out. -/
def Server.inTable (s : Server) (c : Addr) : Bool :=
  match s.handlers c with
  | some h => h.pc.inTable
  | none => s.main.inTable c

/-- What a step of a handler does to its entry in the table. -/
theorem Move.inTable {s : Server} {c : Addr} {h h' : Handler} {x : Input} {e : Effect}
    {ev : List Event} (hm : Move s c h x h' e ev) :
    (x = .go ∧ e = .remove c ∧ ev = [.disconnect c] ∧ h.pc = .discRemove ∧
        h'.pc = .discUnlock) ∨
      (e.reg s = s.reg ∧ h'.pc.inTable = h.pc.inTable) := by
  cases hm with
  | discRemove hpc => exact Or.inl ⟨rfl, rfl, rfl, hpc, rfl⟩
  | read _ _ hpc _ _ | dupUnlock _ hpc | replyOk hpc =>
    refine Or.inr ⟨rfl, ?_⟩
    simp only [hpc]
    split <;> rfl
  | readFails _ hpc | dupLock hpc | dupCheck hpc | dupFail hpc | call _ _ hpc | auth _ _ _ hpc _
  | authReturn _ _ _ hpc _ | replyFail _ hpc _ | setName hpc | welcome hpc | gateShut hpc _
  | gateOpen hpc _ | chatEnd _ hpc | chatIgnore _ _ _ hpc | chatJoin _ _ _ _ hpc
  | chatText _ _ _ hpc _ | joinRoom _ hpc | joinAck _ hpc | sendLock hpc | sendNext _ _ hpc _ _
  | sendEnd _ hpc _ | discLock hpc | discUnlock hpc | close hpc =>
    exact Or.inr ⟨rfl, (congrArg HandlerPc.inTable hpc).symm⟩

/-- What a step does to the table and to the clients in it: nothing, or `main` puts one in, or
a handler takes its own client out. -/
theorem StepOf.table {s s' : Server} {a : Action} {ev : List Event} (hal : Alive s)
    (hs : StepOf s a s' ev) :
    (s'.reg = s.reg ∧ ∀ d, s'.inTable d = s.inTable d) ∨
    (∃ c, s.main = .add c ∧ s'.main = .unlock c ∧ s'.reg = s.reg.add c ∧
      s.inTable c = false ∧ ∀ d, s'.inTable d = (s.inTable d || d == c)) ∨
    (∃ c h, a = .handler c .go ∧ s.handlers c = some h ∧ h.pc = .discRemove ∧
      s'.reg = s.reg.remove s.sockOf (s.sockOf c) ∧
      s.inTable c = true ∧ ∀ d, s'.inTable d = (s.inTable d && d != c)) := by
  cases hs with
  | main hm he =>
    have ha := Server.applied he
    cases hm with
    | accept sock name hpc hsock hname =>
      refine Or.inl ⟨ha.reg, fun d => ?_⟩
      simp only [Server.inTable, ha.handlers, Effect.handlers, hpc]
      rfl
    | lock c hpc | unlock c hpc =>
      refine Or.inl ⟨ha.reg, fun d => ?_⟩
      simp only [Server.inTable, ha.handlers, Effect.handlers, hpc]
      rfl
    | create c msg hpc =>
      obtain ⟨-, hnone⟩ := hal.client c (by rw [hpc]; rfl)
      refine Or.inl ⟨ha.reg, fun d => ?_⟩
      by_cases hd : d = c
      · subst hd
        simp [Server.inTable, ha.handlers, Effect.handlers, hnone, hpc, Handler.start,
          HandlerPc.inTable, MainPc.inTable]
      · have hne : (c == d) = false := beq_eq_false_iff_ne.mpr (Ne.symm hd)
        simp [Server.inTable, ha.handlers, Effect.handlers, hpc, hd, MainPc.inTable, hne]
    | add c hpc =>
      obtain ⟨-, hnone⟩ := hal.client c (by rw [hpc]; rfl)
      refine Or.inr (Or.inl ⟨c, hpc, rfl, ha.reg, ?_, fun d => ?_⟩)
      · simp [Server.inTable, hnone, hpc, MainPc.inTable]
      · by_cases hd : d = c
        · subst hd
          simp [Server.inTable, ha.handlers, Effect.handlers, hnone, MainPc.inTable]
        · have hne : (c == d) = false := beq_eq_false_iff_ne.mpr (Ne.symm hd)
          simp [Server.inTable, ha.handlers, Effect.handlers, hpc, hd, MainPc.inTable, hne]
  | handler hh hm he =>
    rename_i c x f f' e s₁
    have ha := Server.applied he
    have hhandlers : s₁.handlers = s.handlers :=
      ha.handlers.trans (Effect.handlers_of_handler hm.ofMain)
    have hothers : ∀ d, d ≠ c → Server.inTable
        { s₁ with handlers := Function.update s₁.handlers c (some f') } d = s.inTable d := by
      intro d hd
      simp [Server.inTable, hd, hhandlers, ha.main]
    rcases hm.inTable with ⟨rfl, rfl, -, hpc, hpc'⟩ | ⟨hreg, hin⟩
    · refine Or.inr (Or.inr ⟨c, f, rfl, hh, hpc, ha.reg, ?_, fun d => ?_⟩)
      · simp [Server.inTable, hh, hpc, HandlerPc.inTable]
      · by_cases hd : d = c
        · subst hd
          simp [Server.inTable, hpc', HandlerPc.inTable]
        · simp [hothers d hd, hd]
    · refine Or.inl ⟨ha.reg.trans hreg, fun d => ?_⟩
      by_cases hd : d = c
      · subst hd
        simp [Server.inTable, hh, hin]
      · exact hothers d hd

theorem StepOf.next_le {s s' : Server} {a : Action} {ev : List Event} (hs : StepOf s a s' ev) :
    s.next ≤ s'.next := by
  cases hs with
  | main hm he =>
    simp only [(Server.applied he).next]
    cases hm with
    | accept _ _ _ _ _ => exact Nat.le_succ _
    | _ => exact Nat.le_refl _
  | handler hh hm he =>
    simp only [(Server.applied he).next, Effect.next_of_handler hm.ofMain]
    exact Nat.le_refl _

/-- `main` is about to put `c` into the table. -/
def MainPc.adding (c : Addr) (pc : MainPc) : Prop := pc = .lock c ∨ pc = .add c

/-- A client that is about to be put into the table was so before, or is a new one. -/
theorem StepOf.adding {s s' : Server} {a : Action} {ev : List Event} (hs : StepOf s a s' ev)
    {c : Addr} (hc : s'.main.adding c) : s.main.adding c ∨ s.next ≤ c := by
  cases hs with
  | main hm he =>
    cases hm with
    | accept sock name hpc hsock hname =>
      rcases hc with hc | hc <;> cases hc
      exact Or.inr (Nat.le_refl _)
    | lock d hpc =>
      rcases hc with hc | hc <;> cases hc
      exact Or.inl (Or.inl hpc)
    | add d hpc | unlock d hpc | create d msg hpc =>
      rcases hc with hc | hc <;> cases hc
  | handler hh hm he =>
    simp only [(Server.applied he).main] at hc
    exact Or.inl hc

/-- The counter counts the clients that are in the table, the slots in use hold no record
twice, and none of a client that is not yet there. -/
structure Tabled (s : Server) : Prop where
  counted : ∃ l : List Addr, l.Nodup ∧ (∀ c, c ∈ l ↔ s.inTable c = true) ∧
    s.reg.clntCnt = l.length
  nodup : s.reg.live.Nodup
  known : ∀ e ∈ s.reg.live, e < s.next
  pending : ∀ c, s.main.adding c → c ∉ s.reg.live

theorem tabled_init (users : Option Bytes) : Tabled (.init users) := by
  refine ⟨⟨[], List.nodup_nil, ?_, rfl⟩, ?_, ?_, ?_⟩
  · intro c
    simp [Server.inTable, Server.init, MainPc.inTable]
  · exact List.nodup_nil
  · intro e he
    cases he
  · intro c hc
    simp [Server.init, MainPc.adding] at hc

/-- What is left of the table after a removal. -/
theorem live_remove_sublist (sockOf : Addr → Int) (r : Registry) (sock : Int) :
    (r.remove sockOf sock).live.Sublist r.live := by
  cases hf : r.findSock sockOf sock with
  | none =>
    rw [Registry.live_remove_none hf]
    exact List.dropLast_sublist _
  | some i =>
    rw [Registry.live_remove hf]
    exact List.eraseIdx_sublist ..

theorem Tabled.cnt_nonneg {s : Server} (h : Tabled s) : 0 ≤ s.reg.clntCnt := by
  obtain ⟨l, -, -, hl⟩ := h.counted
  omega

/-- No client that is about to be put into the table is in it, as long as nobody else was
added. -/
theorem Tabled.pending_of_subset {s s' : Server} {a : Action} {ev : List Event} (h : Tabled s)
    (hs : StepOf s a s' ev) (hsub : s'.reg.live ⊆ s.reg.live) :
    ∀ c, s'.main.adding c → c ∉ s'.reg.live := by
  intro c hc hmem
  rcases hs.adding hc with hc | hc
  · exact h.pending c hc (hsub hmem)
  · exact absurd (h.known c (hsub hmem)) (Nat.not_lt.mpr hc)

theorem Tabled.step {s s' : Server} {a : Action} {ev : List Event} (h : Tabled s)
    (hal : Alive s) (hs : StepOf s a s' ev) : Tabled s' := by
  have hnext := hs.next_le
  obtain ⟨l, hnd, hl, hcnt⟩ := h.counted
  rcases hs.table hal with ⟨hreg, hin⟩ | ⟨c, hpc, hpc', hreg, hout, hin⟩ |
    ⟨c, f, -, -, -, hreg, hmem, hin⟩
  · refine ⟨⟨l, hnd, fun d => by rw [hl, hin], by rw [hreg, hcnt]⟩, hreg ▸ h.nodup, ?_,
      h.pending_of_subset hs (by rw [hreg]; exact List.Subset.refl _)⟩
    rw [hreg]
    exact fun e he => Nat.lt_of_lt_of_le (h.known e he) hnext
  · -- `main` puts `c` into the table
    have hlive : s'.reg.live = s.reg.live ++ [c] := by
      rw [hreg, Registry.live_add h.cnt_nonneg]
    have hlt : c < s.next := (hal.client c (by rw [hpc]; rfl)).1
    refine ⟨⟨l ++ [c], ?_, ?_, ?_⟩, ?_, ?_, ?_⟩
    · refine List.Nodup.append hnd (List.nodup_singleton _) ?_
      rw [List.disjoint_singleton, hl, hout]
      exact Bool.false_ne_true
    · intro d
      rw [List.mem_append, List.mem_singleton, hl, hin, Bool.or_eq_true, beq_iff_eq]
    · simp only [hreg, Registry.add, hcnt, List.length_append, List.length_singleton]
      push_cast
      rfl
    · rw [hlive]
      exact List.Nodup.append h.nodup (List.nodup_singleton _)
        (List.disjoint_singleton.mpr (h.pending c (Or.inr hpc)))
    · rw [hlive]
      intro e he
      rcases List.mem_append.mp he with he | he
      · exact Nat.lt_of_lt_of_le (h.known e he) hnext
      · exact List.mem_singleton.mp he ▸ Nat.lt_of_lt_of_le hlt hnext
    · rw [hpc']
      intro d hd
      rcases hd with hd | hd <;> cases hd
  · -- the handler of `c` takes it out
    have hsub : s'.reg.live.Sublist s.reg.live := hreg ▸ live_remove_sublist ..
    have hc : c ∈ l := (hl c).mpr hmem
    refine ⟨⟨l.erase c, hnd.erase c, ?_, ?_⟩, h.nodup.sublist hsub, ?_,
      h.pending_of_subset hs hsub.subset⟩
    · intro d
      rw [hnd.mem_erase_iff, hl, hin, Bool.and_eq_true, bne_iff_ne, and_comm]
    · have hpos : 0 < l.length := List.length_pos_of_mem hc
      simp only [hreg, Registry.remove, hcnt, List.length_erase_of_mem hc]
      omega
    · exact fun e he => Nat.lt_of_lt_of_le (h.known e (hsub.subset he)) hnext

/-! ## 5. Descriptors -/

def HandlerPc.isOpen : HandlerPc → Bool
  | .done => false
  | _ => true

/-- Whether the connection of the client `c` has been accepted and not been closed. -/
def Server.isOpen (s : Server) (c : Addr) : Bool :=
  match s.handlers c with
  | some h => h.pc.isOpen
  | none => s.main.client == some c

theorem Alive.lt_of_isOpen {s : Server} (h : Alive s) {c : Addr} (hc : s.isOpen c = true) :
    c < s.next := by
  cases hh : s.handlers c with
  | some f => exact h.lt hh
  | none =>
    simp only [Server.isOpen, hh, beq_iff_eq] at hc
    exact (h.client c hc).1

/-- What a step of a handler does to its descriptor. -/
theorem Move.isOpen {s : Server} {c : Addr} {h h' : Handler} {x : Input} {e : Effect}
    {ev : List Event} (hm : Move s c h x h' e ev) :
    (e = .close c ∧ h.pc.isOpen = true ∧ h'.pc.isOpen = false) ∨
      (e.fds s = s.fds ∧ h'.pc.isOpen = h.pc.isOpen) := by
  cases hm with
  | close hpc =>
    refine Or.inl ⟨rfl, ?_, rfl⟩
    rw [hpc]
    rfl
  | read _ _ hpc _ _ | dupUnlock _ hpc | replyOk hpc =>
    refine Or.inr ⟨rfl, ?_⟩
    simp only [hpc]
    split <;> rfl
  | readFails _ hpc | dupLock hpc | dupCheck hpc | dupFail hpc | call _ _ hpc | auth _ _ _ hpc _
  | authReturn _ _ _ hpc _ | replyFail _ hpc _ | setName hpc | welcome hpc | gateShut hpc _
  | gateOpen hpc _ | chatEnd _ hpc | chatIgnore _ _ _ hpc | chatJoin _ _ _ _ hpc
  | chatText _ _ _ hpc _ | joinRoom _ hpc | joinAck _ hpc | sendLock hpc | sendNext _ _ hpc _ _
  | sendEnd _ hpc _ | discLock hpc | discRemove hpc | discUnlock hpc =>
    exact Or.inr ⟨rfl, (congrArg HandlerPc.isOpen hpc).symm⟩

/-- Descriptors and open connections belong together. -/
structure Wired (s : Server) : Prop where
  fd_of_open : ∀ c, s.isOpen c = true → 0 ≤ s.sockOf c → s.fds (s.sockOf c) = some c
  open_of_fd : ∀ f c, s.fds f = some c → 0 ≤ f ∧ s.sockOf c = f ∧ s.isOpen c = true

theorem wired_init (users : Option Bytes) : Wired (.init users) := by
  refine ⟨fun c hc => ?_, fun f c hf => ?_⟩
  · simp [Server.isOpen, Server.init, MainPc.client] at hc
  · simp [Server.init] at hf

theorem Wired.keep {s s' : Server} (h : Wired s) (hfds : s'.fds = s.fds)
    (hopen : ∀ c, s'.isOpen c = s.isOpen c) (hsock : ∀ c, s'.sockOf c = s.sockOf c) :
    Wired s' := by
  constructor
  · intro c hc hs
    rw [hopen] at hc
    rw [hsock] at hs ⊢
    rw [hfds]
    exact h.fd_of_open c hc hs
  · intro f c hf
    rw [hfds] at hf
    rw [hsock, hopen]
    exact h.open_of_fd f c hf

/-- A connection is accepted. -/
theorem Wired.accept {s s₁ : Server} {sock : Int} {name : Bytes} (h : Wired s) (hal : Alive s)
    (hpc : s.main = .accept) (hsock : sock = -1 ∨ 0 ≤ sock ∧ s.fds sock = none)
    (ha : Applied s (.accept sock name) s₁) : Wired { s₁ with main := .lock s.next } := by
  have hopen : ∀ c, Server.isOpen { s₁ with main := .lock s.next } c =
      (s.isOpen c || (c == s.next)) := by
    intro c
    by_cases hc : c = s.next
    · subst hc
      simp [Server.isOpen, ha.handlers, Effect.handlers, hal.unborn _ (Nat.le_refl _),
        MainPc.client]
    · have hne : (s.next == c) = false := beq_eq_false_iff_ne.mpr (Ne.symm hc)
      simp only [Server.isOpen, ha.handlers, Effect.handlers, hpc, MainPc.client]
      cases s.handlers c <;> simp [hc, hne]
  have hold : ∀ c, c ≠ s.next →
      Server.sockOf { s₁ with main := .lock s.next } c = s.sockOf c := by
    intro c hc
    simp [Server.sockOf, ha.heap, Effect.heap, hc]
  have hnew : Server.sockOf { s₁ with main := .lock s.next } s.next = sock := by
    simp [Server.sockOf, ha.heap, Effect.heap]
  have hfree : ∀ c, s.fds sock ≠ some c := by
    intro c hc
    rcases hsock with rfl | ⟨-, hnone⟩
    · exact absurd (h.open_of_fd _ _ hc).1 (by decide)
    · rw [hnone] at hc
      cases hc
  constructor
  · intro c hc hs
    by_cases hcn : c = s.next
    · subst hcn
      rw [hnew] at hs ⊢
      simp [ha.fds, Effect.fds, hs]
    · rw [hopen, beq_eq_false_iff_ne.mpr hcn, Bool.or_false] at hc
      rw [hold c hcn] at hs ⊢
      have hfd := h.fd_of_open c hc hs
      have hne : s.sockOf c ≠ sock := fun e => hfree c (e ▸ hfd)
      simp only [ha.fds, Effect.fds]
      split
      · rw [Function.update_of_ne hne]
        exact hfd
      · exact hfd
  · intro f c hf
    have hcases : (0 ≤ sock ∧ f = sock ∧ c = s.next) ∨ s.fds f = some c := by
      simp only [ha.fds, Effect.fds] at hf
      split at hf
      · rename_i h0
        by_cases hfs : f = sock
        · subst hfs
          rw [Function.update_self] at hf
          exact Or.inl ⟨h0, rfl, (Option.some.inj hf).symm⟩
        · rw [Function.update_of_ne hfs] at hf
          exact Or.inr hf
      · exact Or.inr hf
    rcases hcases with ⟨h0, rfl, rfl⟩ | hf
    · exact ⟨h0, hnew, by rw [hopen]; simp⟩
    · obtain ⟨h0, hs, ho⟩ := h.open_of_fd f c hf
      have hcn : c ≠ s.next := Nat.ne_of_lt (hal.lt_of_isOpen ho)
      exact ⟨h0, by rw [hold c hcn, hs], by rw [hopen, ho, Bool.true_or]⟩

/-- A connection is closed, by the handler whose last frame is `f`. -/
theorem Wired.close {s s₁ : Server} {c : Addr} {f : Handler} (h : Wired s)
    (hwas : s.isOpen c = true) (hpc : f.pc.isOpen = false) (hfds : s₁.fds = Effect.fds s (.close c))
    (hsock : ∀ d, s₁.sockOf d = s.sockOf d)
    (hothers : ∀ d, d ≠ c → Server.isOpen
      { s₁ with handlers := Function.update s₁.handlers c (some f) } d = s.isOpen d) :
    Wired { s₁ with handlers := Function.update s₁.handlers c (some f) } := by
  have hself : Server.isOpen
      { s₁ with handlers := Function.update s₁.handlers c (some f) } c = false := by
    simp [Server.isOpen, hpc]
  have hfd' : ∀ g, g ≠ s.sockOf c → s₁.fds g = s.fds g := by
    intro g hg
    simp only [hfds, Effect.fds]
    split
    · rw [Function.update_of_ne hg]
    · rfl
  constructor
  · intro d hd hs
    have hdc : d ≠ c := by
      rintro rfl
      rw [hself] at hd
      cases hd
    rw [hothers d hdc] at hd
    have hs' : 0 ≤ s.sockOf d := hsock d ▸ hs
    have hfd := h.fd_of_open d hd hs'
    have hne : s.sockOf d ≠ s.sockOf c := by
      intro e
      have := h.fd_of_open c hwas (e ▸ hs')
      rw [e, this] at hfd
      exact hdc (Option.some.inj hfd).symm
    show s₁.fds (s₁.sockOf d) = some d
    rw [hsock, hfd' _ hne]
    exact hfd
  · intro g d hg
    have hgc : s.fds g = some d ∧ d ≠ c := by
      by_cases hgs : g = s.sockOf c
      · subst hgs
        simp only [hfds, Effect.fds] at hg
        split at hg
        · simp at hg
        · rename_i hneg
          exact absurd (h.open_of_fd _ _ hg).1 hneg
      · have hg' : s.fds g = some d := (hfd' g hgs).symm.trans hg
        refine ⟨hg', ?_⟩
        rintro rfl
        exact hgs (h.open_of_fd _ _ hg').2.1.symm
    obtain ⟨h0, hs, ho⟩ := h.open_of_fd g d hgc.1
    exact ⟨h0, (hsock d).trans hs, by rw [hothers d hgc.2, ho]⟩

theorem Wired.step {s s' : Server} {a : Action} {ev : List Event} (h : Wired s)
    (hal : Alive s) (hs : StepOf s a s' ev) : Wired s' := by
  cases hs with
  | main hm he =>
    have ha := Server.applied he
    cases hm with
    | accept sock name hpc hsock hname => exact h.accept hal hpc hsock ha
    | lock c hpc | add c hpc | unlock c hpc =>
      refine h.keep ha.fds ?_ ?_
      · intro d
        simp only [Server.isOpen, ha.handlers, Effect.handlers, hpc]
        rfl
      · intro d
        simp only [Server.sockOf, ha.heap]
        rfl
    | create c msg hpc =>
      obtain ⟨-, hnone⟩ := hal.client c (by rw [hpc]; rfl)
      refine h.keep ha.fds ?_ ?_
      · intro d
        by_cases hd : d = c
        · subst hd
          simp [Server.isOpen, ha.handlers, Effect.handlers, hnone, hpc, Handler.start,
            HandlerPc.isOpen, MainPc.client]
        · have hne : (c == d) = false := beq_eq_false_iff_ne.mpr (Ne.symm hd)
          simp [Server.isOpen, ha.handlers, Effect.handlers, hpc, hd, MainPc.client, hne]
      · intro d
        simp only [Server.sockOf, ha.heap]
        rfl
  | handler hh hm he =>
    rename_i c x f f' e s₁
    have ha := Server.applied he
    have hhandlers : s₁.handlers = s.handlers :=
      ha.handlers.trans (Effect.handlers_of_handler hm.ofMain)
    have hsock : ∀ d, s₁.sockOf d = s.sockOf d := by
      intro d
      rw [Server.sockOf, ha.heap]
      exact Effect.sockOf_of_handler hm.ofMain d
    have hothers : ∀ d, d ≠ c → Server.isOpen
        { s₁ with handlers := Function.update s₁.handlers c (some f') } d = s.isOpen d := by
      intro d hd
      simp [Server.isOpen, hd, hhandlers, ha.main]
    rcases hm.isOpen with ⟨rfl, hpc, hpc'⟩ | ⟨hfds, hpc⟩
    · exact h.close (by simp [Server.isOpen, hh, hpc]) hpc' ha.fds hsock hothers
    · refine h.keep (ha.fds.trans hfds) ?_ hsock
      intro d
      by_cases hd : d = c
      · subst hd
        simp [Server.isOpen, hh, hpc]
      · exact hothers d hd

/-! ## 6. Frames, names and sockets -/

/-- Where the frame of a handler comes from: it is as it was, its thread has just been started,
or its thread has made the step. -/
theorem StepOf.frame {s s' : Server} {a : Action} {ev : List Event} (hs : StepOf s a s' ev)
    (hal : Alive s) {d : Addr} {f' : Handler} (hd : s'.handlers d = some f') :
    (s.handlers d = some f' ∧ ∀ x, a ≠ .handler d x) ∨
      (s.handlers d = none ∧ ∃ msg, f' = .start msg) ∨
      ∃ f x e, a = .handler d x ∧ s.handlers d = some f ∧ Move s d f x f' e ev := by
  cases hs with
  | main hm he =>
    have ha := Server.applied he
    simp only [ha.handlers] at hd
    cases hm with
    | create c msg hpc =>
      by_cases hc : d = c
      · subst hc
        simp only [Effect.handlers, Function.update_self, Option.some.injEq] at hd
        exact Or.inr (Or.inl ⟨(hal.client d (by rw [hpc]; rfl)).2, msg, hd.symm⟩)
      · simp only [Effect.handlers, Function.update_of_ne hc] at hd
        exact Or.inl ⟨hd, fun x => by simp⟩
    | accept _ _ _ _ _ | lock _ _ | add _ _ | unlock _ _ => exact Or.inl ⟨hd, fun x => by simp⟩
  | handler hh hm he =>
    rename_i c x f g e s₁
    have ha := Server.applied he
    by_cases hc : d = c
    · subst hc
      simp only [Function.update_self, Option.some.injEq] at hd
      exact Or.inr (Or.inr ⟨f, x, e, rfl, hh, hd ▸ hm⟩)
    · simp only [Function.update_of_ne hc, ha.handlers,
        Effect.handlers_of_handler hm.ofMain] at hd
      refine Or.inl ⟨hd, fun y hy => ?_⟩
      cases hy
      exact hc rfl

/-- A handler does not go away. -/
theorem StepOf.handlers_isSome {s s' : Server} {a : Action} {ev : List Event}
    (hs : StepOf s a s' ev) {d : Addr} (hd : (s.handlers d).isSome = true) :
    (s'.handlers d).isSome = true := by
  cases hs with
  | main hm he =>
    simp only [(Server.applied he).handlers]
    cases hm with
    | create c msg hpc =>
      by_cases hc : d = c
      · subst hc
        simp [Effect.handlers]
      · simpa [Effect.handlers, hc] using hd
    | accept _ _ _ _ _ | lock _ _ | add _ _ | unlock _ _ => exact hd
  | handler hh hm he =>
    rename_i c x f g e s₁
    by_cases hc : d = c
    · subst hc
      simp
    · simpa [hc, (Server.applied he).handlers, Effect.handlers_of_handler hm.ofMain] using hd

/-- The name of a record: it is as it was, the record has just been allocated, or the handler
has stored the name. -/
theorem StepOf.nameOf {s s' : Server} {a : Action} {ev : List Event} (hs : StepOf s a s' ev)
    (d : Addr) :
    s'.nameOf d = s.nameOf d ∨
      (∃ sock name, a = .main (.accept sock name) ∧ d = s.next ∧ s'.nameOf d = cstr name) ∨
      ∃ f, a = .handler d .go ∧ s.handlers d = some f ∧ f.pc = .setName ∧
        ev = [.login d] ∧ s'.nameOf d = cstr (strcpy (s.heap d).name f.fields.id) := by
  cases hs with
  | main hm he =>
    simp only [Server.nameOf, (Server.applied he).heap]
    cases hm with
    | accept sock name hpc hsock hname =>
      by_cases hd : d = s.next
      · subst hd
        exact Or.inr (Or.inl ⟨sock, name, rfl, rfl, by simp [Effect.heap]⟩)
      · exact Or.inl (by simp [Effect.heap, hd])
    | _ => exact Or.inl rfl
  | handler hh hm he =>
    rename_i c x f g e s₁
    simp only [Server.nameOf, (Server.applied he).heap]
    cases hm with
    | setName hpc =>
      by_cases hd : d = c
      · subst hd
        exact Or.inr (Or.inr ⟨f, rfl, hh, hpc, rfl, by simp [Effect.heap]⟩)
      · exact Or.inl (by simp [Effect.heap, hd])
    | joinRoom n hpc =>
      by_cases hd : d = c
      · subst hd
        exact Or.inl (by simp [Effect.heap])
      · exact Or.inl (by simp [Effect.heap, hd])
    | _ => exact Or.inl rfl

/-- The socket of a record that has been allocated does not change. -/
theorem StepOf.sockOf {s s' : Server} {a : Action} {ev : List Event} (hs : StepOf s a s' ev)
    {d : Addr} (hd : d < s.next) : s'.sockOf d = s.sockOf d := by
  cases hs with
  | main hm he =>
    simp only [Server.sockOf, (Server.applied he).heap]
    cases hm with
    | accept sock name hpc hsock hname =>
      have hne : d ≠ s.next := Nat.ne_of_lt hd
      simp [Effect.heap, hne]
    | _ => rfl
  | handler hh hm he =>
    simp only [Server.sockOf, (Server.applied he).heap]
    exact Effect.sockOf_of_handler hm.ofMain d

/-- Between the first read and the answer to it. -/
def HandlerPc.asking : HandlerPc → Bool
  | .dupLock | .dupCheck | .dupUnlock _ | .call | .auth _ | .reply _ => true
  | _ => false

/-- The arrays `mode`, `id` and `pw` are written by the first read and by nothing else. -/
theorem Move.fields {s : Server} {c : Addr} {h h' : Handler} {x : Input} {e : Effect}
    {ev : List Event} (hm : Move s c h x h' e ev) :
    (h'.fields = h.fields ∧ (h'.pc.asking = true → h.pc.asking = true)) ∨
      ∃ bs old, x = .request (some bs) old ∧ ev = [.request c bs] ∧ 0 ≤ s.sockOf c ∧
        old.Strings ∧ h'.fields = decode bs old ∧
        h'.pc = if (decode bs old).mode = LOGIN then .dupLock else .call := by
  cases hm with
  | read bs old hpc hread hold =>
    exact Or.inr ⟨bs, old, rfl, rfl, hread.1, hold, rfl, rfl⟩
  | dupCheck hpc | dupUnlock _ hpc | call _ _ hpc | auth _ _ _ hpc _ | authReturn _ _ _ hpc _
  | dupLock hpc | replyOk hpc =>
    refine Or.inl ⟨rfl, fun _ => ?_⟩
    rw [hpc]
    rfl
  | _ => exact Or.inl ⟨rfl, fun h => by cases h⟩

/-! ## 7. Departures in order -/

def HandlerPc.leaving : HandlerPc → Bool
  | .discRemove => true
  | _ => false

/-- The handler of `c` is about to take it out of the table. -/
def Server.leaving (s : Server) (c : Addr) : Bool := (s.handlers c).any fun h => h.pc.leaving

/-- The client `c` has the last slot in use, and no slot before it has its socket. -/
def Server.Last (s : Server) (c : Addr) : Prop :=
  s.reg.findSock s.sockOf (s.sockOf c) = some (s.reg.live.length - 1) ∧
    s.reg.live.getLast? = some c

instance (s : Server) (c : Addr) : Decidable (s.Last c) := inferInstanceAs (Decidable (_ ∧ _))

/-- The slots in use hold the clients that are in the table.  That is so as long as clients
leave from the last slot. -/
def Present (s : Server) : Prop := ∀ c, c ∈ s.reg.live ↔ s.inTable c = true

theorem present_init (users : Option Bytes) : Present (.init users) := by
  intro c
  simp [Server.init, Server.inTable, MainPc.inTable]

theorem Present.step {s s' : Server} {a : Action} {ev : List Event} (h : Present s)
    (hal : Alive s) (ht : Tabled s) (hs : StepOf s a s' ev)
    (hlast : ∀ c, a = .handler c .go → s.leaving c = true → s.Last c) : Present s' := by
  intro d
  rcases hs.table hal with ⟨hreg, hin⟩ | ⟨c, -, -, hreg, -, hin⟩ |
    ⟨c, f, ha, hf, hpc, hreg, hmem, hin⟩
  · rw [hreg, hin, h]
  · rw [hreg, Registry.live_add ht.cnt_nonneg, hin, List.mem_append, List.mem_singleton, h,
      Bool.or_eq_true, beq_iff_eq]
  · obtain ⟨hfind, hc⟩ := hlast c ha (by simp [Server.leaving, hf, hpc, HandlerPc.leaving])
    obtain ⟨l, hl⟩ := List.getLast?_eq_some_iff.mp hc
    have hnd := ht.nodup
    rw [hl] at hnd
    have hcl : c ∉ l := (List.nodup_cons.mp (List.nodup_append_comm.mp hnd)).1
    have hlive : d ∈ l ∨ d = c ↔ s.inTable d = true := by simpa [hl] using h d
    rw [hreg, Registry.live_remove_last hfind, hl, List.dropLast_concat, hin, Bool.and_eq_true,
      bne_iff_ne, ← hlive]
    constructor
    · intro hd
      exact ⟨Or.inl hd, fun hdc => hcl (hdc ▸ hd)⟩
    · rintro ⟨hd | rfl, hne⟩
      · exact hd
      · exact absurd rfl hne

theorem Server.isOpen_of_inTable {s : Server} {c : Addr} (h : s.inTable c = true) :
    s.isOpen c = true := by
  cases hh : s.handlers c with
  | some f =>
    simp only [Server.inTable, hh] at h
    simp only [Server.isOpen, hh]
    cases hpc : f.pc <;> first | rfl | (rw [hpc] at h; cases h)
  | none =>
    simp only [Server.inTable, hh] at h
    simp only [Server.isOpen, hh]
    cases hpc : s.main <;> rw [hpc] at h <;> first | cases h | skip
    all_goals simpa [MainPc.inTable, MainPc.client] using h

/-- The descriptor of an entry in use leads to its own connection. -/
theorem Wired.eq_of_inTable {s : Server} (h : Wired s) {c e : Addr} (he : s.inTable e = true)
    (hfd : s.fds (s.sockOf e) = some c) : c = e := by
  have h0 := (h.open_of_fd _ _ hfd).1
  rw [h.fd_of_open e (Server.isOpen_of_inTable he) h0] at hfd
  exact (Option.some.inj hfd).symm

/-! ## 8. All of it -/

/-- What every run of the server keeps. -/
structure Sound (s : Server) : Prop where
  alive : Alive s
  locked : Locked s
  tabled : Tabled s
  wired : Wired s

theorem sound_of_runs {users : Option Bytes} {ok : Server → Action → Prop}
    {log : List Event} {s : Server} (h : Runs serverStep ok (.init users) log s) : Sound s := by
  refine h.invariant (I := fun _ s => Sound s)
    ⟨alive_init users, locked_init users, tabled_init users, wired_init users⟩ ?_
  intro _ s a s' ev _ ih _ hs
  have hs' := serverStep_stepOf hs
  exact ⟨ih.alive.step hs', ih.locked.step ih.alive hs', ih.tabled.step ih.alive hs',
    ih.wired.step ih.alive hs'⟩

end PosixLab.Chat
