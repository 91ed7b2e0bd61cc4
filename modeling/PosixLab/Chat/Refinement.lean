/-
# The server is made of its parts

The table, `process_auth` and the chat loop have models of their own, in `Chat.Registry`,
`Chat.ConcurrentAuth` and `Chat.Segments`, with as much of the server around them as their
results need.  This module finds each of them in the runs of the whole server, so that what is
proved of the parts holds there.

* `table_refines`: the table of a run is that of a list of accepts and disconnects.
* `auth_refines`: the calls of `process_auth` in a run, with the mutex and the file as they see
  them, are a run of the system of concurrent calls.
* `chat_refines`: a handler that is alone does with its reads what the chat loop does.
-/
import PosixLab.Chat.Broadcast
import PosixLab.Chat.ConcurrentAuth
import PosixLab.Chat.Segments

namespace PosixLab.Chat

open PosixLab

/-! ## 1. The table -/

/-- The function gives the records that are allocated their sockets. -/
def Agrees (f : Addr → Int) (s : Server) : Prop := ∀ c, c < s.next → f c = s.sockOf c

/-- The operations lead to the table of the server, whatever sockets the records will have that
are not allocated yet. -/
def Drives (ops : List RegOp) (s : Server) : Prop :=
  ∀ f, Agrees f s → Each (regStep f) Possible .init ops ∧
    (ops.foldl (regStep f) .init).reg = s.reg ∧
    (ops.foldl (regStep f) .init).connected.Nodup ∧
    ∀ c, c ∈ (ops.foldl (regStep f) .init).connected ↔ s.inTable c = true

theorem drives_init (users : Option Bytes) : Drives [] (.init users) := by
  intro f hf
  refine ⟨trivial, rfl, List.nodup_nil, fun c => ?_⟩
  simp [RegState.init, Server.init, Server.inTable, MainPc.inTable]

theorem Agrees.of_step {f : Addr → Int} {s s' : Server} {a : Action} {ev : List Event}
    (hf : Agrees f s') (hs : StepOf s a s' ev) : Agrees f s := by
  intro c hc
  rw [hf c (Nat.lt_of_lt_of_le hc hs.next_le), hs.sockOf hc]

/-- Each step of the server is at most one operation on the table. -/
theorem Drives.step {ops : List RegOp} {s s' : Server} {a : Action} {ev : List Event}
    (h : Drives ops s) (hsd : Sound s) (hs : StepOf s a s' ev) : ∃ ops', Drives ops' s' := by
  rcases hs.table hsd.alive with ⟨hreg, hin⟩ | ⟨c, -, -, hreg, hout, hin⟩ |
    ⟨c, g, -, hg, -, hreg, hmem, hin⟩
  · refine ⟨ops, fun f hf => ?_⟩
    obtain ⟨heach, hreg', hnd, hconn⟩ := h f (hf.of_step hs)
    exact ⟨heach, hreg'.trans hreg.symm, hnd, fun d => by rw [hconn, hin]⟩
  · refine ⟨ops ++ [.accept c], fun f hf => ?_⟩
    obtain ⟨heach, hreg', hnd, hconn⟩ := h f (hf.of_step hs)
    have hnew : c ∉ (ops.foldl (regStep f) .init).connected := by
      rw [hconn, hout]
      exact Bool.false_ne_true
    rw [List.foldl_concat]
    refine ⟨each_concat heach hnew, ?_, ?_, fun d => ?_⟩
    · rw [regStep, hreg', hreg]
    · exact List.Nodup.append hnd (List.nodup_singleton _) (List.disjoint_singleton.mpr hnew)
    · rw [hin, Bool.or_eq_true, beq_iff_eq, ← hconn]
      simp [regStep]
  · refine ⟨ops ++ [.disconnect c], fun f hf => ?_⟩
    obtain ⟨heach, hreg', hnd, hconn⟩ := h f (hf.of_step hs)
    have hconn' : c ∈ (ops.foldl (regStep f) .init).connected := (hconn c).mpr hmem
    have hold := hf.of_step hs
    rw [List.foldl_concat]
    refine ⟨each_concat heach hconn', ?_, hnd.erase c, fun d => ?_⟩
    · rw [regStep, hreg', hreg, hold c (hsd.alive.lt hg)]
      exact Registry.remove_congr (fun e he => hold e (hsd.tabled.known e he)) _
    · rw [regStep, hnd.mem_erase_iff, hconn, hin, Bool.and_eq_true, bne_iff_ne, and_comm]

/-- In every run of the server the table is that of a list of possible accepts and disconnects,
with the clients connected that are in the table of the server. -/
theorem table_refines {users : Option Bytes} {ok : Server → Action → Prop} {log : List Event}
    {s : Server} (h : Runs serverStep ok (.init users) log s) :
    ∃ ops, Each (regStep s.sockOf) Possible .init ops ∧
      (ops.foldl (regStep s.sockOf) .init).reg = s.reg ∧
      ∀ c, c ∈ (ops.foldl (regStep s.sockOf) .init).connected ↔ s.inTable c = true := by
  have hd : ∃ ops, Drives ops s := by
    refine h.invariant (I := fun _ s => ∃ ops, Drives ops s) ⟨[], drives_init users⟩ ?_
    rintro log s a s' ev hrun ⟨ops, ih⟩ - hs
    exact ih.step (sound_of_runs hrun) (serverStep_stepOf hs)
  obtain ⟨ops, hd⟩ := hd
  obtain ⟨heach, hreg, -, hconn⟩ := hd s.sockOf fun _ _ => rfl
  exact ⟨ops, heach, hreg, hconn⟩

/-- Two clients come, and the second one sends nothing and goes. -/
def secondLeaves : List Action :=
  connects 4 (List.replicate 20 0) ++ connects 5 (List.replicate 20 0) ++
    .handler 1 (.request none ⟨[], [], []⟩) :: goesOn 1 4

theorem table_refines_secondLeaves : ∃ log s,
    Runs serverStep anyStep (.init none) log s ∧ s.reg.live = [0] ∧
    ∃ ops, Each (regStep s.sockOf) Possible .init ops ∧
      (ops.foldl (regStep s.sockOf) .init).reg = s.reg := by
  obtain ⟨log, s, hrun, hp⟩ : ∃ log s, Runs serverStep anyStep (.init none) log s ∧
      (s.reg.live == [0]) = true :=
    exists_runs_of_exec secondLeaves _ (by decide +kernel)
  obtain ⟨ops, heach, hreg, -⟩ := table_refines hrun
  exact ⟨log, s, hrun, by simpa using hp, ops, heach, hreg⟩

/-! ## 2. The calls of `process_auth` -/

/-- The frame of the call a handler is in. -/
def HandlerPc.frame : HandlerPc → Option AuthFrame
  | .auth f => some f
  | _ => none

/-- The calls of the server are those of the system, with the same file; and the mutex of the
system is held by a call that is in its critical section. -/
structure Embeds (s : Server) (t : AuthSys Addr) : Prop where
  users : t.users = s.users
  frames : ∀ c, t.frames c = (s.handlers c).bind fun h => h.pc.frame
  mutx : ∀ c, t.mutx = some c → ∃ f, t.frames c = some f ∧ f.pc.holds = true

/-- What a step of the handler of `c` is to the outside of its call: the start, the return with a
result, or nothing. -/
def callEvents (c : Addr) (pc pc' : HandlerPc) : List (CallEvent Addr UserOp Int) :=
  match pc.frame, pc' with
  | none, .auth f => [.inv c f.op]
  | some f, .reply r => [.ret c f.op r]
  | _, _ => []

/-- The same for a step of the server. -/
def Server.callEvents (s s' : Server) : Action → List (CallEvent Addr UserOp Int)
  | .main _ => []
  | .handler c _ =>
    match s.handlers c, s'.handlers c with
    | some h, some h' => Chat.callEvents c h.pc h'.pc
    | _, _ => []

theorem callEvents_of_none {c : Addr} {pc pc' : HandlerPc} (h : pc.frame = none)
    (h' : pc'.frame = none) : callEvents c pc pc' = [] := by
  unfold callEvents
  rw [h]
  cases pc' <;> first | rfl | cases h'

theorem callEvents_of_start {c : Addr} {pc pc' : HandlerPc} {f : AuthFrame} (h : pc.frame = none)
    (h' : pc'.frame = some f) : callEvents c pc pc' = [.inv c f.op] := by
  unfold callEvents
  rw [h]
  cases pc' <;> cases h'
  rfl

/-- What comes back of two lists that were tagged and put together. -/
theorem filterMap_getLeft_tagged {α β : Type*} (xs : List α) (ys : List β) :
    (xs.map Sum.inl ++ ys.map Sum.inr).filterMap Sum.getLeft? = xs := by
  rw [List.filterMap_append, List.filterMap_map, List.filterMap_map]
  simp [Function.comp_def]

theorem filterMap_getRight_tagged {α β : Type*} (xs : List α) (ys : List β) :
    (xs.map Sum.inl ++ ys.map Sum.inr).filterMap Sum.getRight? = ys := by
  rw [List.filterMap_append, List.filterMap_map, List.filterMap_map]
  simp [Function.comp_def]

/-- What a step of a handler is to the calls: nothing, the start of one, or a statement. -/
theorem Move.frame {s : Server} {c : Addr} {h h' : Handler} {x : Input} {e : Effect}
    {ev : List Event} (hm : Move s c h x h' e ev) :
    (h.pc.frame = none ∧ h'.pc.frame = none ∧ e.users s = s.users) ∨
      (h.pc.frame = none ∧ e = .sync .skip ∧ ∃ fileId filePw, h'.pc.frame =
        some (.call h.fields.mode h.fields.id h.fields.pw fileId filePw)) ∨
      ∃ f, h.pc = .auth f ∧ e = .sync (authStep s.users f).2 ∧
        h'.pc = (authStep s.users f).1.elim .auth .reply := by
  cases hm with
  | call fileId filePw hpc =>
    refine Or.inr (Or.inl ⟨?_, rfl, fileId, filePw, rfl⟩)
    rw [hpc]
    rfl
  | auth f f' y hpc hstep =>
    refine Or.inr (Or.inr ⟨f, hpc, ?_, ?_⟩)
    · rw [hstep]
    · rw [hstep]
      rfl
  | authReturn f r y hpc hstep =>
    refine Or.inr (Or.inr ⟨f, hpc, ?_, ?_⟩)
    · rw [hstep]
    · rw [hstep]
      rfl
  | read bs old hpc hread hold =>
    refine Or.inl ⟨by rw [hpc]; rfl, ?_, rfl⟩
    simp only
    split <;> rfl
  | dupUnlock b hpc =>
    refine Or.inl ⟨by rw [hpc]; rfl, ?_, rfl⟩
    simp only
    split <;> rfl
  | replyOk hpc =>
    refine Or.inl ⟨by rw [hpc]; rfl, ?_, rfl⟩
    simp only
    split <;> rfl
  | readFails _ hpc | dupLock hpc | dupCheck hpc | dupFail hpc | replyFail _ hpc _ | setName hpc
  | welcome hpc | gateShut hpc _ | gateOpen hpc _ | chatEnd _ hpc | chatIgnore _ _ _ hpc
  | chatJoin _ _ _ _ hpc | chatText _ _ _ hpc _ | joinRoom _ hpc | joinAck _ hpc | sendLock hpc
  | sendNext _ _ hpc _ _ | sendEnd _ hpc _ | discLock hpc | discRemove hpc | discUnlock hpc
  | close hpc =>
    exact Or.inl ⟨by rw [hpc]; rfl, rfl, rfl⟩

/-- While the mutex of the server is free, so is that of the system. -/
theorem Embeds.free {s : Server} {t : AuthSys Addr} (h : Embeds s t) (hl : Locked s)
    (hfree : s.mutx = none) : t.mutx = none := by
  cases hm : t.mutx with
  | none => rfl
  | some c =>
    obtain ⟨f, hf, hholds⟩ := h.mutx c hm
    rw [h.frames] at hf
    obtain ⟨g, hg, hfg⟩ := Option.bind_eq_some_iff.mp hf
    have hpc : g.pc = .auth f := by
      cases hg : g.pc <;> rw [hg] at hfg <;> cases hfg
      rfl
    have hs : s.holds (.handler c) = true := by
      simp [Server.holds, hg, hpc, HandlerPc.holds, hholds]
    rw [(hl.holds _).mpr hs] at hfree
    cases hfree

/-- A statement of a call has the same effect on the system. -/
theorem Embeds.sync {s s₁ : Server} {t : AuthSys Addr} {c : Addr} {y : Sync} (h : Embeds s t)
    (hl : Locked s) (he : s.apply (.handler c) (.sync y) = some s₁) :
    ∃ t₁, t.sync c y = some t₁ ∧ t₁.users = s₁.users ∧ t₁.frames = t.frames ∧
      ∀ d, t₁.mutx = some d → (d = c ∧ y = .lock) ∨ (t.mutx = some d ∧ ∀ b, y.holds b = b) := by
  cases y with
  | lock =>
    obtain ⟨hfree, rfl⟩ := Server.of_lock he
    refine ⟨{ t with mutx := some c }, ?_, h.users, rfl, fun d hd => Or.inl ⟨?_, rfl⟩⟩
    · simp [AuthSys.sync, h.free hl hfree]
    · exact (Option.some.inj hd).symm
  | skip =>
    cases he
    exact ⟨t, rfl, h.users, rfl, fun d hd => Or.inr ⟨hd, fun _ => rfl⟩⟩
  | unlock =>
    cases he
    exact ⟨{ t with mutx := none }, rfl, h.users, rfl, fun d hd => by cases hd⟩
  | users content =>
    cases he
    exact ⟨{ t with users := some content }, rfl, rfl, rfl,
      fun d hd => Or.inr ⟨hd, fun _ => rfl⟩⟩

/-- A statement of a call in the server is that statement in the system. -/
theorem Embeds.statement {s s₁ : Server} {t : AuthSys Addr} {c : Addr} {h h' : Handler}
    {f : AuthFrame} (hem : Embeds s t) (hl : Locked s) (hh : s.handlers c = some h)
    (hf : h.pc = .auth f) (he : s.apply (.handler c) (.sync (authStep s.users f).2) = some s₁)
    (hf' : h'.pc = (authStep s.users f).1.elim .auth .reply) (hflushed : f.Flushed) :
    ∃ t', Runs authSysStep anyStep t (callEvents c h.pc h'.pc) t' ∧
      Embeds { s₁ with handlers := Function.update s₁.handlers c (some h') } t' := by
  have htc : t.frames c = some f := by
    rw [hem.frames, hh, Option.bind_some, hf]
    rfl
  have hhandlers : s₁.handlers = s.handlers := (Server.applied he).handlers
  obtain ⟨t₁, hsync, husers, hframes, hmutx⟩ := hem.sync hl he
  obtain ⟨-, hholds⟩ := authStep_sync s.users hflushed
  rw [← hem.users] at hsync hmutx hf' hholds
  have hothers : ∀ d, d ≠ c → t.frames d =
      ((Function.update s₁.handlers c (some h')) d).bind fun h => h.pc.frame := by
    intro d hd
    rw [hem.frames, Function.update_of_ne hd, hhandlers]
  have hrun : authSysStep t (.step c) = some
      ({ t₁ with frames := Function.update t₁.frames c h'.pc.frame }, callEvents c h.pc h'.pc) := by
    rw [hf, hf']
    cases hstep : (authStep t.users f).1 with
    | inl f' => simp only [authSysStep, htc, hsync, hstep]; rfl
    | inr r => simp only [authSysStep, htc, hsync, hstep]; rfl
  -- the call that holds the mutex afterwards is still going on
  have hself : t₁.mutx = some c →
      ∃ f', h'.pc.frame = some f' ∧ f'.pc.holds = true := by
    intro hc
    have hy : (authStep t.users f).2.holds f.pc.holds = true := by
      rcases hmutx c hc with ⟨-, hy⟩ | ⟨htd, hy⟩
      · rw [hy]
        rfl
      · obtain ⟨g, hg, hgh⟩ := hem.mutx c htd
        cases htc.symm.trans hg
        rw [hy, hgh]
    cases hstep : (authStep t.users f).1 with
    | inl f' =>
      rw [hstep] at hholds
      exact ⟨f', by rw [hf', hstep]; rfl, hholds.1.symm.trans hy⟩
    | inr r =>
      rw [hstep] at hholds
      cases hholds.symm.trans hy
  refine ⟨_, Runs.one trivial hrun, husers, fun d => ?_, fun d hd => ?_⟩
  · by_cases hdc : d = c
    · subst hdc
      simp
    · simp only [Function.update_of_ne hdc, hframes]
      simpa [hdc] using hothers d hdc
  · by_cases hdc : d = c
    · subst hdc
      simpa using hself hd
    · rcases hmutx d hd with ⟨rfl, -⟩ | ⟨htd, -⟩
      · exact absurd rfl hdc
      · simpa [hdc, hframes] using hem.mutx d htd

/-- A step of the server that starts a call or returns from one is the same in the system, and
every other step is at most one without an event. -/
theorem Embeds.step {s s' : Server} {t : AuthSys Addr} {a : Action} {ev : List Event}
    (h : Embeds s t) (hsd : Sound s) (hs : StepOf s a s' ev) :
    ∃ t', Runs authSysStep anyStep t (s.callEvents s' a) t' ∧ Embeds s' t' := by
  cases hs with
  | main hm he =>
    have ha := Server.applied he
    refine ⟨t, .nil, ?_, fun c => ?_, h.mutx⟩
    · rw [h.users]
      exact (ha.users.trans (by cases hm <;> rfl)).symm
    · simp only [h.frames, ha.handlers]
      rcases hm.handlers hsd.alive c with hc | ⟨hnone, msg, hc⟩
      · rw [hc]
      · rw [hc, hnone]
        rfl
  | handler hh hm he =>
    rename_i c x f f' e s₁
    have ha := Server.applied he
    have hhandlers : s₁.handlers = s.handlers :=
      ha.handlers.trans (Effect.handlers_of_handler hm.ofMain)
    have hothers : ∀ d, d ≠ c → t.frames d =
        ((Function.update s₁.handlers c (some f')) d).bind fun h => h.pc.frame := by
      intro d hd
      rw [h.frames, Function.update_of_ne hd, hhandlers]
    have htc : t.frames c = f.pc.frame := by
      rw [h.frames, hh]
      rfl
    have hevents : s.callEvents { s₁ with handlers := Function.update s₁.handlers c (some f') }
        (.handler c x) = callEvents c f.pc f'.pc := by
      simp only [Server.callEvents, hh, Function.update_self]
    rw [hevents]
    rcases hm.frame with ⟨hnone, hnone', husers⟩ | ⟨hnone, rfl, fileId, filePw, hf'⟩ |
      ⟨g, hg, rfl, hg'⟩
    · rw [callEvents_of_none hnone hnone']
      refine ⟨t, .nil, h.users.trans (ha.users.trans husers).symm, fun d => ?_, h.mutx⟩
      by_cases hd : d = c
      · subst hd
        simp [htc, hnone, hnone']
      · exact hothers d hd
    · have hrun : authSysStep t (.call c f.fields.mode f.fields.id f.fields.pw fileId filePw) =
          some ({ t with frames := Function.update t.frames c f'.pc.frame },
            callEvents c f.pc f'.pc) := by
        rw [callEvents_of_start hnone hf']
        simp only [authSysStep, htc, hnone, hf']
        rfl
      refine ⟨_, Runs.one trivial hrun, h.users.trans ha.users.symm, fun d => ?_,
        fun d hd => ?_⟩
      · by_cases hdc : d = c
        · subst hdc
          simp
        · simpa [hdc] using hothers d hdc
      · obtain ⟨g, hg, hholds⟩ := h.mutx d hd
        have hdc : d ≠ c := by
          rintro rfl
          rw [htc, hnone] at hg
          cases hg
        exact ⟨g, by simpa [hdc] using hg, hholds⟩
    · exact h.statement hsd.locked hh hg he hg' (hsd.locked.flushed c f hh g hg)

/-- The server, whose steps log the calls of `process_auth` and their results as well. -/
def callStep (s : Server) (a : Action) :
    Option (Server × List (Event ⊕ CallEvent Addr UserOp Int)) :=
  (serverStep s a).map fun r => (r.1, r.2.map .inl ++ (s.callEvents r.1 a).map .inr)

theorem callStep_of_serverStep {s s' : Server} {a : Action} {ev : List Event}
    (hs : serverStep s a = some (s', ev)) :
    callStep s a = some (s', ev.map .inl ++ (s.callEvents s' a).map .inr) := by
  rw [callStep, hs]
  rfl

theorem serverStep_of_callStep {s s' : Server} {a : Action}
    {full : List (Event ⊕ CallEvent Addr UserOp Int)} (h : callStep s a = some (s', full)) :
    ∃ ev, serverStep s a = some (s', ev) ∧
      full = ev.map .inl ++ (s.callEvents s' a).map .inr := by
  obtain ⟨⟨s₁, ev⟩, hs, he⟩ := Option.map_eq_some_iff.mp h
  obtain ⟨rfl, rfl⟩ := Prod.mk.inj he
  exact ⟨ev, hs, rfl⟩

/-- A run that logs the calls is a run, with more in its log. -/
theorem runs_callStep_iff {users : Option Bytes} {ok : Server → Action → Prop} {log : List Event}
    {s : Server} :
    Runs serverStep ok (.init users) log s ↔
      ∃ full, Runs callStep ok (.init users) full s ∧ full.filterMap Sum.getLeft? = log := by
  constructor
  · intro h
    refine h.invariant (I := fun log s => ∃ full, Runs callStep ok (.init users) full s ∧
      full.filterMap Sum.getLeft? = log) ⟨[], .nil, rfl⟩ ?_
    rintro log s a s' ev - ⟨full, hfull, hleft⟩ ha hs
    refine ⟨_, hfull.snoc ha (callStep_of_serverStep hs), ?_⟩
    rw [List.filterMap_append, hleft, filterMap_getLeft_tagged]
  · rintro ⟨full, hfull, rfl⟩
    refine hfull.invariant (I := fun full s =>
      Runs serverStep ok (.init users) (full.filterMap Sum.getLeft?) s) .nil ?_
    rintro full s a s' ev - ih ha hs
    obtain ⟨ev', hs', rfl⟩ := serverStep_of_callStep hs
    rw [List.filterMap_append, filterMap_getLeft_tagged]
    exact ih.snoc ha hs'

/-- The runs that log the calls are the runs of the server, and in every one of them the calls of
`process_auth` and what they return, in their order, are those of a run of the system of concurrent
calls from the same file, which ends with the same calls in progress. -/
theorem auth_refines {users : Option Bytes} {ok : Server → Action → Prop} {s : Server} :
    (∀ log, Runs serverStep ok (.init users) log s ↔
      ∃ full, Runs callStep ok (.init users) full s ∧ full.filterMap Sum.getLeft? = log) ∧
    ∀ full, Runs callStep ok (.init users) full s →
      ∃ t, Runs authSysStep anyStep ⟨none, users, fun _ => none⟩
        (full.filterMap Sum.getRight?) t ∧ Embeds s t := by
  refine ⟨fun _ => runs_callStep_iff, fun full h => ?_⟩
  refine h.invariant (I := fun full s =>
    ∃ t, Runs authSysStep anyStep ⟨none, users, fun _ => none⟩
      (full.filterMap Sum.getRight?) t ∧ Embeds s t) ?_ ?_
  · exact ⟨_, .nil, rfl, fun _ => rfl, fun _ hc => by cases hc⟩
  · rintro full s a s' ev hrun ⟨t, hright, hem⟩ - hs
    obtain ⟨ev', hs', rfl⟩ := serverStep_of_callStep hs
    have hserver := runs_callStep_iff.mpr ⟨full, hrun, rfl⟩
    obtain ⟨t', hstep, hem'⟩ := hem.step (sound_of_runs hserver) (serverStep_stepOf hs')
    refine ⟨t', ?_, hem'⟩
    rw [List.filterMap_append, filterMap_getRight_tagged]
    exact hright.trans hstep

/-- A client registers a user, and its call is in its critical section. -/
def kimRegisters : List Action :=
  connects 4 (List.replicate 20 0) ++
    .handler 0 (.request (some (utf8 "REGISTER kim 1")) ⟨[], [], []⟩) ::
      .handler 0 (.arrays [] []) :: goesOn 0 2

theorem auth_refines_kimRegisters : ∃ log s,
    Runs serverStep anyStep (.init none) log s ∧ s.mutx = some (.handler 0) ∧
    ∃ full t, Runs callStep anyStep (.init none) full s ∧ full.filterMap Sum.getLeft? = log ∧
      Runs authSysStep anyStep ⟨none, none, fun _ => none⟩ (full.filterMap Sum.getRight?) t ∧
      Embeds s t := by
  obtain ⟨log, s, hrun, hp⟩ : ∃ log s, Runs serverStep anyStep (.init none) log s ∧
      decide (s.mutx = some (.handler 0)) = true :=
    exists_runs_of_exec kimRegisters _ (by decide +kernel)
  obtain ⟨hruns, hcalls⟩ := @auth_refines none anyStep s
  obtain ⟨full, hfull, hleft⟩ := (hruns log).mp hrun
  obtain ⟨t, hright, hem⟩ := hcalls full hfull
  exact ⟨log, s, hrun, of_decide_eq_true hp, full, t, hfull, hleft, hright, hem⟩

/-! ## 3. The chat loop -/

/-- The handler of `c` is at the read of the chat loop, in the state `x`, and nobody has the
mutex. -/
structure Chatting (s : Server) (c : Addr) (x : ChatState) : Prop where
  handler : ∃ h, s.handlers c = some h ∧ h.pc = .chatRead ∧ h.msg = x.msg
  room : (s.heap c).room = x.room
  isOpen : 0 ≤ s.sockOf c
  free : s.mutx = none

/-- What is told to the client, or to its room, for an operation of the loop. -/
def ChatOp.told (name : Bytes) : ChatOp → Bytes
  | .setRoom n => joinText n
  | .broadcast _ text => payload name (store [] (text ++ [0])) text.length

/-- The state of the loop behind a list of reads, unless one of them ends it. -/
def chatAfter (x : ChatState) : List ReadResult → Option ChatState
  | [] => some x
  | r :: rs => (chatStep x r).bind fun p => chatAfter p.1 rs

/-- The read of the chat loop that an action is. -/
def Action.chatRead : Action → Option ReadResult
  | .handler _ (.chat r) => some r
  | _ => none

/-- The reads of the chat loop in a record. -/
def chatReads (full : List (Action × List Event)) : List ReadResult :=
  full.filterMap fun y => y.1.chatRead

/-- A step of the handler of `c`. -/
def OfHandler (c : Addr) (_ : Server) (a : Action) : Prop := ∃ x, a = .handler c x

/-- A read of the chat loop and what the handler does without any further input. -/
theorem recorded_read {s s' : Server} {c : Addr} {f g : Handler} {r : ReadResult}
    {log : List Event} (hf : s.handlers c = some f)
    (hstep : handlerStep s c f (.chat r) = some (g, .sync .skip, []))
    (hrest : Runs serverStep (GoesOn c) { s with handlers := Function.update s.handlers c (some g) }
      log s') :
    ∃ full, Runs (recording serverStep) (OfHandler c) s full s' ∧ chatReads full = [r] ∧
      full.flatMap Prod.snd = log := by
  obtain ⟨full, hrun, hlog⟩ := hrest.recorded
  have hgo : chatReads full = [] := by
    refine List.filterMap_eq_nil_iff.mpr fun y hy => ?_
    have ha : y.1 = .handler c .go := Runs.actions (p := fun a => a = .handler c .go) hrun y hy
    rw [ha]
    rfl
  have hfirst : Runs (recording serverStep) (OfHandler c) s [(.handler c (.chat r), [])]
      { s with handlers := Function.update s.handlers c (some g) } :=
    Runs.one ⟨_, rfl⟩ (recording_eq (serverStep_of_handler hf hstep rfl))
  refine ⟨_, hfirst.trans (hrun.mono fun _ _ ha => ⟨_, ha⟩), ?_, by simpa using hlog⟩
  rw [chatReads, List.filterMap_append]
  exact congrArg (r :: ·) hgo

/-- A call of `send_msg`, while nobody has the mutex, tells the room its text and leaves nothing
behind but its number. -/
theorem send_msg_alone {s : Server} {c : Addr} {g : Handler} (hg : s.handlers c = some g)
    (hpc : g.pc = .sendLock) (hfree : s.mutx = none) :
    ∃ log, Runs serverStep (GoesOn c) s log { s with
        mutx := none
        sends := s.sends + 1
        handlers := Function.update s.handlers c (some { g with pc := .chatRead }) } ∧
      log.filterMap (Event.told c) = [s.payloadOf c g] := by
  have hgo : handlerStep s c g .go = some ({ g with pc := .sendLoop 0 }, .enterSend,
      [.enterSend (s.sends + 1) c s.reg.live (s.payloadOf c g)]) := by
    simp only [handlerStep, hpc]
  have hlock : s.apply (.handler c) .enterSend =
      some { s with mutx := some (.handler c), sends := s.sends + 1 } := by
    simp only [Server.apply, hfree, if_true]
  have hsending : Server.Sending { s with
      mutx := some (.handler c)
      sends := s.sends + 1
      handlers := Function.update s.handlers c (some { g with pc := .sendLoop 0 }) } c 0
      { g with pc := .sendLoop 0 } := ⟨Function.update_self .., rfl⟩
  obtain ⟨log, s', hrun, -, htold, rfl⟩ :=
    send_msg_ends s.reg.clntCnt.toNat hsending (by push_cast; omega)
  rw [Function.update_idem] at hrun
  refine ⟨_, (runs_handler hg hgo hlock).trans hrun, ?_⟩
  rw [List.filterMap_append, htold]
  simp [Event.told]

/-- One read of a handler that is alone: it ends up where the loop does, with its name, and has
told what the loop does. -/
theorem Chatting.read {s : Server} {c : Addr} {x x' : ChatState} {bs : Bytes} {os : List ChatOp}
    (h : Chatting s c x) (hbs : IsRead bs) (hlen : bs.length ≤ bufSize)
    (hx : chatStep x (.data bs) = some (x', os)) :
    ∃ full s', Runs (recording serverStep) (OfHandler c) s full s' ∧
      chatReads full = [.data bs] ∧ Chatting s' c x' ∧ s'.nameOf c = s.nameOf c ∧
      (full.flatMap Prod.snd).filterMap (Event.told c) = os.map (ChatOp.told (s.nameOf c)) := by
  obtain ⟨f, hf, hpc, hmsg⟩ := h.handler
  have hread : s.CanRead c bufSize (.data bs) := ⟨h.isOpen, hbs.2, hlen⟩
  have hrec : receive f.msg (.data bs) = some (store x.msg (bs ++ [0]), (bs.length : Int)) := by
    rw [hmsg]
    rfl
  simp only [chatStep, receive] at hx
  cases hd : dispatch (store x.msg (bs ++ [0])) with
  | ignore =>
    simp only [hd] at hx
    cases hx
    have hstep : handlerStep s c f (.chat (.data bs)) =
        some (⟨.chatRead, f.fields, store x.msg (bs ++ [0]), bs.length⟩, .sync .skip, []) := by
      simp only [handlerStep, hpc, if_pos hread, hrec, hd]
    obtain ⟨full, hrun, hreads, hlog⟩ := recorded_read hf hstep .nil
    refine ⟨full, _, hrun, hreads, ⟨⟨_, Function.update_self .., rfl, rfl⟩, h.room,
      h.isOpen, h.free⟩, rfl, ?_⟩
    rw [hlog]
    rfl
  | join n =>
    simp only [hd] at hx
    cases hx
    obtain ⟨g, hg⟩ : ∃ g : Handler,
        g = ⟨.joinRoom n, f.fields, store x.msg (bs ++ [0]), bs.length⟩ := ⟨_, rfl⟩
    have hstep : handlerStep s c f (.chat (.data bs)) = some (g, .sync .skip, []) := by
      simp only [handlerStep, hpc, if_pos hread, hrec, hd, hg]
    have hroom : handlerStep { s with handlers := Function.update s.handlers c (some g) } c g .go =
        some ({ g with pc := .joinAck n }, .setRoom c n, []) := by
      rw [hg]
      rfl
    have h₁ := runs_handler (Function.update_self ..) hroom rfl
    have h₂ := h₁.trans (runs_handler (Function.update_self ..) rfl rfl)
    obtain ⟨full, hrun, hreads, hlog⟩ := recorded_read hf hstep h₂
    refine ⟨full, _, hrun, hreads, ⟨⟨_, Function.update_self .., rfl, by rw [hg]⟩, ?_, ?_, h.free⟩,
      ?_, ?_⟩
    · simp
    · simpa [Server.sockOf] using h.isOpen
    · simp [Server.nameOf]
    · rw [hlog]
      simp [Event.told, ChatOp.told]
  | broadcast =>
    simp only [hd] at hx
    cases hx
    obtain ⟨g, hg⟩ : ∃ g : Handler,
        g = ⟨.sendLock, f.fields, store x.msg (bs ++ [0]), bs.length⟩ := ⟨_, rfl⟩
    have hstep : handlerStep s c f (.chat (.data bs)) = some (g, .sync .skip, []) := by
      simp only [handlerStep, hpc, if_pos hread, hrec, hd, hg]
    obtain ⟨log, hsend, htold⟩ := send_msg_alone
      (s := { s with handlers := Function.update s.handlers c (some g) })
      (Function.update_self ..) (by rw [hg]) h.free
    obtain ⟨full, hrun, hreads, hlog⟩ := recorded_read hf hstep hsend
    refine ⟨full, _, hrun, hreads, ⟨⟨_, Function.update_self .., rfl, by rw [hg]⟩, h.room, h.isOpen,
      rfl⟩, rfl, ?_⟩
    have hpay : payload (s.nameOf c) (store x.msg (bs ++ [0])) bs.length =
        payload (s.nameOf c) (store [] (bs ++ [0])) bs.length := by
      rw [payload_receive _ _ hbs.1, payload_receive _ _ hbs.1]
    have hof : Server.payloadOf { s with handlers := Function.update s.handlers c (some g) } c g =
        payload (s.nameOf c) (store x.msg (bs ++ [0])) bs.length := by
      rw [hg]
      rfl
    rw [hlog, htold, hof, hpay]
    simp [ChatOp.told, cstr_receive x.msg hbs.1]

/-- A handler at the read of the chat loop, with the mutex free, can be run alone on any reads that
the client may cause.  It makes these reads and no others, is at the read again, in the state in
which the loop is behind them, and has told the operations of the loop. -/
theorem chat_refines {c : Addr} {reads : List Bytes}
    (hreads : ∀ r ∈ reads, IsRead r ∧ r.length ≤ bufSize) {s : Server} {x : ChatState}
    (h : Chatting s c x) :
    ∃ full s' x', Runs (recording serverStep) (OfHandler c) s full s' ∧
      chatReads full = reads.map .data ∧
      chatAfter x (reads.map .data) = some x' ∧ Chatting s' c x' ∧
      (full.flatMap Prod.snd).filterMap (Event.told c) =
        (ops x reads).map (ChatOp.told (s.nameOf c)) := by
  induction reads generalizing s x with
  | nil => exact ⟨[], s, x, .nil, rfl, rfl, h, rfl⟩
  | cons r reads ih =>
    obtain ⟨hr, hlen⟩ := hreads r List.mem_cons_self
    have hstep : ∃ x' os, chatStep x (.data r) = some (x', os) := by
      simp only [chatStep, receive]
      split <;> exact ⟨_, _, rfl⟩
    obtain ⟨x₁, os, hstep⟩ := hstep
    obtain ⟨full, s₁, hrun, hone, hchat, hname, htold⟩ := h.read hr hlen hstep
    obtain ⟨full', s', x', hrun', hreads', hafter, hchat', htold'⟩ :=
      ih (fun y hy => hreads y (List.mem_cons_of_mem _ hy)) hchat
    refine ⟨full ++ full', s', x', hrun.trans hrun', ?_, ?_, hchat', ?_⟩
    · rw [chatReads, List.filterMap_append, ← chatReads, ← chatReads, hone, hreads']
      rfl
    · simpa only [List.map_cons, chatAfter, hstep, Option.bind_some] using hafter
    · rw [List.flatMap_append, List.filterMap_append, htold, htold', hname, ← List.map_append]
      simp only [ops, List.map_cons, chatOps, hstep]

/-- The server with one client, in room 2, whose handler is at the read of the chat loop. -/
def inRoomTwo : Server :=
  { Server.init none with
    heap := fun _ => ⟨4, utf8 "kim", 2⟩
    handlers := fun c => if c = 0 then some ⟨.chatRead, ⟨[], [], []⟩, [], 0⟩ else none }

/-- A text, a change of the room and a text are told in turn. -/
theorem chat_refines_joins : ∃ full s' x',
    Runs (recording serverStep) (OfHandler 0) inRoomTwo full s' ∧
    chatReads full = [utf8 "hi", utf8 "/join 5", utf8 "ho"].map .data ∧
    chatAfter ⟨[], 2⟩ ([utf8 "hi", utf8 "/join 5", utf8 "ho"].map .data) = some x' ∧
    Chatting s' 0 x' ∧ (full.flatMap Prod.snd).filterMap (Event.told 0) =
      (ops ⟨[], 2⟩ [utf8 "hi", utf8 "/join 5", utf8 "ho"]).map (ChatOp.told (utf8 "kim")) :=
  chat_refines (c := 0) (fun r hr => by
    simp only [List.mem_cons, List.not_mem_nil, or_false] at hr
    rcases hr with rfl | rfl | rfl <;>
      exact ⟨⟨.of_notMem (by decide), by decide⟩, by decide⟩) ⟨⟨_, rfl, rfl, rfl⟩, rfl, by decide, rfl⟩

end PosixLab.Chat
