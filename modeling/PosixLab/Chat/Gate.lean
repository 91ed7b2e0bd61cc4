/-
# Who gets into the chat

The gate between the first request and the chat loop is `if (strlen(clnt->name) == 0) goto
DISCONNECT`, and the loop of `send_msg` asks the same of each receiver.  Only a login stores a
name, so that should keep everybody else out.  It does not: `main` never initialises the name
that it allocates, a request without any word leaves whatever mode, id and password the stack
holds, and a departure from another slot than the last leaves a freed record in the table, whose
descriptor may belong to somebody else by now.

`authentication_gate` shows that there is nothing else.  In every run without these three a
connection enters the chat loop, has a message broadcast or is written a broadcast only after a
`LOGIN` request of its own was answered with `OK`.
-/
import PosixLab.Chat.Invariants

namespace PosixLab.Chat

open PosixLab

/-! ## 1. What the gate is for -/

/-- The connection of `c` has sent a request whose first word is `LOGIN`. -/
def Asked (c : Addr) (log : List Event) : Prop :=
  ∃ bs, (words (cstr bs)).head? = some LOGIN ∧ Event.request c bs ∈ log

/-- The connection of `c` has sent such a request, and then was written `OK`. -/
def Authenticated (c : Addr) (log : List Event) : Prop :=
  ∃ bs, (words (cstr bs)).head? = some LOGIN ∧
    [Event.request c bs, Event.write c (utf8 "OK")].Sublist log

/-- The connection that enters the chat loop, has a message broadcast, or is written a
broadcast. -/
def Event.chats : Event → Option Addr
  | .enter c | .enterSend _ c _ _ | .deliver _ _ (some c) _ => some c
  | _ => none

/-- What an event needs before it: the connection that takes part in the chat with it has been
authenticated. -/
def NeedsLogin (x : Event) (log : List Event) : Prop :=
  ∀ c, x.chats = some c → Authenticated c log

theorem Asked.append {c : Addr} {log : List Event} (h : Asked c log) (ev : List Event) :
    Asked c (log ++ ev) := by
  obtain ⟨bs, hw, hmem⟩ := h
  exact ⟨bs, hw, List.mem_append_left _ hmem⟩

theorem Authenticated.append {c : Addr} {log : List Event} (h : Authenticated c log)
    (ev : List Event) : Authenticated c (log ++ ev) := by
  obtain ⟨bs, hw, hsub⟩ := h
  exact ⟨bs, hw, hsub.trans (List.sublist_append_left _ _)⟩

/-- A request that is answered. -/
theorem Asked.answered {c : Addr} {log : List Event} (h : Asked c log) :
    Authenticated c (log ++ [.write c (utf8 "OK")]) := by
  obtain ⟨bs, hw, hmem⟩ := h
  exact ⟨bs, hw, (List.singleton_sublist.mpr hmem).append (List.Sublist.refl _)⟩

/-! ## 2. When it holds -/

/-- The condition on a step: a new record has no name in it, the words of a request fit the
arrays and a request without words is not read over an old `LOGIN`, and clients leave the table
from its last slot. -/
def GateStep (s : Server) : Action → Prop
  | .main (.accept _ name) => cstr name = []
  | .handler _ (.request (some bs) old) =>
    (decode bs old).Fits ∧ (words (cstr bs) = [] → old.mode ≠ LOGIN)
  | .handler c .go => s.leaving c = true → s.Last c
  | _ => True

instance (s : Server) : (a : Action) → Decidable (GateStep s a)
  | .main (.accept _ name) => inferInstanceAs (Decidable (cstr name = []))
  | .main .go | .main (.stack _) => inferInstanceAs (Decidable True)
  | .handler _ (.request (some _) _) => inferInstanceAs (Decidable (_ ∧ (_ → ¬ _)))
  | .handler c .go => inferInstanceAs (Decidable (s.leaving c = true → s.Last c))
  | .handler _ (.request none _) | .handler _ (.arrays _ _) | .handler _ (.chat _) =>
    inferInstanceAs (Decidable True)

/-- The statements that only an authenticated connection gets to. -/
def HandlerPc.trusted : HandlerPc → Bool
  | .setName | .welcome | .chatRead | .joinRoom _ | .joinAck _ | .sendLock | .sendLoop _ => true
  | _ => false

/-- What the statements and the names vouch for. -/
structure Vouched (log : List Event) (s : Server) : Prop where
  guarded : Guarded NeedsLogin log
  named : ∀ c, s.nameOf c ≠ [] → Authenticated c log
  asked : ∀ c h, s.handlers c = some h → h.pc.asking = true → h.fields.mode = LOGIN →
    Asked c log
  trusted : ∀ c h, s.handlers c = some h → h.pc.trusted = true → Authenticated c log

theorem vouched_init (users : Option Bytes) : Vouched [] (.init users) := by
  refine ⟨guarded_nil, ?_, ?_, ?_⟩
  · intro c hc
    exact absurd rfl hc
  · intro c h hc
    cases hc
  · intro c h hc
    cases hc

/-- The statements lead to trusted ones by a login that succeeds, or through the gate. -/
theorem Move.trusted {s : Server} {c : Addr} {h h' : Handler} {x : Input} {e : Effect}
    {ev : List Event} (hm : Move s c h x h' e ev) (ht : h'.pc.trusted = true) :
    h.pc.trusted = true ∨ s.nameOf c ≠ [] ∨
      (h.pc.asking = true ∧ h.fields.mode = LOGIN ∧ ev = [.write c (utf8 "OK")]) := by
  cases hm with
  | replyOk hpc =>
    refine Or.inr (Or.inr ⟨by rw [hpc]; rfl, ?_, rfl⟩)
    by_contra hmode
    simp only [if_neg hmode, HandlerPc.trusted, Bool.false_eq_true] at ht
  | gateOpen hpc hname => exact Or.inr (Or.inl hname)
  | read bs old hpc hread hold =>
    simp only at ht
    split at ht <;> cases ht
  | dupUnlock b hpc =>
    simp only at ht
    split at ht <;> cases ht
  | setName hpc | welcome hpc | chatIgnore _ _ _ hpc | chatJoin _ _ _ _ hpc
  | chatText _ _ _ hpc _ | joinRoom _ hpc | joinAck _ hpc | sendLock hpc | sendNext _ _ hpc _ _
  | sendEnd _ hpc _ =>
    refine Or.inl ?_
    rw [hpc]
    rfl
  | _ => cases ht

/-- Who takes part in the chat with a step of the handler of `c`: its own connection, behind
the gate, or the connection behind the descriptor of an entry with a name. -/
theorem Move.chats {s : Server} {c : Addr} {h h' : Handler} {x : Input} {e : Effect}
    {ev : List Event} (hm : Move s c h x h' e ev) {y : Event} (hy : y ∈ ev) {d : Addr}
    (hd : y.chats = some d) :
    (d = c ∧ (h.pc.trusted = true ∨ s.nameOf c ≠ [])) ∨
      ∃ entry ∈ s.reg.live, s.fds (s.sockOf entry) = some d ∧ s.nameOf entry ≠ [] := by
  cases hm with
  | gateOpen hpc hname =>
    cases List.mem_singleton.mp hy
    cases hd
    exact Or.inl ⟨rfl, Or.inr hname⟩
  | sendLock hpc =>
    cases List.mem_singleton.mp hy
    cases hd
    exact Or.inl ⟨rfl, Or.inl (by rw [hpc]; rfl)⟩
  | sendNext i entry hpc hi hentry =>
    rcases List.mem_cons.mp hy with rfl | hy
    · cases hd
    · split at hy
      · rename_i hin
        cases List.mem_singleton.mp hy
        refine Or.inr ⟨entry, ?_, ?_, ?_⟩
        · rw [hentry]
          exact List.mem_of_getElem? (Registry.getElem?_live (by omega))
        · cases hfd : s.fds (s.sockOf entry) with
          | none => simp [Event.chats, hfd] at hd
          | some conn => simpa [Event.chats, hfd] using hd
        · intro hname
          simp [Server.inRoom, hname] at hin
      · cases hy
  | read _ _ _ _ _ | dupFail _ | replyOk _ | replyFail _ _ _ | setName _ | welcome _
  | joinAck _ _ | sendEnd _ _ _ | discRemove _ =>
    cases List.mem_singleton.mp hy
    cases hd
  | _ => cases hy

/-- Every step that meets the condition keeps what the statements and names vouch for. -/
theorem Vouched.step {log ev : List Event} {s s' : Server} {a : Action} (h : Vouched log s)
    (hsd : Sound s) (hp : Present s) (hok : GateStep s a) (hs : StepOf s a s' ev) :
    Vouched (log ++ ev) s' := by
  constructor
  · refine h.guarded.append (fun x l l' hx c hc => (hx c hc).append l') ?_
    intro y hy d hd
    cases hs with
    | main hm he => cases hy
    | handler hh hm he =>
      rename_i c x f f' e s₁
      rcases hm.chats hy hd with ⟨rfl, ht | hname⟩ | ⟨entry, hlive, hfd, hname⟩
      · exact h.trusted d f hh ht
      · exact h.named d hname
      · cases hsd.wired.eq_of_inTable ((hp entry).mp hlive) hfd
        exact h.named d hname
  · intro c hc
    rcases hs.nameOf c with heq | ⟨sock, name, rfl, -, heq⟩ | ⟨f, rfl, hf, hpc, -, -⟩
    · rw [heq] at hc
      exact (h.named c hc).append ev
    · rw [heq] at hc
      exact absurd hok hc
    · exact (h.trusted c f hf (by rw [hpc]; rfl)).append ev
  · intro c g hg hask hmode
    rcases hs.frame hsd.alive hg with ⟨hf, -⟩ | ⟨-, msg, rfl⟩ | ⟨f, x, e, rfl, hf, hm⟩
    · exact (h.asked c g hf hask hmode).append ev
    · cases hask
    · rcases hm.fields with ⟨hfields, hwas⟩ | ⟨bs, old, rfl, rfl, -, -, hfields, -⟩
      · rw [hfields] at hmode
        exact (h.asked c f hf (hwas hask) hmode).append ev
      · refine ⟨bs, ?_, List.mem_append_right _ (List.mem_singleton_self _)⟩
        rw [hfields, decode_eq] at hmode
        simp only [converted] at hmode
        cases hw : words (cstr bs) with
        | nil =>
          rw [hw] at hmode
          exact absurd hmode (hok.2 hw)
        | cons w ws =>
          rw [hw] at hmode
          exact congrArg some hmode
  · intro c g hg ht
    rcases hs.frame hsd.alive hg with ⟨hf, -⟩ | ⟨-, msg, rfl⟩ | ⟨f, x, e, rfl, hf, hm⟩
    · exact (h.trusted c g hf ht).append ev
    · cases ht
    · rcases hm.trusted ht with ht' | hname | ⟨hask, hmode, rfl⟩
      · exact (h.trusted c f hf ht').append ev
      · exact (h.named c hname).append ev
      · exact (h.asked c f hf hask hmode).answered

/-! ## 3. The result -/

/-- Along a run whose clients leave from the last slot the table holds who belongs there. -/
theorem present_of_runs {users : Option Bytes} {ok : Server → Action → Prop}
    {log : List Event} {s : Server}
    (hok : ∀ s c, ok s (.handler c .go) → s.leaving c = true → s.Last c)
    (h : Runs serverStep ok (.init users) log s) : Present s := by
  refine h.invariant (I := fun _ s => Present s) (present_init users) ?_
  intro log s a s' ev hrun ih ha hs
  have hsd := sound_of_runs hrun
  refine ih.step hsd.alive hsd.tabled (serverStep_stepOf hs) ?_
  rintro c rfl
  exact hok s c ha

/-- In every run of the server whose steps meet the condition, each event with which a
connection enters the chat loop, has a message broadcast or is written a broadcast comes after
a `LOGIN` request of that connection and its answer `OK`. -/
theorem authentication_gate {users : Option Bytes} {log : List Event} {s : Server}
    (h : Runs serverStep GateStep (.init users) log s) : Guarded NeedsLogin log := by
  have hv : Vouched log s := by
    refine h.invariant (I := Vouched) (vouched_init users) ?_
    intro log s a s' ev hrun ih ha hs
    exact ih.step (sound_of_runs hrun) (present_of_runs (fun _ _ hl => hl) hrun) ha
      (serverStep_stepOf hs)
  exact hv.guarded

/-- One user logs in, another registers and is shown out, and the first writes a line. -/
def oneLine : List Action :=
  connects 4 (List.replicate 20 0) ++ logsIn 0 "LOGIN kim 1" 7 ++ goesOn 0 4 ++
    connects 5 (List.replicate 20 0) ++
    .handler 1 (.request (some (utf8 "REGISTER lee 2")) ⟨[], [], []⟩) ::
      .handler 1 (.arrays [] []) :: goesOn 1 15 ++ hears 0 "hi" 3

theorem authentication_gate_two : ∃ log s,
    Runs serverStep GateStep (.init (some (utf8 "kim 1\n"))) log s ∧
    Event.deliver 1 0 (some 0) (utf8 "[kim] hi") ∈ log ∧ Guarded NeedsLogin log := by
  obtain ⟨log, s, hrun, hp⟩ : ∃ log s,
      Runs serverStep GateStep (.init (some (utf8 "kim 1\n"))) log s ∧
      (log.contains (.deliver 1 0 (some 0) (utf8 "[kim] hi"))) = true :=
    exists_runs_of_exec oneLine _ (by decide +kernel)
  exact ⟨log, s, hrun, by simpa using hp, authentication_gate hrun⟩

/-- The record of a client holds an `x` when it is allocated, and the client registers. -/
def entersByRegistering : List Action :=
  connects 4 (120 :: List.replicate 19 0) ++
    .handler 0 (.request (some (utf8 "REGISTER kim 1")) ⟨[], [], []⟩) ::
      .handler 0 (.arrays [] []) :: goesOn 0 10

/-- A name that was never initialised opens the gate: a client that has only registered enters
the chat loop. -/
theorem registration_enters_chat : ∃ log s,
    Runs serverStep anyStep (.init (some [])) log s ∧ Event.enter 0 ∈ log ∧
    ¬ Guarded NeedsLogin log := by
  obtain ⟨log, s, hrun, hp⟩ : ∃ log s,
      Runs serverStep anyStep (.init (some [])) log s ∧
      (log == [.request 0 (utf8 "REGISTER kim 1"), .write 0 (utf8 "OK"), .enter 0]) = true :=
    exists_runs_of_exec entersByRegistering _ (by decide +kernel)
  obtain rfl := beq_iff_eq.mp hp
  refine ⟨_, s, hrun, by simp, fun hg => ?_⟩
  obtain ⟨bs, hw, hsub⟩ := hg [.request 0 (utf8 "REGISTER kim 1"), .write 0 (utf8 "OK")]
    (.enter 0) [] rfl 0 rfl
  have hmem : Event.request 0 bs ∈
      [Event.request 0 (utf8 "REGISTER kim 1"), .write 0 (utf8 "OK")] :=
    hsub.subset List.mem_cons_self
  obtain rfl : bs = utf8 "REGISTER kim 1" := by simpa using hmem
  revert hw
  decide

end PosixLab.Chat
