/-
# Broadcasts reach the room, and all in one order

`send_msg` walks through the table under the mutex and writes to each entry that has a name and
is in the sender's room.  Rooms and names are written without the mutex, so they may change
between two iterations; the table may not, and no second broadcast comes in between.

The log of a run tells all of it: the calls of `send_msg` are numbered in the order in which
they take the mutex, and each call leaves the entries it looked at, what it saw there, and what
it wrote.  `Orderly` is the invariant, `send_msg_ordered` the result: each call looks at every
slot in use once, in order, and writes to those and only those whose name and room qualify when
it looks; and every entry receives the broadcasts in the order of their calls, so that no two
entries disagree.
-/
import Mathlib.Data.List.Sort
import PosixLab.Basis.Progress
import PosixLab.Chat.Invariants

namespace PosixLab.Chat

open PosixLab

/-! ## 1. What the log says about a call -/

/-- A call of `send_msg`: the sender, the slots in use when it started, and what it writes. -/
structure Call where
  sender : Addr
  entries : List Addr
  bs : Bytes

/-- What an iteration sees. -/
structure Exam where
  entry : Addr
  name : Bytes
  room : Int
  senderRoom : Int

/-- Whether the entry has a name and is in the sender's room. -/
def Exam.matches (x : Exam) : Bool := x.name != [] && x.room == x.senderRoom

def Event.started (k : Nat) : Event → Option Call
  | .enterSend k' c entries bs => if k' = k then some ⟨c, entries, bs⟩ else none
  | _ => none

def Event.examined (k : Nat) : Event → Option Exam
  | .examine k' e name room senderRoom => if k' = k then some ⟨e, name, room, senderRoom⟩ else none
  | _ => none

def Event.delivered (k : Nat) : Event → Option (Addr × Bytes)
  | .deliver k' e _ bs => if k' = k then some (e, bs) else none
  | _ => none

def Event.ended (k : Nat) : Event → Option (List Addr)
  | .leaveSend k' entries => if k' = k then some entries else none
  | _ => none

def Event.received (e : Addr) : Event → Option Nat
  | .deliver k e' _ _ => if e' = e then some k else none
  | _ => none

/-- The starts of call `k`. -/
def started (k : Nat) (log : List Event) : List Call := log.filterMap (Event.started k)

/-- What call `k` looked at, in order. -/
def examined (k : Nat) (log : List Event) : List Exam := log.filterMap (Event.examined k)

/-- The entries call `k` wrote to, and what. -/
def delivered (k : Nat) (log : List Event) : List (Addr × Bytes) :=
  log.filterMap (Event.delivered k)

/-- The slots in use at the end of call `k`. -/
def ended (k : Nat) (log : List Event) : List (List Addr) := log.filterMap (Event.ended k)

/-- The numbers of the calls that wrote to the entry `e`, in the order of the writes. -/
def received (e : Addr) (log : List Event) : List Nat := log.filterMap (Event.received e)

/-- The number of the call an event belongs to. -/
def Event.call : Event → Option Nat
  | .enterSend k _ _ _ | .examine k _ _ _ _ | .deliver k _ _ _ | .leaveSend k _ => some k
  | _ => none

/-- A call looks at the slots in use one after the other, each holding another record, and
writes the same bytes to those entries, once each, that have a name and the sender's room at
that moment.  When it ends it has looked at all of them, and the table is as it was. -/
structure CallOk (k : Nat) (log : List Event) (call : Call) : Prop where
  nodup : call.entries.Nodup
  inOrder : (examined k log).map Exam.entry <+: call.entries
  scope : delivered k log =
    ((examined k log).filter Exam.matches).map fun x => (x.entry, call.bs)
  complete : ∀ entries ∈ ended k log,
    entries = call.entries ∧ (examined k log).map Exam.entry = call.entries

/-- A number belongs to no call, or to one that is `CallOk`. -/
def Scoped (k : Nat) (log : List Event) : Prop :=
  (started k log = [] ∧ examined k log = [] ∧ delivered k log = [] ∧ ended k log = []) ∨
    ∃ call, started k log = [call] ∧ CallOk k log call

section

variable {k : Nat} {x : Event}

/-! ### Events of other calls say nothing about call `k` -/

theorem Event.started_eq_none (h : x.call ≠ some k) : x.started k = none := by
  cases x with
  | enterSend k' c entries bs => exact if_neg fun hk => h (congrArg some hk)
  | _ => rfl

theorem Event.examined_eq_none (h : x.call ≠ some k) : x.examined k = none := by
  cases x with
  | examine k' e name room senderRoom => exact if_neg fun hk => h (congrArg some hk)
  | _ => rfl

theorem Event.delivered_eq_none (h : x.call ≠ some k) : x.delivered k = none := by
  cases x with
  | deliver k' e conn bs => exact if_neg fun hk => h (congrArg some hk)
  | _ => rfl

theorem Event.ended_eq_none (h : x.call ≠ some k) : x.ended k = none := by
  cases x with
  | leaveSend k' entries => exact if_neg fun hk => h (congrArg some hk)
  | _ => rfl

theorem Event.received_eq_none (h : x.call = none) (e : Addr) : x.received e = none := by
  cases x with
  | deliver k' e' conn bs => cases h
  | _ => rfl

theorem filterMap_other {β : Type*} {f : Event → Option β} {log ev : List Event}
    (hf : ∀ {x}, x.call ≠ some k → f x = none) (hev : ∀ x ∈ ev, x.call ≠ some k) :
    (log ++ ev).filterMap f = log.filterMap f := by
  rw [List.filterMap_append, List.filterMap_eq_nil_iff.mpr (fun x hx => hf (hev x hx)),
    List.append_nil]

end

section

variable {k : Nat} {log ev : List Event}

theorem started_append : started k (log ++ ev) = started k log ++ started k ev :=
  List.filterMap_append

theorem examined_append : examined k (log ++ ev) = examined k log ++ examined k ev :=
  List.filterMap_append

theorem delivered_append : delivered k (log ++ ev) = delivered k log ++ delivered k ev :=
  List.filterMap_append

theorem ended_append : ended k (log ++ ev) = ended k log ++ ended k ev := List.filterMap_append

theorem received_append {e : Addr} : received e (log ++ ev) = received e log ++ received e ev :=
  List.filterMap_append

theorem started_other (hev : ∀ x ∈ ev, x.call ≠ some k) :
    started k (log ++ ev) = started k log :=
  filterMap_other Event.started_eq_none hev

theorem examined_other (hev : ∀ x ∈ ev, x.call ≠ some k) :
    examined k (log ++ ev) = examined k log :=
  filterMap_other Event.examined_eq_none hev

theorem delivered_other (hev : ∀ x ∈ ev, x.call ≠ some k) :
    delivered k (log ++ ev) = delivered k log :=
  filterMap_other Event.delivered_eq_none hev

theorem ended_other (hev : ∀ x ∈ ev, x.call ≠ some k) : ended k (log ++ ev) = ended k log :=
  filterMap_other Event.ended_eq_none hev

theorem Scoped.other (h : Scoped k log) (hev : ∀ x ∈ ev, x.call ≠ some k) :
    Scoped k (log ++ ev) := by
  rcases h with ⟨hs, hx, hd, he⟩ | ⟨call, hs, hc⟩
  · refine Or.inl ⟨?_, ?_, ?_, ?_⟩
    · rw [started_other hev, hs]
    · rw [examined_other hev, hx]
    · rw [delivered_other hev, hd]
    · rw [ended_other hev, he]
  · refine Or.inr ⟨call, by rw [started_other hev, hs], hc.nodup, ?_, ?_, ?_⟩
    · rw [examined_other hev]
      exact hc.inOrder
    · rw [delivered_other hev, examined_other hev]
      exact hc.scope
    · rw [ended_other hev, examined_other hev]
      exact hc.complete

/-- A write to an entry is a write of some call. -/
theorem mem_received {e : Addr} :
    k ∈ received e log ↔ ∃ bs, (e, bs) ∈ delivered k log := by
  simp only [received, delivered, List.mem_filterMap]
  constructor
  · rintro ⟨x, hx, h⟩
    cases x with
    | deliver k' e' conn bs =>
      simp only [Event.received] at h
      split at h
      · rename_i he
        cases h
        exact ⟨bs, _, hx, by simp [Event.delivered, he]⟩
      · cases h
    | _ => simp [Event.received] at h
  · rintro ⟨bs, x, hx, h⟩
    cases x with
    | deliver k' e' conn bs' =>
      simp only [Event.delivered] at h
      split at h
      · rename_i hk
        cases h
        exact ⟨_, hx, by simp [Event.received, hk]⟩
      · cases h
    | _ => simp [Event.delivered] at h

/-- A call writes only to entries it has looked at. -/
theorem CallOk.examined_of_received {call : Call} (h : CallOk k log call) {e : Addr}
    (hk : k ∈ received e log) : e ∈ (examined k log).map Exam.entry := by
  obtain ⟨bs, hbs⟩ := mem_received.mp hk
  rw [h.scope] at hbs
  obtain ⟨x, hx, hxe⟩ := List.mem_map.mp hbs
  cases hxe
  exact List.mem_map_of_mem (List.mem_filter.mp hx).1

end

/-! ### The events of one iteration -/

/-- Call `k` looks at an entry, and writes to it when it qualifies. -/
def looked (k : Nat) (x : Exam) (conn : Option Addr) (bs : Bytes) : List Event :=
  .examine k x.entry x.name x.room x.senderRoom ::
    if x.matches = true then [.deliver k x.entry conn bs] else []

section

variable {k : Nat} {x : Exam} {conn : Option Addr} {bs : Bytes}

theorem call_of_mem_looked {y : Event} (hy : y ∈ looked k x conn bs) : y.call = some k := by
  rcases List.mem_cons.mp hy with rfl | hy
  · rfl
  · split at hy
    · rw [List.mem_singleton.mp hy]
      rfl
    · cases hy

theorem started_looked : started k (looked k x conn bs) = [] := by
  unfold looked
  split <;> rfl

theorem examined_looked : examined k (looked k x conn bs) = [x] := by
  unfold looked
  split <;> simp [examined, Event.examined]

theorem delivered_looked : delivered k (looked k x conn bs) =
    ([x].filter Exam.matches).map fun x => (x.entry, bs) := by
  unfold looked
  split <;> simp [delivered, Event.delivered, List.filterMap_cons, *]

theorem ended_looked : ended k (looked k x conn bs) = [] := by
  unfold looked
  split <;> rfl

theorem received_looked (k : Nat) (x : Exam) (conn : Option Addr) (bs : Bytes) (e : Addr) :
    received e (looked k x conn bs) = [] ∨
      e = x.entry ∧ received e (looked k x conn bs) = [k] := by
  unfold looked
  split
  · by_cases he : e = x.entry
    · exact Or.inr ⟨he, by simp [received, Event.received, List.filterMap_cons, he]⟩
    · exact Or.inl (by simp [received, Event.received, List.filterMap_cons, Ne.symm he])
  · exact Or.inl rfl

end

/-! ## 2. The invariant -/

/-- The handler of `c` is in the loop of `send_msg`, at the slot `i`. -/
def Server.Sending (s : Server) (c : Addr) (i : Nat) (h : Handler) : Prop :=
  s.handlers c = some h ∧ h.pc = .sendLoop i

/-- The calls so far are in order: their numbers are those up to `sends`, the call that is in
progress is the last of them and has looked at the slots before its index, and every entry has
received its broadcasts in the order of their numbers. -/
structure Orderly (log : List Event) (s : Server) : Prop where
  calls : ∀ k, Scoped k log
  future : ∀ k, s.sends < k → started k log = []
  current : ∀ {c i h}, s.Sending c i h →
    started s.sends log = [⟨c, s.reg.live, s.payloadOf c h⟩] ∧
      (examined s.sends log).map Exam.entry = s.reg.live.take i ∧ ended s.sends log = []
  order : ∀ e, (received e log).Pairwise (· < ·)

theorem orderly_init (users : Option Bytes) : Orderly [] (.init users) := by
  refine ⟨fun k => Or.inl ⟨rfl, rfl, rfl, rfl⟩, fun _ _ => rfl, ?_, fun _ => .nil⟩
  rintro c i h ⟨hh, -⟩
  cases hh

/-- While a handler has the mutex no other thread changes the table or starts a call. -/
theorem Locked.shared {s s₁ : Server} {t : Tid} {e : Effect} {d : Addr} (h : Locked s)
    (he : s.apply t e = some s₁) (ha : e.Allowed (s.holds t))
    (hd : s.holds (.handler d) = true) (hne : t ≠ .handler d) :
    e.reg s = s.reg ∧ e.sends s = s.sends := by
  have hmutx : s.mutx = some (.handler d) := (h.holds _).mpr hd
  have hnot : ¬ s.holds t = true := by
    intro ht
    have := (h.holds t).mpr ht
    rw [hmutx] at this
    exact hne (Option.some.inj this).symm
  cases e with
  | add c => exact absurd ha hnot
  | remove c => exact absurd ha hnot
  | enterSend => simp [Server.apply, hmutx] at he
  | _ => exact ⟨rfl, rfl⟩

/-- A handler writes only its own record. -/
theorem Move.heap {s : Server} {c : Addr} {h h' : Handler} {x : Input} {e : Effect}
    {ev : List Event} (hm : Move s c h x h' e ev) {d : Addr} (hd : d ≠ c) :
    e.heap s d = s.heap d := by
  cases hm with
  | setName hpc => simp [Effect.heap, hd]
  | joinRoom n hpc => simp [Effect.heap, hd]
  | _ => rfl

/-- A step without events of a call: it starts no call, and leaves the call in progress, the
table and its sender's name alone. -/
theorem Orderly.quiet {log ev : List Event} {s s' : Server} (h : Orderly log s)
    (hev : ∀ x ∈ ev, x.call = none) (hsends : s'.sends = s.sends)
    (hcur : ∀ {c i f}, s'.Sending c i f → s.Sending c i f ∧ s'.reg = s.reg ∧
      s'.payloadOf c f = s.payloadOf c f) :
    Orderly (log ++ ev) s' := by
  have hother : ∀ k, ∀ x ∈ ev, x.call ≠ some k := fun k x hx => by simp [hev x hx]
  refine ⟨fun k => (h.calls k).other (hother k), ?_, ?_, ?_⟩
  · intro k hk
    rw [started_other (hother k)]
    exact h.future k (hsends ▸ hk)
  · intro c i f hs
    obtain ⟨hs', hreg, hpay⟩ := hcur hs
    rw [hsends, started_other (hother _), examined_other (hother _), ended_other (hother _), hreg,
      hpay]
    exact h.current hs'
  · intro e
    have hnil : ev.filterMap (Event.received e) = [] := by
      rw [List.filterMap_eq_nil_iff]
      exact fun x hx => Event.received_eq_none (hev x hx) e
    rw [received, List.filterMap_append, hnil, List.append_nil]
    exact h.order e

section

variable {log : List Event} {s s' : Server} {c : Addr} {h h' : Handler}

/-- No call with a later number has left anything. -/
theorem Orderly.le_of_received (ho : Orderly log s) {e : Addr} {k : Nat}
    (hk : k ∈ received e log) : k ≤ s.sends := by
  by_contra hlt
  obtain ⟨bs, hbs⟩ := mem_received.mp hk
  rcases ho.calls k with ⟨-, -, hd, -⟩ | ⟨call, hs, -⟩
  · rw [hd] at hbs
    cases hbs
  · rw [ho.future k (by omega)] at hs
    cases hs

/-- The call in progress is the one `current` says it is. -/
theorem Orderly.callOk_current (ho : Orderly log s) {i : Nat} (hs : s.Sending c i h) :
    CallOk s.sends log ⟨c, s.reg.live, s.payloadOf c h⟩ := by
  obtain ⟨hst, -, -⟩ := ho.current hs
  rcases ho.calls s.sends with ⟨hnil, -⟩ | ⟨call, hst', hc⟩
  · rw [hst] at hnil
    cases hnil
  · rw [hst] at hst'
    cases hst'
    exact hc

/-- An entry that the call in progress has still to look at has received nothing from it. -/
theorem Orderly.not_received (ho : Orderly log s) {i : Nat} (hs : s.Sending c i h) {e : Addr}
    (he : s.reg.live[i]? = some e) : s.sends ∉ received e log := by
  intro hk
  obtain ⟨-, hx, -⟩ := ho.current hs
  have hok := ho.callOk_current hs
  have hmem := hok.examined_of_received hk
  rw [hx] at hmem
  obtain ⟨j, hj, hget⟩ := List.mem_iff_getElem.mp hmem
  rw [List.length_take] at hj
  rw [List.getElem_take] at hget
  obtain ⟨hlt, hi⟩ := List.getElem?_eq_some_iff.mp he
  have := (List.Nodup.getElem_inj_iff hok.nodup).mp (hget.trans hi.symm)
  omega

/-- `send_msg` takes the mutex. -/
theorem Orderly.begin (ho : Orderly log s) (hnd : s.reg.live.Nodup)
    (hsends : s'.sends = s.sends + 1) (hreg : s'.reg = s.reg) {bs : Bytes}
    (hcur : ∀ {d i f}, s'.Sending d i f → d = c ∧ i = 0 ∧ s'.payloadOf d f = bs) :
    Orderly (log ++ [.enterSend (s.sends + 1) c s.reg.live bs]) s' := by
  have hother : ∀ {k}, k ≠ s.sends + 1 → ∀ x ∈ [Event.enterSend (s.sends + 1) c s.reg.live bs],
      x.call ≠ some k := by
    intro k hk x hx
    rw [List.mem_singleton.mp hx]
    simp [Event.call, Ne.symm hk]
  have hnone := ho.future (s.sends + 1) (Nat.lt_succ_self _)
  obtain ⟨hx, hd, he⟩ : examined (s.sends + 1) log = [] ∧ delivered (s.sends + 1) log = [] ∧
      ended (s.sends + 1) log = [] := by
    rcases ho.calls (s.sends + 1) with ⟨-, hx, hd, he⟩ | ⟨call, hst, -⟩
    · exact ⟨hx, hd, he⟩
    · rw [hnone] at hst
      cases hst
  have hst' : started (s.sends + 1) (log ++ [.enterSend (s.sends + 1) c s.reg.live bs]) =
      [⟨c, s.reg.live, bs⟩] := by
    rw [started_append, hnone]
    simp [started, Event.started]
  have hx' : examined (s.sends + 1) (log ++ [.enterSend (s.sends + 1) c s.reg.live bs]) = [] := by
    rw [examined_append, hx]
    rfl
  have hd' : delivered (s.sends + 1) (log ++ [.enterSend (s.sends + 1) c s.reg.live bs]) = [] := by
    rw [delivered_append, hd]
    rfl
  have he' : ended (s.sends + 1) (log ++ [.enterSend (s.sends + 1) c s.reg.live bs]) = [] := by
    rw [ended_append, he]
    rfl
  refine ⟨fun k => ?_, fun k hk => ?_, ?_, fun e => ?_⟩
  · by_cases hk : k = s.sends + 1
    · subst hk
      refine Or.inr ⟨_, hst', hnd, ?_, ?_, ?_⟩
      · rw [hx']
        exact List.nil_prefix
      · rw [hx', hd']
        rfl
      · rw [he']
        intro entries hmem
        cases hmem
    · exact (ho.calls k).other (hother hk)
  · rw [started_other (hother (by omega))]
    exact ho.future k (by omega)
  · intro d i f hs
    obtain ⟨rfl, rfl, hpay⟩ := hcur hs
    rw [hsends, hreg, hpay, hst', hx', he']
    exact ⟨rfl, rfl, rfl⟩
  · have hsame : received e (log ++ [.enterSend (s.sends + 1) c s.reg.live bs]) =
        received e log := by
      rw [received_append]
      exact List.append_nil _
    rw [hsame]
    exact ho.order e

/-- `send_msg` has looked at all entries. -/
theorem Orderly.end (ho : Orderly log s) {i : Nat} (hs : s.Sending c i h)
    (hi : s.reg.clntCnt ≤ i) (hsends : s'.sends = s.sends)
    (hcur : ∀ {d j f}, ¬ s'.Sending d j f) :
    Orderly (log ++ [.leaveSend s.sends s.reg.live]) s' := by
  have hother : ∀ {k}, k ≠ s.sends → ∀ x ∈ [Event.leaveSend s.sends s.reg.live],
      x.call ≠ some k := by
    intro k hk x hx
    rw [List.mem_singleton.mp hx]
    simp [Event.call, Ne.symm hk]
  obtain ⟨hst, hx, he⟩ := ho.current hs
  have hok := ho.callOk_current hs
  have hall : s.reg.live.take i = s.reg.live := by
    refine List.take_of_length_le ?_
    rw [Registry.length_live]
    omega
  have hst' : started s.sends (log ++ [.leaveSend s.sends s.reg.live]) = started s.sends log := by
    rw [started_append]
    exact List.append_nil _
  have hx' : examined s.sends (log ++ [.leaveSend s.sends s.reg.live]) =
      examined s.sends log := by
    rw [examined_append]
    exact List.append_nil _
  have hd' : delivered s.sends (log ++ [.leaveSend s.sends s.reg.live]) =
      delivered s.sends log := by
    rw [delivered_append]
    exact List.append_nil _
  have he' : ended s.sends (log ++ [.leaveSend s.sends s.reg.live]) = [s.reg.live] := by
    rw [ended_append, he]
    simp [ended, Event.ended]
  refine ⟨fun k => ?_, fun k hk => ?_, fun hs' => absurd hs' hcur, fun e => ?_⟩
  · by_cases hk : k = s.sends
    · subst hk
      refine Or.inr ⟨_, hst'.trans hst, hok.nodup, ?_, ?_, ?_⟩
      · rw [hx']
        exact hok.inOrder
      · rw [hx', hd']
        exact hok.scope
      · rw [hx', he', hx, hall]
        intro entries hmem
        exact ⟨List.mem_singleton.mp hmem, rfl⟩
    · exact (ho.calls k).other (hother hk)
  · rw [started_other (hother (by omega))]
    exact ho.future k (hsends ▸ hk)
  · have hsame : received e (log ++ [.leaveSend s.sends s.reg.live]) = received e log := by
      rw [received_append]
      exact List.append_nil _
    rw [hsame]
    exact ho.order e

/-- One iteration: the entry is looked at, and written to when it qualifies. -/
theorem Orderly.next (ho : Orderly log s) {i : Nat} (hs : s.Sending c i h) {x : Exam}
    (hget : s.reg.live[i]? = some x.entry) (conn : Option Addr) (hsends : s'.sends = s.sends)
    (hreg : s'.reg = s.reg)
    (hcur : ∀ {d j f}, s'.Sending d j f → d = c ∧ j = i + 1 ∧
      s'.payloadOf d f = s.payloadOf c h) :
    Orderly (log ++ looked s.sends x conn (s.payloadOf c h)) s' := by
  obtain ⟨hst, hx, hend⟩ := ho.current hs
  have hok := ho.callOk_current hs
  have hother : ∀ {k}, k ≠ s.sends →
      ∀ y ∈ looked s.sends x conn (s.payloadOf c h), y.call ≠ some k := by
    intro k hk y hy
    rw [call_of_mem_looked hy]
    simpa using Ne.symm hk
  -- what the events add to each record of the call
  have hst' : started s.sends (log ++ looked s.sends x conn (s.payloadOf c h)) =
      started s.sends log := by
    rw [started_append, started_looked, List.append_nil]
  have hend' : ended s.sends (log ++ looked s.sends x conn (s.payloadOf c h)) =
      ended s.sends log := by
    rw [ended_append, ended_looked, List.append_nil]
  have htake : s.reg.live.take (i + 1) = s.reg.live.take i ++ [x.entry] := by
    rw [List.take_add_one, hget]
    rfl
  have hentries : (examined s.sends (log ++ looked s.sends x conn (s.payloadOf c h))).map
      Exam.entry = s.reg.live.take (i + 1) := by
    rw [examined_append, examined_looked, List.map_append, hx, htake]
    rfl
  refine ⟨fun k => ?_, fun k hk => ?_, ?_, fun a => ?_⟩
  · by_cases hk : k = s.sends
    · subst hk
      refine Or.inr ⟨_, hst'.trans hst, hok.nodup, ?_, ?_, ?_⟩
      · rw [hentries]
        exact List.take_prefix _ _
      · rw [delivered_append, delivered_looked, examined_append, examined_looked,
          List.filter_append, List.map_append, hok.scope]
      · rw [hend', hend]
        intro entries hmem
        cases hmem
    · exact (ho.calls k).other (hother hk)
  · rw [started_other (hother (by omega))]
    exact ho.future k (hsends ▸ hk)
  · intro d j f hs'
    obtain ⟨rfl, rfl, hpay⟩ := hcur hs'
    rw [hsends, hreg, hpay, hst', hend']
    exact ⟨hst, hentries, hend⟩
  · rw [received_append]
    rcases received_looked s.sends x conn (s.payloadOf c h) a with hnil | ⟨rfl, hone⟩
    · rw [hnil, List.append_nil]
      exact ho.order a
    · rw [hone]
      refine List.pairwise_append.mpr ⟨ho.order _, List.pairwise_singleton _ _, ?_⟩
      intro k hk k' hk'
      rw [List.mem_singleton.mp hk']
      refine Nat.lt_of_le_of_ne (ho.le_of_received hk) ?_
      rintro rfl
      exact ho.not_received hs hget hk

end

theorem Server.Sending.holds {s : Server} {c : Addr} {i : Nat} {h : Handler}
    (hs : s.Sending c i h) : s.holds (.handler c) = true := by
  simp [Server.holds, hs.1, hs.2, HandlerPc.holds]

/-- Every step of the server keeps the calls in order. -/
theorem Orderly.step {log ev : List Event} {s s' : Server} {a : Action} (ho : Orderly log s)
    (hsd : Sound s) (hs : StepOf s a s' ev) : Orderly (log ++ ev) s' := by
  cases hs with
  | main hm he =>
    rename_i x pc e s₁
    have ha := Server.applied he
    have hsends : e.sends s = s.sends := by cases hm <;> rfl
    refine ho.quiet (by simp) (ha.sends.trans hsends) ?_
    rintro c i f ⟨hf, hpc⟩
    simp only [ha.handlers] at hf
    rcases hm.handlers hsd.alive c with hc | ⟨-, msg, hc⟩
    · rw [hc] at hf
      have hsending : s.Sending c i f := ⟨hf, hpc⟩
      obtain ⟨hreg, -⟩ := hsd.locked.shared he (hm.mutx).1 hsending.holds (by simp)
      refine ⟨hsending, ha.reg.trans hreg, ?_⟩
      have hne : c ≠ s.next := Nat.ne_of_lt (hsd.alive.lt hf)
      have hheap : s₁.heap c = s.heap c := by
        rw [ha.heap]
        cases hm <;> simp [Effect.heap, hne]
      simp only [Server.payloadOf, Server.nameOf, hheap]
    · rw [hc] at hf
      cases hf
      cases hpc
  | handler hh hm he =>
    rename_i c x f f' e s₁
    have ha := Server.applied he
    have hhandlers : s₁.handlers = s.handlers :=
      ha.handlers.trans (Effect.handlers_of_handler hm.ofMain)
    obtain ⟨hallow, -, -⟩ := hm.mutx (hsd.locked.flushed c f hh)
    have hholds : s.holds (.handler c) = f.pc.holds := by simp [Server.holds, hh]
    have hothers : ∀ {d i g}, d ≠ c → Server.Sending
        { s₁ with handlers := Function.update s₁.handlers c (some f') } d i g →
        s.Sending d i g := by
      rintro d i g hd ⟨hg, hpc⟩
      simp only [hhandlers, Function.update_of_ne hd] at hg
      exact ⟨hg, hpc⟩
    have hself : ∀ {i g}, Server.Sending
        { s₁ with handlers := Function.update s₁.handlers c (some f') } c i g →
        g = f' ∧ f'.pc = .sendLoop i := by
      rintro i g ⟨hg, hpc⟩
      simp only [Function.update_self, Option.some.injEq] at hg
      exact ⟨hg.symm, hg ▸ hpc⟩
    -- all statements outside `send_msg`
    have hquiet : (∀ y ∈ ev, y.call = none) → e.sends s = s.sends →
        (∀ i, f'.pc ≠ .sendLoop i) →
        Orderly (log ++ ev) { s₁ with handlers := Function.update s₁.handlers c (some f') } := by
      intro hev hsends hpc
      refine ho.quiet hev (ha.sends.trans hsends) ?_
      intro d i g hg
      by_cases hd : d = c
      · subst hd
        exact absurd (hself hg).2 (hpc i)
      · have hg' := hothers hd hg
        have hne : Tid.handler c ≠ .handler d := fun h => hd (Tid.handler.inj h).symm
        obtain ⟨hreg, -⟩ := hsd.locked.shared he (hholds ▸ hallow) hg'.holds hne
        refine ⟨hg', ha.reg.trans hreg, ?_⟩
        simp only [Server.payloadOf, Server.nameOf, ha.heap, hm.heap hd]
    -- inside it, nobody else is
    have halone : ∀ {i d j g}, f.pc = .sendLoop i → d ≠ c → ¬ Server.Sending
        { s₁ with handlers := Function.update s₁.handlers c (some f') } d j g := by
      intro i d j g hpc hd hg
      have hc : s.Sending c i f := ⟨hh, hpc⟩
      exact hd (Tid.handler.inj (hsd.locked.unique (hothers hd hg).holds hc.holds))
    -- the statements that leave this thread, and no other, in the loop at `i`
    have honly : ∀ {i}, f'.pc = .sendLoop i → e.heap s = s.heap →
        (∀ {d j g}, d ≠ c → ¬ Server.Sending
          { s₁ with handlers := Function.update s₁.handlers c (some f') } d j g) →
        ∀ {d j g}, Server.Sending
          { s₁ with handlers := Function.update s₁.handlers c (some f') } d j g →
          d = c ∧ j = i ∧ Server.payloadOf
            { s₁ with handlers := Function.update s₁.handlers c (some f') } d g =
              s.payloadOf c f' := by
      intro i hpc hheap hnone d j g hg
      by_cases hd : d = c
      · subst hd
        obtain ⟨rfl, hpc'⟩ := hself hg
        rw [hpc] at hpc'
        refine ⟨rfl, (HandlerPc.sendLoop.inj hpc').symm, ?_⟩
        simp only [Server.payloadOf, Server.nameOf, ha.heap, hheap]
      · exact absurd hg (hnone hd)
    cases hm with
    | sendLock hpc =>
      refine ho.begin hsd.tabled.nodup (by exact ha.sends) (by exact ha.reg) ?_
      refine honly rfl rfl fun {d j g} hd hg => ?_
      have hne : Tid.handler c ≠ .handler d := fun h => hd (Tid.handler.inj h).symm
      obtain ⟨-, hsends⟩ := hsd.locked.shared he (hholds ▸ hallow) (hothers hd hg).holds hne
      simp [Effect.sends] at hsends
    | sendNext i e hpc hi hent =>
      have hc : s.Sending c i f := ⟨hh, hpc⟩
      have hget : s.reg.live[i]? = some e := by
        rw [hent, Registry.getElem?_live (by omega)]
      exact ho.next (x := ⟨e, s.nameOf e, (s.heap e).room, (s.heap c).room⟩) hc hget _
        (by exact ha.sends) (by exact ha.reg) (honly rfl rfl (halone hpc))
    | sendEnd i hpc hi =>
      have hc : s.Sending c i f := ⟨hh, hpc⟩
      refine ho.end hc hi (by exact ha.sends) ?_
      intro d j g hg
      by_cases hd : d = c
      · subst hd
        cases (hself hg).2
      · exact halone hpc hd hg
    | read _ _ hpc _ _ | dupUnlock _ hpc | replyOk hpc =>
      refine hquiet (by simp [Event.call]) rfl fun i => ?_
      simp only
      split <;> simp
    | readFails _ hpc | dupLock hpc | dupCheck hpc | dupFail hpc | call _ _ hpc
    | auth _ _ _ hpc _ | authReturn _ _ _ hpc _ | replyFail _ hpc _ | setName hpc
    | welcome hpc | gateShut hpc _ | gateOpen hpc _ | chatEnd _ hpc | chatIgnore _ _ _ hpc
    | chatJoin _ _ _ _ hpc | chatText _ _ _ hpc _ | joinRoom _ hpc | joinAck _ hpc
    | discLock hpc | discRemove hpc | discUnlock hpc | close hpc =>
      exact hquiet (by simp [Event.call]) rfl (by simp)

/-! ## 3. The result -/

theorem orderly_of_runs {users : Option Bytes} {ok : Server → Action → Prop}
    {log : List Event} {s : Server} (h : Runs serverStep ok (.init users) log s) :
    Orderly log s := by
  refine h.invariant (I := Orderly) (orderly_init users) ?_
  intro log s a s' ev hrun ih _ hs
  exact ih.step (sound_of_runs hrun) (serverStep_stepOf hs)

/-- Two strictly increasing lists have what they share in the same order. -/
theorem filter_mem_comm {l m : List Nat} (hl : l.Pairwise (· < ·)) (hm : m.Pairwise (· < ·)) :
    l.filter (· ∈ m) = m.filter (· ∈ l) := by
  refine (hl.filter _).eq_of_mem_iff (hm.filter _) fun k => ?_
  simp only [List.mem_filter, decide_eq_true_eq]
  exact and_comm

/-- A step of a handler, in the machine. -/
theorem serverStep_of_handler {s s₁ : Server} {c : Addr} {x : Input} {h h' : Handler} {e : Effect}
    {ev : List Event} (hh : s.handlers c = some h) (hs : handlerStep s c h x = some (h', e, ev))
    (he : s.apply (.handler c) e = some s₁) :
    serverStep s (.handler c x) =
      some ({ s₁ with handlers := Function.update s₁.handlers c (some h') }, ev) := by
  simp only [serverStep, hh, hs, he, Option.map_some]

/-- The handler of `c` makes a step without input. -/
def GoesOn (c : Addr) (_ : Server) (a : Action) : Prop := a = .handler c .go

theorem runs_handler {s s₁ : Server} {c : Addr} {h h' : Handler} {e : Effect}
    {ev : List Event} (hh : s.handlers c = some h) (hs : handlerStep s c h .go = some (h', e, ev))
    (he : s.apply (.handler c) e = some s₁) :
    Runs serverStep (GoesOn c) s ev
      { s₁ with handlers := Function.update s₁.handlers c (some h') } :=
  Runs.one rfl (serverStep_of_handler hh hs he)

/-- What a handler tells its client and the room. -/
def Event.told (c : Addr) : Event → Option Bytes
  | .write c' bs | .enterSend _ c' _ bs => if c' = c then some bs else none
  | _ => none

/-- A call that is in progress can go on to its end, and leaves nothing behind but that its
handler is back in the chat loop and the mutex is free. -/
theorem send_msg_ends (n : Nat) {s : Server} {c : Addr} {i : Nat} {h : Handler}
    (hs : s.Sending c i h) (hn : s.reg.clntCnt ≤ i + n) :
    ∃ log s', Runs serverStep (GoesOn c) s log s' ∧ .leaveSend s.sends s.reg.live ∈ log ∧
      log.filterMap (Event.told c) = [] ∧ s' = { s with
        mutx := none
        handlers := Function.update s.handlers c (some { h with pc := .chatRead }) } := by
  obtain ⟨hh, hpc⟩ := hs
  induction n generalizing s i h with
  | zero =>
    have hi : ¬ (i : Int) < s.reg.clntCnt := by push_cast at hn; omega
    have hstep : handlerStep s c h .go = some ({ h with pc := .chatRead }, .sync .unlock,
        [.leaveSend s.sends s.reg.live]) := by
      simp only [handlerStep, hpc, if_neg hi]
    exact ⟨_, _, runs_handler hh hstep rfl, List.mem_singleton_self _, rfl, rfl⟩
  | succ n ih =>
    by_cases hi : (i : Int) < s.reg.clntCnt
    · obtain ⟨ev, hstep, htold⟩ : ∃ ev, handlerStep s c h .go =
          some ({ h with pc := .sendLoop (i + 1) }, .sync .skip, ev) ∧
          ev.filterMap (Event.told c) = [] := by
        simp only [handlerStep, hpc, if_pos hi, Handler.goto]
        refine ⟨_, rfl, ?_⟩
        split <;> rfl
      have hrun := runs_handler hh hstep rfl
      obtain ⟨log, s', hrun', hmem, htold', heq⟩ := ih
        (s := { s with handlers :=
          Function.update s.handlers c (some { h with pc := .sendLoop (i + 1) }) })
        (h := { h with pc := .sendLoop (i + 1) }) (i := i + 1)
        (by push_cast at hn ⊢; omega) (Function.update_self ..) rfl
      refine ⟨ev ++ log, s', hrun.trans hrun', List.mem_append_right _ hmem, ?_, ?_⟩
      · rw [List.filterMap_append, htold, htold']
        rfl
      · rw [heq, Function.update_idem]
    · have hstep : handlerStep s c h .go = some ({ h with pc := .chatRead }, .sync .unlock,
          [.leaveSend s.sends s.reg.live]) := by
        simp only [handlerStep, hpc, if_neg hi]
      exact ⟨_, _, runs_handler hh hstep rfl, List.mem_singleton_self _, rfl, rfl⟩

/-- In every run of the server, of any number of handlers and with any interleaving:

* each call of `send_msg` looks at the slots in use one after the other, which hold different
  records and do not change until it ends, and it writes the same bytes once to each entry that
  has a name and the sender's room when it is looked at, and to no other;
* of the broadcasts that two entries both receive they agree on the order;
* a call that is in progress can go on to its end. -/
theorem send_msg_ordered {users : Option Bytes} {log : List Event} {s : Server}
    (h : Runs serverStep anyStep (.init users) log s) :
    (∀ k, Scoped k log) ∧
    (∀ a b, (received a log).filter (· ∈ received b log) =
      (received b log).filter (· ∈ received a log)) ∧
    ∀ c i f, s.Sending c i f →
      ∃ log' s', Runs serverStep anyStep s log' s' ∧ .leaveSend s.sends s.reg.live ∈ log' := by
  have ho := orderly_of_runs h
  refine ⟨ho.calls, fun a b => filter_mem_comm (ho.order a) (ho.order b), ?_⟩
  intro c i f hs
  obtain ⟨log', s', hrun, hmem, -, -⟩ := send_msg_ends s.reg.clntCnt.toNat hs (by omega)
  exact ⟨log', s', hrun.mono fun _ _ _ => trivial, hmem⟩

/-- Two users log in and each writes a line. -/
def twoLines : List Action :=
  connects 4 (List.replicate 20 0) ++ connects 5 (List.replicate 20 0) ++
    logsIn 0 "LOGIN kim 1" 7 ++ goesOn 0 4 ++ logsIn 1 "LOGIN lee 2" 8 ++ goesOn 1 4 ++
    hears 0 "hi" 4 ++ hears 1 "ho" 4

theorem send_msg_ordered_two : ∃ log s,
    Runs serverStep anyStep (.init (some (utf8 "kim 1\nlee 2\n"))) log s ∧
    received 0 log = [1, 2] ∧ Scoped 2 log ∧
    (received 0 log).filter (· ∈ received 1 log) =
      (received 1 log).filter (· ∈ received 0 log) := by
  obtain ⟨log, s, hrun, hp⟩ : ∃ log s,
      Runs serverStep anyStep (.init (some (utf8 "kim 1\nlee 2\n"))) log s ∧
      (received 0 log == [1, 2]) = true :=
    exists_runs_of_exec twoLines _ (by decide +kernel)
  obtain ⟨hcalls, horder, -⟩ := send_msg_ordered hrun
  exact ⟨log, s, hrun, beq_iff_eq.mp hp, hcalls 2, horder 0 1⟩

end PosixLab.Chat
