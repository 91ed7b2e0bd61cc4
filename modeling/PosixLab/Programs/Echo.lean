/-
# An echo server

`tcp_server.c` serves its connections one after the other: one `recv`, one `send` of the string
that is then in the array, and `close`.  `tcp_client.c` sends a word and prints what one `recv`
gets.  The connection is a stream, so either `recv` may get the beginning only of what was sent;
and a connection that is closed with something unread is reset, which may cost the client its
answer.

Whoever gets an answer gets the beginning of the own word, and the connections are served in the
order in which they were made (`echoes_own`).  The words are not empty, or the server waits for good
for the first byte of one (`all_end_iff`).
-/
import PosixLab.Basis.CString
import PosixLab.Basis.Progress
import Mathlib.Algebra.BigOperators.Group.Finset.Basic
import Mathlib.Algebra.Order.BigOperators.Group.Finset
import Mathlib.Data.Fintype.BigOperators

namespace PosixLab.Programs

open PosixLab

/-! ## 1. The programs -/

/-- The size of the arrays, `MAXBUF` and `MAXDATASIZE`. -/
def echoSize : Nat := 100

/-- An array after `memset`. -/
def zeroed : Bytes := List.replicate echoSize 0

/-- Where a client stands, named after what it does next. -/
inductive EchoPc
  | connect
  | send
  | recv
  | ended
deriving DecidableEq

/-- A client and its connection: the bytes on their way either way, whether the server has closed
it, and whether something was unread then. -/
structure EchoClient where
  pc : EchoPc
  toServer : Bytes
  toClient : Bytes
  closed : Bool
  reset : Bool
deriving DecidableEq

inductive EchoServer (ι : Type*)
  | accept
  | recv (i : ι)
  | send (i : ι)
  | close (i : ι)
  | exited
deriving DecidableEq

/-- The clients, the connections that wait for `accept`, and the server with its array. -/
structure EchoSys (ι : Type*) where
  client : ι → EchoClient
  queue : List ι
  server : EchoServer ι
  buf : Bytes

def EchoSys.init {ι : Type*} : EchoSys ι where
  client _ := ⟨.connect, [], [], false, false⟩
  queue := []
  server := .accept
  buf := zeroed

/-- The calls.  `lost` is a `recv` of a client that fails because the connection was reset, and
`acceptFails` an `accept` behind which the server goes round its loop. -/
inductive EchoAction (ι : Type*)
  | connect (i : ι) (ok : Bool)
  | send (i : ι)
  | recv (i : ι) (n : Nat)
  | lost (i : ι)
  | accept
  | acceptFails
  | serverRecv (n : Nat)
  | serverSend
  | serverClose
deriving DecidableEq

inductive EchoEvent (ι : Type*)
  | silent
  | refused (i : ι)
  | connected (i : ι)
  | served (i : ι) (data : Bytes)
  | printed (i : ι) (out : Bytes)
  | lost (i : ι)
deriving DecidableEq

section

variable {ι : Type*} [DecidableEq ι]

def EchoSys.set (s : EchoSys ι) (i : ι) (c : EchoClient) : EchoSys ι :=
  { s with client := Function.update s.client i c }

/-- What a `recv` of `n` bytes can return: the end only when there is nothing more to come. -/
def Receivable (n : Nat) (data : Bytes) (eof : Bool) : Prop :=
  n ≤ echoSize ∧ n ≤ data.length ∧ (n = 0 → data = [] ∧ eof = true)

instance (n : Nat) (data : Bytes) (eof : Bool) : Decidable (Receivable n data eof) :=
  inferInstanceAs (Decidable (_ ∧ _ ∧ _))

/-- One call, for clients with these words and a queue of this length.  An `accept` that fails
leaves nothing behind, the log included. -/
def echoStep (text : ι → Bytes) (limit : Nat) (s : EchoSys ι) :
    EchoAction ι → Option (EchoSys ι × List (EchoEvent ι))
  | .connect i false =>
    if (s.client i).pc = .connect then
      some (s.set i { s.client i with pc := .ended }, [.refused i])
    else none
  | .connect i true =>
    if (s.client i).pc = .connect ∧ s.queue.length < limit then
      some ({ s.set i { s.client i with pc := .send } with queue := s.queue ++ [i] },
        [.connected i])
    else none
  | .send i =>
    if (s.client i).pc = .send then
      some (s.set i { s.client i with
        pc := .recv
        toServer := cstr (strcpy zeroed (text i)) }, [.silent])
    else none
  | .recv i n =>
    if (s.client i).pc = .recv ∧
        Receivable n (s.client i).toClient ((s.client i).closed && !(s.client i).reset) then
      some (s.set i { s.client i with pc := .ended },
        [.printed i (cstr (store zeroed ((s.client i).toClient.take n)))])
    else none
  | .lost i =>
    if (s.client i).pc = .recv ∧ (s.client i).reset = true then
      some (s.set i { s.client i with pc := .ended }, [.lost i])
    else none
  | .accept =>
    match s.server, s.queue with
    | .accept, i :: queue => some ({ s with server := .recv i, queue }, [.silent])
    | _, _ => none
  | .acceptFails => if s.server = .accept then some (s, []) else none
  | .serverRecv n =>
    match s.server with
    | .recv i =>
      if Receivable n (s.client i).toServer ((s.client i).pc == .ended) then
        some ({ s.set i { s.client i with toServer := (s.client i).toServer.drop n } with
          server := .send i
          buf := store zeroed ((s.client i).toServer.take n) },
          [.served i ((s.client i).toServer.take n)])
      else none
    | _ => none
  | .serverSend =>
    match s.server with
    | .send i =>
      -- nobody reads any more
      if (s.client i).pc = .ended then some ({ s with server := .exited }, [.silent])
      else
        some ({ s.set i { s.client i with toClient := (s.client i).toClient ++ cstr s.buf } with
          server := .close i }, [.silent])
    | _ => none
  | .serverClose =>
    match s.server with
    | .close i =>
      some ({ s.set i { s.client i with
        closed := true
        reset := (s.client i).toServer != [] } with server := .accept }, [.silent])
    | _ => none

/-- What a call can do. -/
inductive EchoMove (text : ι → Bytes) (limit : Nat) (s : EchoSys ι) :
    EchoAction ι → EchoSys ι → List (EchoEvent ι) → Prop
  | refused (i : ι) (hpc : (s.client i).pc = .connect) :
      EchoMove text limit s (.connect i false) (s.set i { s.client i with pc := .ended })
        [.refused i]
  | connected (i : ι) (hpc : (s.client i).pc = .connect) (hlimit : s.queue.length < limit) :
      EchoMove text limit s (.connect i true)
        { s.set i { s.client i with pc := .send } with queue := s.queue ++ [i] } [.connected i]
  | send (i : ι) (hpc : (s.client i).pc = .send) :
      EchoMove text limit s (.send i)
        (s.set i { s.client i with pc := .recv, toServer := cstr (strcpy zeroed (text i)) })
        [.silent]
  | recv (i : ι) (n : Nat) (hpc : (s.client i).pc = .recv)
      (hn : Receivable n (s.client i).toClient ((s.client i).closed && !(s.client i).reset)) :
      EchoMove text limit s (.recv i n) (s.set i { s.client i with pc := .ended })
        [.printed i (cstr (store zeroed ((s.client i).toClient.take n)))]
  | lost (i : ι) (hpc : (s.client i).pc = .recv) (hreset : (s.client i).reset = true) :
      EchoMove text limit s (.lost i) (s.set i { s.client i with pc := .ended }) [.lost i]
  | accept (i : ι) (queue : List ι) (hserver : s.server = .accept) (hqueue : s.queue = i :: queue) :
      EchoMove text limit s .accept { s with server := .recv i, queue } [.silent]
  | acceptFails (hserver : s.server = .accept) : EchoMove text limit s .acceptFails s []
  | serverRecv (i : ι) (n : Nat) (hserver : s.server = .recv i)
      (hn : Receivable n (s.client i).toServer ((s.client i).pc == .ended)) :
      EchoMove text limit s (.serverRecv n)
        { s.set i { s.client i with toServer := (s.client i).toServer.drop n } with
          server := .send i
          buf := store zeroed ((s.client i).toServer.take n) }
        [.served i ((s.client i).toServer.take n)]
  | exits (i : ι) (hserver : s.server = .send i) (hpc : (s.client i).pc = .ended) :
      EchoMove text limit s .serverSend { s with server := .exited } [.silent]
  | serverSend (i : ι) (hserver : s.server = .send i) (hpc : (s.client i).pc ≠ .ended) :
      EchoMove text limit s .serverSend
        { s.set i { s.client i with toClient := (s.client i).toClient ++ cstr s.buf } with
          server := .close i } [.silent]
  | serverClose (i : ι) (hserver : s.server = .close i) :
      EchoMove text limit s .serverClose
        { s.set i { s.client i with closed := true, reset := (s.client i).toServer != [] } with
          server := .accept } [.silent]

variable {text : ι → Bytes} {limit : Nat} {s s' : EchoSys ι} {a : EchoAction ι}
  {ev log : List (EchoEvent ι)} {i j : ι} {c : EchoClient}

theorem echoStep_move (h : echoStep text limit s a = some (s', ev)) :
    EchoMove text limit s a s' ev := by
  cases a with
  | connect i ok =>
    rcases ok with _ | _
    · obtain ⟨hpc, heq⟩ := Option.ite_none_right_eq_some.mp h
      cases heq
      exact .refused i hpc
    · obtain ⟨⟨hpc, hlimit⟩, heq⟩ := Option.ite_none_right_eq_some.mp h
      cases heq
      exact .connected i hpc hlimit
  | send i =>
    obtain ⟨hpc, heq⟩ := Option.ite_none_right_eq_some.mp h
    cases heq
    exact .send i hpc
  | recv i n =>
    obtain ⟨⟨hpc, hn⟩, heq⟩ := Option.ite_none_right_eq_some.mp h
    cases heq
    exact .recv i n hpc hn
  | lost i =>
    obtain ⟨⟨hpc, hreset⟩, heq⟩ := Option.ite_none_right_eq_some.mp h
    cases heq
    exact .lost i hpc hreset
  | accept =>
    simp only [echoStep] at h
    split at h
    · rename_i i queue hserver hqueue
      cases h
      exact .accept i queue hserver hqueue
    · cases h
  | acceptFails =>
    obtain ⟨hserver, heq⟩ := Option.ite_none_right_eq_some.mp h
    cases heq
    exact .acceptFails hserver
  | serverRecv n =>
    simp only [echoStep] at h
    split at h
    · rename_i i hserver
      obtain ⟨hn, heq⟩ := Option.ite_none_right_eq_some.mp h
      cases heq
      exact .serverRecv i n hserver hn
    · cases h
  | serverSend =>
    simp only [echoStep] at h
    split at h
    · rename_i i hserver
      split at h <;> rename_i hpc <;> cases h
      · exact .exits i hserver hpc
      · exact .serverSend i hserver hpc
    · cases h
  | serverClose =>
    simp only [echoStep] at h
    split at h
    · rename_i i hserver
      cases h
      exact .serverClose i hserver
    · cases h

end

/-! ## 2. What holds along the runs -/

section

variable {ι : Type*}

/-- The connections, in the order in which they were made. -/
def connectedIn (log : List (EchoEvent ι)) : List ι :=
  log.filterMap fun | .connected i => some i | _ => none

/-- The clients that the server has served, with what it has received. -/
def servedIn (log : List (EchoEvent ι)) : List (ι × Bytes) :=
  log.filterMap fun | .served i data => some (i, data) | _ => none

/-- The client whose word the server waits for. -/
def EchoServer.receives : EchoServer ι → List ι
  | .recv i => [i]
  | _ => []

/-- The connections from which nothing has been received. -/
def EchoSys.waiting (s : EchoSys ι) : List ι := s.server.receives ++ s.queue

/-- The server has received nothing. -/
structure EchoClient.Waits (text : Bytes) (c : EchoClient) : Prop where
  toClient : c.toClient = []
  closed : c.closed = false
  reset : c.reset = false
  word : c.pc = .send ∧ c.toServer = [] ∨ c.pc = .recv ∧ c.toServer = text

/-- The server has received `data`, and not answered. -/
structure EchoClient.Held (text data : Bytes) (c : EchoClient) : Prop where
  pc : c.pc = .recv
  toClient : c.toClient = []
  closed : c.closed = false
  reset : c.reset = false
  some : data ≠ []
  word : data ++ c.toServer = text

/-- The server has answered. -/
structure EchoClient.Answered (text data : Bytes) (c : EchoClient) : Prop where
  pc : c.pc = .recv ∨ c.pc = .ended
  toClient : c.toClient = data
  some : data ≠ []
  word : data ++ c.toServer = text
  reset : c.reset = true → data ≠ text

/-- A client with its connection, by what the server has done for it. -/
structure Suits (text : ι → Bytes) (log : List (EchoEvent ι)) (s : EchoSys ι) (j : ι)
    (c : EchoClient) : Prop where
  outside : j ∉ connectedIn log → c = ⟨.connect, [], [], false, false⟩ ∨ c.pc = .ended
  waits : j ∈ s.waiting → c.Waits (text j)
  held : ∀ data, (j, data) ∈ servedIn log → s.server = .send j → c.Held (text j) data
  answered : ∀ data, (j, data) ∈ servedIn log → s.server ≠ .send j → c.Answered (text j) data

/-- The connections are served in their order, and nobody has two. -/
structure Queued (log : List (EchoEvent ι)) (s : EchoSys ι) : Prop where
  order : connectedIn log = (servedIn log).map Prod.fst ++ s.waiting
  nodup : (connectedIn log).Nodup

/-- What holds along the runs. -/
structure Echoes (text : ι → Bytes) (log : List (EchoEvent ι)) (s : EchoSys ι) : Prop
    extends Queued log s where
  clients : ∀ j, Suits text log s j (s.client j)
  busy : ∀ i, s.server = .send i ∨ s.server = .close i → ∃ data, (i, data) ∈ servedIn log
  buf : ∀ i data, s.server = .send i → (i, data) ∈ servedIn log → s.buf = store zeroed data
  alive : s.server ≠ .exited
  printed : ∀ i out, .printed i out ∈ log →
    ∃ data, (i, data) ∈ servedIn log ∧ out ≠ [] ∧ out <+: data
  lost : ∀ i, .lost i ∈ log → ∃ data, (i, data) ∈ servedIn log ∧ data ≠ text i

variable {text : ι → Bytes} {s s' : EchoSys ι} {log : List (EchoEvent ι)} {i j : ι}
  {c : EchoClient}

/-- The words can be arguments of the client, and their arrays can hold them. -/
def Words (text : ι → Bytes) : Prop := ∀ i, NulFree (text i) ∧ (text i).length < echoSize

theorem connectedIn_snoc (log : List (EchoEvent ι)) (e : EchoEvent ι) :
    connectedIn (log ++ [e]) = connectedIn log ++ connectedIn [e] := by
  rw [connectedIn, List.filterMap_append]
  rfl

theorem servedIn_snoc (log : List (EchoEvent ι)) (e : EchoEvent ι) :
    servedIn (log ++ [e]) = servedIn log ++ servedIn [e] := by
  rw [servedIn, List.filterMap_append]
  rfl

/-- What is received into an array of zeros is the string of the array. -/
theorem cstr_store_zeroed {data : Bytes} (h : NulFree data) : cstr (store zeroed data) = data := by
  have hzero : cstr (zeroed.drop data.length) = [] := by
    rw [zeroed, List.drop_replicate]
    rcases echoSize - data.length with _ | k <;> rfl
  rw [store, cstr_append h, hzero, List.append_nil]

/-- What is received, unless it is the end. -/
theorem Receivable.take_ne_nil {n : Nat} {data : Bytes} {eof : Bool} (h : Receivable n data eof)
    (hn : n ≠ 0) : data.take n ≠ [] := by
  intro hnil
  have hlen : (data.take n).length = n := List.length_take_of_le h.2.1
  rw [hnil] at hlen
  exact hn hlen.symm

theorem nulFree_of_start {data word : Bytes} (h : NulFree word) (hpre : data <+: word) :
    NulFree data := fun b hb => h b (hpre.mem hb)

/-! ### One step -/

/-- What suits a client depends on what has become of it only. -/
theorem Suits.congr {log' : List (EchoEvent ι)} (h : Suits text log s j c)
    (hconnected : connectedIn log' = connectedIn log) (hserved : servedIn log' = servedIn log)
    (hwaiting : s'.waiting = s.waiting) (hserver : s'.server = .send j ↔ s.server = .send j) :
    Suits text log' s' j c := by
  refine ⟨?_, ?_, ?_, ?_⟩
  · rw [hconnected]
    exact h.outside
  · rw [hwaiting]
    exact h.waits
  · rw [hserved, hserver]
    exact h.held
  · rw [hserved, Ne, hserver]
    exact h.answered

theorem Queued.congr (h : Queued log s) (hwaiting : s'.waiting = s.waiting) : Queued log s' := by
  refine ⟨?_, h.nodup⟩
  rw [hwaiting]
  exact h.order

theorem Queued.nodup_served (h : Queued log s) : ((servedIn log).map Prod.fst).Nodup := by
  have hnodup := h.nodup
  rw [h.order] at hnodup
  exact hnodup.of_append_left

/-- A client is served once. -/
theorem Queued.served_once (h : Queued log s) {data data' : Bytes}
    (hi : (i, data) ∈ servedIn log) (hi' : (i, data') ∈ servedIn log) : data = data' := by
  have heq := List.inj_on_of_nodup_map h.nodup_served hi hi' rfl
  exact (Prod.mk.inj heq).2

/-- A client that waits has not been served. -/
theorem Queued.not_served (h : Queued log s) (hi : i ∈ s.waiting) (data : Bytes) :
    (i, data) ∉ servedIn log := by
  intro hmem
  have hnodup := h.nodup
  rw [h.order, List.nodup_append] at hnodup
  exact hnodup.2.2 i (List.mem_map_of_mem hmem) i hi rfl

theorem Queued.mem_of_served (h : Queued log s) {data : Bytes} (hi : (i, data) ∈ servedIn log) :
    i ∈ connectedIn log := by
  rw [h.order]
  exact List.mem_append_left _ (List.mem_map_of_mem hi)

theorem Queued.mem_of_waiting (h : Queued log s) (hi : i ∈ s.waiting) : i ∈ connectedIn log := by
  rw [h.order]
  exact List.mem_append_right _ hi

/-- What suits a client that has not connected. -/
theorem Queued.suits_outside (h : Queued log s) (hi : i ∉ connectedIn log)
    (hc : c = ⟨.connect, [], [], false, false⟩ ∨ c.pc = .ended) : Suits text log s i c :=
  ⟨fun _ => hc, fun hw => absurd (h.mem_of_waiting hw) hi,
    fun _ hd => absurd (h.mem_of_served hd) hi, fun _ hd => absurd (h.mem_of_served hd) hi⟩

/-- What suits a client that waits. -/
theorem Queued.suits_waits (h : Queued log s) (hi : i ∈ s.waiting) (hc : c.Waits (text i)) :
    Suits text log s i c :=
  ⟨fun hno => absurd (h.mem_of_waiting hi) hno, fun _ => hc,
    fun data hd => absurd hd (h.not_served hi data),
    fun data hd => absurd hd (h.not_served hi data)⟩

/-- What suits a client that is being served. -/
theorem Queued.suits_held (h : Queued log s) {data : Bytes} (hi : (i, data) ∈ servedIn log)
    (hserver : s.server = .send i) (hc : c.Held (text i) data) : Suits text log s i c := by
  refine ⟨fun hno => absurd (h.mem_of_served hi) hno, fun hw => absurd hi (h.not_served hw data),
    ?_, fun _ _ hne => absurd hserver hne⟩
  intro data' hi' _
  rwa [h.served_once hi' hi]

/-- What suits a client that has been answered. -/
theorem Queued.suits_answered (h : Queued log s) {data : Bytes} (hi : (i, data) ∈ servedIn log)
    (hserver : s.server ≠ .send i) (hc : c.Answered (text i) data) : Suits text log s i c := by
  refine ⟨fun hno => absurd (h.mem_of_served hi) hno, fun hw => absurd hi (h.not_served hw data),
    fun _ _ heq => absurd heq hserver, ?_⟩
  intro data' hi' _
  rwa [h.served_once hi' hi]

/-- What has become of a client that has connected. -/
theorem Echoes.stage (h : Echoes text log s) (hi : i ∈ connectedIn log) :
    (i ∈ s.waiting ∧ (s.client i).Waits (text i)) ∨ ∃ data, (i, data) ∈ servedIn log ∧
      ((s.server = .send i ∧ (s.client i).Held (text i) data) ∨
        (s.server ≠ .send i ∧ (s.client i).Answered (text i) data)) := by
  rw [h.order, List.mem_append] at hi
  rcases hi with hi | hi
  · obtain ⟨⟨k, data⟩, hmem, rfl⟩ := List.mem_map.mp hi
    refine .inr ⟨data, hmem, ?_⟩
    by_cases hserver : s.server = .send k
    · exact .inl ⟨hserver, (h.clients k).held data hmem hserver⟩
    · exact .inr ⟨hserver, (h.clients k).answered data hmem hserver⟩
  · exact .inl ⟨hi, (h.clients i).waits hi⟩

/-- A client that is to connect is as it was at the start. -/
theorem Echoes.fresh (h : Echoes text log s) (hpc : (s.client i).pc = .connect) :
    i ∉ connectedIn log ∧ s.client i = ⟨.connect, [], [], false, false⟩ := by
  have hno : i ∉ connectedIn log := by
    intro hi
    rcases h.stage hi with ⟨-, hw⟩ | ⟨data, -, ⟨-, hheld⟩ | ⟨-, hans⟩⟩
    · rcases hw.word with ⟨hpc', -⟩ | ⟨hpc', -⟩ <;> rw [hpc] at hpc' <;> cases hpc'
    · have hpc' := hheld.pc
      rw [hpc] at hpc'
      cases hpc'
    · rcases hans.pc with hpc' | hpc' <;> rw [hpc] at hpc' <;> cases hpc'
  refine ⟨hno, ?_⟩
  rcases (h.clients i).outside hno with heq | hended
  · exact heq
  · rw [hpc] at hended
    cases hended

/-- A client between its calls has connected. -/
theorem Echoes.connected_of_pc (h : Echoes text log s)
    (hpc : (s.client i).pc = .send ∨ (s.client i).pc = .recv) : i ∈ connectedIn log := by
  by_contra hno
  rcases (h.clients i).outside hno with heq | hended
  · rw [heq] at hpc
    rcases hpc with hpc | hpc <;> cases hpc
  · rw [hended] at hpc
    rcases hpc with hpc | hpc <;> cases hpc

/-- A client that has something to receive has been answered. -/
theorem Echoes.answered_of_pc (h : Echoes text log s) (hpc : (s.client i).pc = .recv)
    (hmore : (s.client i).toClient ≠ [] ∨ (s.client i).closed = true ∨ (s.client i).reset = true) :
    ∃ data, (i, data) ∈ servedIn log ∧ s.server ≠ .send i ∧
      (s.client i).Answered (text i) data := by
  rcases h.stage (h.connected_of_pc (.inr hpc)) with ⟨-, hw⟩ | ⟨data, hdata, ⟨-, hheld⟩ | hans⟩
  · simp [hw.toClient, hw.closed, hw.reset] at hmore
  · simp [hheld.toClient, hheld.closed, hheld.reset] at hmore
  · exact ⟨data, hdata, hans⟩

/-- A step of the server in which it receives nothing. -/
theorem Echoes.silent (h : Echoes text log s) (hwaiting : s'.waiting = s.waiting)
    (hclients : ∀ j, Suits text log s' j (s'.client j))
    (hbusy : ∀ i, s'.server = .send i ∨ s'.server = .close i → ∃ data, (i, data) ∈ servedIn log)
    (hbuf : ∀ i, s'.server ≠ .send i) (halive : s'.server ≠ .exited) :
    Echoes text (log ++ [.silent]) s' := by
  have hc : connectedIn (log ++ [.silent]) = connectedIn log := by
    rw [connectedIn_snoc]
    exact List.append_nil _
  have hs : servedIn (log ++ [.silent]) = servedIn log := by
    rw [servedIn_snoc]
    exact List.append_nil _
  refine ⟨⟨?_, ?_⟩, fun j => (hclients j).congr hc hs rfl Iff.rfl, ?_, ?_, halive, ?_, ?_⟩
  · rw [hc, hs, hwaiting]
    exact h.order
  · rw [hc]
    exact h.nodup
  · rw [hs]
    exact hbusy
  · exact fun i data hserver => absurd hserver (hbuf i)
  · intro k out hmem
    rw [hs]
    exact h.printed k out (by simpa using hmem)
  · intro k hmem
    rw [hs]
    exact h.lost k (by simpa using hmem)

end

section

variable {ι : Type*} [DecidableEq ι] {text : ι → Bytes} {limit : Nat} {s s' : EchoSys ι}
  {a : EchoAction ι} {ev log : List (EchoEvent ι)} {i j : ι} {c : EchoClient} {e : EchoEvent ι}

@[simp] theorem EchoSys.set_client (s : EchoSys ι) (i : ι) (c : EchoClient) :
    (s.set i c).client i = c := Function.update_self ..

@[simp] theorem EchoSys.set_queue (s : EchoSys ι) (i : ι) (c : EchoClient) :
    (s.set i c).queue = s.queue := rfl

@[simp] theorem EchoSys.set_server (s : EchoSys ι) (i : ι) (c : EchoClient) :
    (s.set i c).server = s.server := rfl

theorem EchoSys.set_client_of_ne (s : EchoSys ι) (h : j ≠ i) (c : EchoClient) :
    (s.set i c).client j = s.client j := Function.update_of_ne h ..

/-- Once a change of one client suits it, it suits all. -/
theorem suits_set (hi : Suits text log s' i c) (hj : ∀ j, j ≠ i → Suits text log s' j (s.client j))
    (j : ι) : Suits text log s' j ((s.set i c).client j) := by
  by_cases hji : j = i
  · subst hji
    rwa [EchoSys.set_client]
  · rw [EchoSys.set_client_of_ne s hji]
    exact hj j hji

/-- A step of a client that neither connects nor is served by it. -/
theorem Echoes.own (h : Echoes text log s) (hconnected : connectedIn [e] = [])
    (hserved : servedIn [e] = []) (hi : Suits text log s i c)
    (hprinted : ∀ k out, e = .printed k out →
      ∃ data, (k, data) ∈ servedIn log ∧ out ≠ [] ∧ out <+: data)
    (hlost : ∀ k, e = .lost k → ∃ data, (k, data) ∈ servedIn log ∧ data ≠ text k) :
    Echoes text (log ++ [e]) (s.set i c) := by
  have hc : connectedIn (log ++ [e]) = connectedIn log := by
    rw [connectedIn_snoc, hconnected, List.append_nil]
  have hs : servedIn (log ++ [e]) = servedIn log := by
    rw [servedIn_snoc, hserved, List.append_nil]
  refine ⟨⟨?_, ?_⟩, ?_, ?_, ?_, h.alive, ?_, ?_⟩
  · rw [hc, hs]
    exact h.order
  · rw [hc]
    exact h.nodup
  · exact suits_set (hi.congr hc hs rfl Iff.rfl) fun j _ => (h.clients j).congr hc hs rfl Iff.rfl
  · rw [hs]
    exact h.busy
  · rw [hs]
    exact h.buf
  · intro k out hmem
    rw [hs]
    rcases List.mem_append.mp hmem with hmem | hmem
    · exact h.printed k out hmem
    · exact hprinted k out (List.mem_singleton.mp hmem).symm
  · intro k hmem
    rw [hs]
    rcases List.mem_append.mp hmem with hmem | hmem
    · exact h.lost k hmem
    · exact hlost k (List.mem_singleton.mp hmem).symm

/-- A client connects. -/
theorem Echoes.connects (h : Echoes text log s) (hpc : (s.client i).pc = .connect) :
    Echoes text (log ++ [.connected i])
      { s.set i { s.client i with pc := .send } with queue := s.queue ++ [i] } := by
  obtain ⟨hno, hfresh⟩ := h.fresh hpc
  set s' : EchoSys ι := { s.set i { s.client i with pc := .send } with queue := s.queue ++ [i] }
    with hs'
  have hc : connectedIn (log ++ [.connected i]) = connectedIn log ++ [i] := connectedIn_snoc ..
  have hs : servedIn (log ++ [.connected i]) = servedIn log := by
    rw [servedIn_snoc]
    exact List.append_nil _
  have hw : s'.waiting = s.waiting ++ [i] := (List.append_assoc ..).symm
  have hqueued : Queued (log ++ [.connected i]) s' := by
    refine ⟨?_, ?_⟩
    · rw [hc, hs, hw, h.order, List.append_assoc]
    · rw [hc]
      exact h.nodup.append (List.nodup_singleton i) (by simpa using hno)
  refine ⟨hqueued, suits_set ?_ fun j hj => ?_, ?_, ?_, h.alive, ?_, ?_⟩
  · refine hqueued.suits_waits (by simp [hw]) ⟨?_, ?_, ?_, .inl ⟨rfl, ?_⟩⟩ <;> rw [hfresh]
  · have hsuits := h.clients j
    refine ⟨fun hout => hsuits.outside fun hmem => hout ?_, fun hmem => hsuits.waits ?_, ?_, ?_⟩
    · rw [hc]
      exact List.mem_append_left _ hmem
    · rw [hw] at hmem
      simpa [hj] using hmem
    · rw [hs]
      exact hsuits.held
    · rw [hs]
      exact hsuits.answered
  · rw [hs]
    exact h.busy
  · rw [hs]
    exact h.buf
  · intro k out hmem
    rw [hs]
    exact h.printed k out (by simpa using hmem)
  · intro k hmem
    rw [hs]
    exact h.lost k (by simpa using hmem)

/-- The server receives something. -/
theorem Echoes.receives (h : Echoes text log s) {n : Nat} (hserver : s.server = .recv i)
    (hn : Receivable n (s.client i).toServer ((s.client i).pc == .ended)) :
    Echoes text (log ++ [.served i ((s.client i).toServer.take n)])
      { s.set i { s.client i with toServer := (s.client i).toServer.drop n } with
        server := .send i
        buf := store zeroed ((s.client i).toServer.take n) } := by
  have hold : s.waiting = i :: s.queue := by
    rw [EchoSys.waiting, hserver]
    rfl
  have hi : i ∈ s.waiting := by
    rw [hold]
    exact List.mem_cons_self
  have hwaits := (h.clients i).waits hi
  -- the end is received only from a client that has ended
  have hpos : n ≠ 0 := by
    intro hzero
    have hended := (hn.2.2 hzero).2
    rcases hwaits.word with ⟨hpc, -⟩ | ⟨hpc, -⟩ <;> rw [hpc] at hended <;> cases hended
  have hsome := hn.take_ne_nil hpos
  obtain ⟨hpc, htext⟩ : (s.client i).pc = .recv ∧ (s.client i).toServer = text i := by
    refine hwaits.word.resolve_left ?_
    rintro ⟨-, hnil⟩
    rw [hnil, List.take_nil] at hsome
    exact hsome rfl
  set data := (s.client i).toServer.take n with hdata
  set s' : EchoSys ι := { s.set i { s.client i with toServer := (s.client i).toServer.drop n } with
    server := .send i
    buf := store zeroed data } with hs'
  have hc : connectedIn (log ++ [.served i data]) = connectedIn log := by
    rw [connectedIn_snoc]
    exact List.append_nil _
  have hs : servedIn (log ++ [.served i data]) = servedIn log ++ [(i, data)] := servedIn_snoc ..
  have hw : s'.waiting = s.queue := rfl
  have hqueued : Queued (log ++ [.served i data]) s' := by
    refine ⟨?_, ?_⟩
    · rw [hc, hs, hw, h.order, hold, List.map_append, List.append_assoc]
      rfl
    · rw [hc]
      exact h.nodup
  have hmem : (i, data) ∈ servedIn (log ++ [.served i data]) := by
    rw [hs]
    exact List.mem_append_right _ (List.mem_singleton_self _)
  have hkeep : ∀ {k d}, (k, d) ∈ servedIn log → (k, d) ∈ servedIn (log ++ [.served i data]) := by
    intro k d hd
    rw [hs]
    exact List.mem_append_left _ hd
  refine ⟨hqueued, suits_set ?_ fun j hj => ?_, ?_, ?_, by simp [hs'], ?_, ?_⟩
  · refine hqueued.suits_held hmem rfl
      ⟨hpc, hwaits.toClient, hwaits.closed, hwaits.reset, hsome, ?_⟩
    exact (List.take_append_drop n _).trans htext
  · have hsuits := h.clients j
    refine ⟨?_, fun hmem => hsuits.waits ?_, ?_, ?_⟩
    · rw [hc]
      exact hsuits.outside
    · rw [hold]
      exact List.mem_cons_of_mem _ hmem
    · intro d _ heq
      exact absurd (EchoServer.send.inj heq).symm hj
    · intro d hd _
      refine hsuits.answered d ?_ (by rw [hserver]; simp)
      rw [hs] at hd
      simpa [hj] using hd
  · rintro k (heq | heq)
    · obtain rfl := EchoServer.send.inj heq
      exact ⟨data, hmem⟩
    · cases heq
  · intro k d heq hd
    obtain rfl := EchoServer.send.inj heq
    rw [hqueued.served_once hd hmem]
  · intro k out hout
    obtain ⟨d, hd, hp⟩ := h.printed k out (by simpa using hout)
    exact ⟨d, hkeep hd, hp⟩
  · intro k hlost
    obtain ⟨d, hd, hp⟩ := h.lost k (by simpa using hlost)
    exact ⟨d, hkeep hd, hp⟩

/-- The server sends what it has received. -/
theorem Echoes.answers (h : Echoes text log s) (hwords : Words text)
    (hserver : s.server = .send i) :
    Echoes text (log ++ [.silent])
      { s.set i { s.client i with toClient := (s.client i).toClient ++ cstr s.buf } with
        server := .close i } := by
  obtain ⟨data, hdata⟩ := h.busy i (.inl hserver)
  have hheld := (h.clients i).held data hdata hserver
  have hbuf : cstr s.buf = data := by
    rw [h.buf i data hserver hdata]
    exact cstr_store_zeroed (nulFree_of_start (hwords i).1 ⟨_, hheld.word⟩)
  have hwaiting : EchoSys.waiting { s.set i
      { s.client i with toClient := (s.client i).toClient ++ cstr s.buf } with
      server := .close i } = s.waiting := by
    rw [EchoSys.waiting, EchoSys.waiting, hserver]
    rfl
  have hqueued := h.toQueued.congr hwaiting
  refine h.silent hwaiting (suits_set ?_ fun j hj => ?_) ?_ (by simp) (by simp)
  · refine hqueued.suits_answered hdata (by simp) ⟨.inl hheld.pc, ?_, hheld.some, hheld.word, ?_⟩
    · simp [hheld.toClient, hbuf]
    · simp [hheld.reset]
  · exact (h.clients j).congr rfl rfl hwaiting (by simp [hserver, hj.symm])
  · rintro k (heq | heq)
    · cases heq
    · obtain rfl := EchoServer.close.inj heq
      exact ⟨data, hdata⟩

/-- The server closes the connection. -/
theorem Echoes.closes (h : Echoes text log s) (hserver : s.server = .close i) :
    Echoes text (log ++ [.silent])
      { s.set i { s.client i with closed := true, reset := (s.client i).toServer != [] } with
        server := .accept } := by
  obtain ⟨data, hdata⟩ := h.busy i (.inr hserver)
  have hans := (h.clients i).answered data hdata (by rw [hserver]; simp)
  have hwaiting : EchoSys.waiting { s.set i
      { s.client i with closed := true, reset := (s.client i).toServer != [] } with
      server := .accept } = s.waiting := by
    rw [EchoSys.waiting, EchoSys.waiting, hserver]
    rfl
  have hqueued := h.toQueued.congr hwaiting
  refine h.silent hwaiting (suits_set ?_ fun j hj => ?_) (by simp) (by simp) (by simp)
  · refine hqueued.suits_answered hdata (by simp)
      ⟨hans.pc, hans.toClient, hans.some, hans.word, ?_⟩
    -- what is unread is what is missing from `data`
    intro hreset heq
    have hword := hans.word
    rw [heq] at hword
    have hnil : (s.client i).toServer = [] := by simpa using hword
    simp [hnil] at hreset
  · exact (h.clients j).congr rfl rfl hwaiting (by simp [hserver])

theorem Echoes.step (h : Echoes text log s) (hwords : Words text)
    (hm : EchoMove text limit s a s' ev) : Echoes text (log ++ ev) s' := by
  rcases hm with ⟨i, hpc⟩ | ⟨i, hpc, hlimit⟩ | ⟨i, hpc⟩ | ⟨i, n, hpc, hn⟩ | ⟨i, hpc, hreset⟩ |
    ⟨i, queue, hserver, hqueue⟩ | hserver | ⟨i, n, hserver, hn⟩ | ⟨i, hserver, hpc⟩ |
    ⟨i, hserver, hpc⟩ | ⟨i, hserver⟩
  · obtain ⟨hno, -⟩ := h.fresh hpc
    exact h.own rfl rfl (h.suits_outside hno (.inr rfl)) (by simp) (by simp)
  · exact h.connects hpc
  · rcases h.stage (h.connected_of_pc (.inl hpc)) with ⟨hw, hwaits⟩ |
      ⟨data, -, ⟨-, hheld⟩ | ⟨-, hans⟩⟩
    · exact h.own rfl rfl (h.suits_waits hw ⟨hwaits.toClient, hwaits.closed, hwaits.reset,
        .inr ⟨rfl, cstr_strcpy zeroed (hwords i).1⟩⟩) (by simp) (by simp)
    · have hpc' := hheld.pc
      rw [hpc] at hpc'
      cases hpc'
    · rcases hans.pc with hpc' | hpc' <;> rw [hpc] at hpc' <;> cases hpc'
  · -- there is something to receive, or the server has closed the connection
    have hmore : (s.client i).toClient ≠ [] ∨ (s.client i).closed = true ∨
        (s.client i).reset = true := by
      by_cases hzero : n = 0
      · have heof := (hn.2.2 hzero).2
        rw [Bool.and_eq_true] at heof
        exact .inr (.inl heof.1)
      · refine .inl ?_
        intro hnil
        have hsome := hn.take_ne_nil hzero
        rw [hnil, List.take_nil] at hsome
        exact hsome rfl
    obtain ⟨data, hdata, hserver, hans⟩ := h.answered_of_pc hpc hmore
    have hpos : n ≠ 0 := fun hzero => hans.some (hans.toClient ▸ (hn.2.2 hzero).1)
    refine h.own rfl rfl (h.suits_answered hdata hserver
      ⟨.inr rfl, hans.toClient, hans.some, hans.word, hans.reset⟩) ?_ (by simp)
    rintro k out heq
    obtain ⟨rfl, rfl⟩ := EchoEvent.printed.inj heq
    have hword : data <+: text i := ⟨_, hans.word⟩
    have hfree := nulFree_of_start (hwords i).1 ((List.take_prefix n data).trans hword)
    have hsome := hn.take_ne_nil hpos
    rw [hans.toClient] at hsome
    rw [hans.toClient, cstr_store_zeroed hfree]
    exact ⟨data, hdata, hsome, List.take_prefix n data⟩
  · obtain ⟨data, hdata, hserver, hans⟩ := h.answered_of_pc hpc (.inr (.inr hreset))
    refine h.own rfl rfl (h.suits_answered hdata hserver
      ⟨.inr rfl, hans.toClient, hans.some, hans.word, hans.reset⟩) (by simp) ?_
    rintro k heq
    obtain rfl := EchoEvent.lost.inj heq
    exact ⟨data, hdata, hans.reset hreset⟩
  · have hwaiting : ({ s with server := .recv i, queue } : EchoSys ι).waiting = s.waiting := by
      rw [EchoSys.waiting, EchoSys.waiting, hserver, hqueue]
      rfl
    refine h.silent hwaiting (fun j => (h.clients j).congr rfl rfl hwaiting ?_) ?_ ?_ ?_
    · rw [hserver]
      simp
    · simp
    · simp
    · simp
  · rwa [List.append_nil]
  · exact h.receives hserver hn
  · -- whoever is served waits for the answer
    obtain ⟨data, hdata⟩ := h.busy i (.inl hserver)
    have hpc' := ((h.clients i).held data hdata hserver).pc
    rw [hpc] at hpc'
    cases hpc'
  · exact h.answers hwords hserver
  · exact h.closes hserver

theorem echoes_of_runs (hwords : Words text)
    (h : Runs (echoStep text limit) anyStep .init log s) : Echoes text log s := by
  refine h.invariant (I := Echoes text) ⟨⟨rfl, List.nodup_nil⟩, fun j => ⟨fun _ => .inl rfl, ?_, ?_,
    ?_⟩, ?_, ?_, ?_, ?_, ?_⟩ ?_
  · exact fun hmem => absurd hmem List.not_mem_nil
  · exact fun _ hmem => absurd hmem List.not_mem_nil
  · exact fun _ hmem => absurd hmem List.not_mem_nil
  · rintro i (heq | heq) <;> cases heq
  · exact fun _ _ heq => absurd heq (by simp [EchoSys.init])
  · simp [EchoSys.init]
  · exact fun _ _ hmem => absurd hmem List.not_mem_nil
  · exact fun _ hmem => absurd hmem List.not_mem_nil
  · intro log s a s' ev _ ih _ hs
    exact ih.step hwords (echoStep_move hs)

/-- The server has received the beginning of a word, and not nothing. -/
theorem Echoes.prefix_of_served (h : Echoes text log s) {data : Bytes}
    (hi : (i, data) ∈ servedIn log) : data ≠ [] ∧ data <+: text i := by
  by_cases hserver : s.server = .send i
  · have hheld := (h.clients i).held data hi hserver
    exact ⟨hheld.some, _, hheld.word⟩
  · have hans := (h.clients i).answered data hi hserver
    exact ⟨hans.some, _, hans.word⟩

/-- For every interleaving and every cut of what is sent: what a client prints is the beginning,
and not empty, of what the server received from it, and that is the beginning of its own word; a
client whose answer is lost sent more than the server received.  Each connection is served once,
in the order in which they were made, and the server is never stopped by one. -/
theorem echoes_own (hwords : Words text) (h : Runs (echoStep text limit) anyStep .init log s) :
    (∀ i out, .printed i out ∈ log →
      ∃ data, (i, data) ∈ servedIn log ∧ out ≠ [] ∧ out <+: data ∧ data <+: text i) ∧
    (∀ i, .lost i ∈ log → ∃ data, (i, data) ∈ servedIn log ∧ data <+: text i ∧ data ≠ text i) ∧
    (servedIn log).map Prod.fst <+: connectedIn log ∧ (connectedIn log).Nodup ∧
    s.server ≠ .exited := by
  have he := echoes_of_runs hwords h
  refine ⟨?_, ?_, ?_, he.nodup, he.alive⟩
  · intro i out hout
    obtain ⟨data, hdata, hne, hpre⟩ := he.printed i out hout
    exact ⟨data, hdata, hne, hpre, (he.prefix_of_served hdata).2⟩
  · intro i hlost
    obtain ⟨data, hdata, hne⟩ := he.lost i hlost
    exact ⟨data, hdata, (he.prefix_of_served hdata).2, hne⟩
  · rw [he.order]
    exact List.prefix_append _ _

/-- Two clients, of which the second one has a longer word. -/
def hiOrHello : Bool → Bytes
  | false => utf8 "hi"
  | true => utf8 "hello"

/-- The server receives one byte of the second word. -/
theorem echoes_own_hello :
    ∃ log s, Runs (echoStep hiOrHello 10) anyStep .init log s ∧ .printed true (utf8 "h") ∈ log ∧
      ∃ data, (true, data) ∈ servedIn log ∧ data <+: utf8 "hello" := by
  obtain ⟨log, s, hrun, hp⟩ : ∃ log s, Runs (echoStep hiOrHello 10) anyStep .init log s ∧
      decide (.printed true (utf8 "h") ∈ log) = true :=
    exists_runs_of_exec [.connect true true, .connect false true, .send true, .accept,
      .serverRecv 1, .serverSend, .serverClose, .recv true 1] _ (by decide)
  have hout := of_decide_eq_true hp
  have hwords : Words hiOrHello := by
    rintro (_ | _) <;> exact ⟨NulFree.of_notMem (by decide), by decide⟩
  obtain ⟨data, hdata, -, -, hpre⟩ := (echoes_own hwords hrun).1 true _ hout
  exact ⟨log, s, hrun, hout, data, hdata, hpre⟩

/-! ## 3. Nobody waits for good, or everybody -/

/-- What a client has still to do, and the server for it until it is accepted. -/
def EchoPc.left : EchoPc → Nat
  | .connect => 7
  | .send => 2
  | .recv => 1
  | .ended => 0

def EchoServer.left : EchoServer ι → Nat
  | .accept | .exited => 0
  | .recv _ => 3
  | .send _ => 2
  | .close _ => 1

def EchoSys.left [Fintype ι] (s : EchoSys ι) : Nat :=
  ∑ i, (s.client i).pc.left + 4 * s.queue.length + s.server.left

/-- A call that is not refused, and no `accept` that fails. -/
def EchoAction.Works (a : EchoAction ι) : Prop := a ≠ .acceptFails ∧ ∀ i, a ≠ .connect i false

/-- Nothing more can happen but that a connection is refused, or that `accept` fails. -/
def Idle (text : ι → Bytes) (limit : Nat) (s : EchoSys ι) : Prop :=
  ∀ a : EchoAction ι, a.Works → echoStep text limit s a = none

theorem sum_left_set [Fintype ι] (s : EchoSys ι) (i : ι) (c : EchoClient) :
    ∑ j, ((s.set i c).client j).pc.left + (s.client i).pc.left =
      ∑ j, (s.client j).pc.left + c.pc.left := by
  rw [← Finset.add_sum_erase _ (fun j => ((s.set i c).client j).pc.left) (Finset.mem_univ i),
    ← Finset.add_sum_erase _ (fun j => (s.client j).pc.left) (Finset.mem_univ i),
    EchoSys.set_client]
  have hrest : ∑ j ∈ Finset.univ.erase i, ((s.set i c).client j).pc.left =
      ∑ j ∈ Finset.univ.erase i, (s.client j).pc.left := by
    refine Finset.sum_congr rfl fun j hj => ?_
    rw [EchoSys.set_client_of_ne s (Finset.ne_of_mem_erase hj)]
  rw [hrest]
  omega

/-- A client that goes on. -/
theorem left_set_less [Fintype ι] (h : c.pc.left < (s.client i).pc.left) :
    (s.set i c).left + 1 ≤ s.left := by
  have hsum := sum_left_set s i c
  simp only [EchoSys.left, EchoSys.set_queue, EchoSys.set_server]
  omega

/-- What the server does to a connection leaves its client where it stands. -/
theorem sum_left_of_pc [Fintype ι] (s : EchoSys ι) (h : c.pc = (s.client i).pc) :
    ∑ j, ((s.set i c).client j).pc.left = ∑ j, (s.client j).pc.left := by
  have hsum := sum_left_set s i c
  rw [h] at hsum
  omega

/-- Every call leaves less to do. -/
theorem EchoMove.less [Fintype ι] (hm : EchoMove text limit s a s' ev) :
    s'.left + ev.length ≤ s.left := by
  rcases hm with ⟨i, hpc⟩ | ⟨i, hpc, hlimit⟩ | ⟨i, hpc⟩ | ⟨i, n, hpc, hn⟩ | ⟨i, hpc, hreset⟩ |
    ⟨i, queue, hserver, hqueue⟩ | hserver | ⟨i, n, hserver, hn⟩ | ⟨i, hserver, hpc⟩ |
    ⟨i, hserver, hpc⟩ | ⟨i, hserver⟩
  · exact left_set_less (by simp [hpc, EchoPc.left])
  · have hsum := sum_left_set s i { s.client i with pc := .send }
    rw [hpc] at hsum
    simp only [EchoSys.left, EchoPc.left, EchoSys.set_server, List.length_append,
      List.length_singleton] at hsum ⊢
    omega
  · exact left_set_less (by simp [hpc, EchoPc.left])
  · exact left_set_less (by simp [hpc, EchoPc.left])
  · exact left_set_less (by simp [hpc, EchoPc.left])
  · simp only [EchoSys.left, EchoServer.left, hserver, hqueue, List.length_cons, List.length_nil]
    omega
  · exact Nat.le_refl _
  · simp only [EchoSys.left, EchoServer.left, EchoSys.set_queue, hserver, List.length_singleton]
    rw [sum_left_of_pc s (by rfl)]
  · simp only [EchoSys.left, EchoServer.left, hserver, List.length_singleton]
    omega
  · simp only [EchoSys.left, EchoServer.left, EchoSys.set_queue, hserver, List.length_singleton]
    rw [sum_left_of_pc s (by rfl)]
  · simp only [EchoSys.left, EchoServer.left, EchoSys.set_queue, hserver, List.length_singleton]
    rw [sum_left_of_pc s (by rfl)]

theorem echo_pays [Fintype ι] {s₀ : EchoSys ι} :
    Pays (echoStep text limit) anyStep s₀ (fun _ => false) EchoSys.left 0 := by
  intro log s a s' ev _ _ hs
  simpa using (echoStep_move hs).less

/-- As long as something can happen, it shows. -/
theorem exists_move (h : ¬ Idle text limit s) :
    ∃ a s' ev, anyStep s a ∧ echoStep text limit s a = some (s', ev) ∧ ev ≠ [] := by
  simp only [Idle, not_forall] at h
  obtain ⟨a, ha, hs⟩ := h
  obtain ⟨⟨s', ev⟩, hs⟩ := Option.ne_none_iff_exists'.mp hs
  refine ⟨a, s', ev, trivial, hs, ?_⟩
  cases echoStep_move hs with
  | acceptFails hserver => exact absurd rfl ha.1
  | _ => exact List.cons_ne_nil _ _

/-- When nothing more can happen, everybody has ended, or the server waits for an empty word. -/
theorem Echoes.idle (h : Echoes text log s) (hidle : Idle text limit s) (hlimit : 0 < limit) :
    (∀ j, (s.client j).pc = .ended) ∨ ∃ i, s.server = .recv i ∧ text i = [] := by
  have hno : ∀ a : EchoAction ι, a.Works → echoStep text limit s a ≠ none → False :=
    fun a ha hs => hs (hidle a ha)
  have hsend : ∀ j, (s.client j).pc ≠ .send := by
    intro j hpc
    exact hno (.send j) (by simp [EchoAction.Works]) (by simp [echoStep, hpc])
  cases hserver : s.server with
  | exited => exact absurd hserver h.alive
  | send i =>
    refine (hno .serverSend (by simp [EchoAction.Works]) ?_).elim
    simp only [echoStep, hserver]
    split <;> simp
  | close i => exact (hno .serverClose (by simp [EchoAction.Works]) (by simp [echoStep, hserver])).elim
  | recv i =>
    refine .inr ⟨i, rfl, ?_⟩
    by_contra hne
    have hw := (h.clients i).waits (by simp [EchoSys.waiting, EchoServer.receives, hserver])
    rcases hw.word with ⟨hpc, -⟩ | ⟨hpc, htext⟩
    · exact hsend i hpc
    · have hlen : 1 ≤ (text i).length := List.length_pos_of_ne_nil hne
      refine hno (.serverRecv 1) (by simp [EchoAction.Works]) ?_
      simp [echoStep, hserver, Receivable, htext, echoSize, hlen]
  | accept =>
    have hqueue : s.queue = [] := by
      rcases hq : s.queue with _ | ⟨i, queue⟩
      · rfl
      · exact (hno .accept (by simp [EchoAction.Works]) (by simp [echoStep, hserver, hq])).elim
    left
    intro j
    cases hpc : (s.client j).pc with
    | ended => rfl
    | send => exact absurd hpc (hsend j)
    | connect =>
      refine (hno (.connect j true) (by simp [EchoAction.Works]) ?_).elim
      simp [echoStep, hpc, hqueue, hlimit]
    | recv =>
      rcases h.stage (h.connected_of_pc (.inr hpc)) with ⟨hw, -⟩ | ⟨data, -, ⟨hs, -⟩ | ⟨-, hans⟩⟩
      · simp [EchoSys.waiting, EchoServer.receives, hserver, hqueue] at hw
      · rw [hserver] at hs
        cases hs
      · have hlen : 1 ≤ data.length := List.length_pos_of_ne_nil hans.some
        refine (hno (.recv j 1) (by simp [EchoAction.Works]) ?_).elim
        simp [echoStep, hpc, Receivable, hans.toClient, echoSize, hlen]

/-- A client with an empty word that has connected never ends. -/
theorem Echoes.not_ended (h : Echoes text log s) (hi : i ∈ connectedIn log) (hnil : text i = []) :
    (s.client i).pc ≠ .ended := by
  intro hpc
  rcases h.stage hi with ⟨-, hw⟩ | ⟨data, hdata, -⟩
  · rcases hw.word with ⟨hpc', -⟩ | ⟨hpc', -⟩ <;> rw [hpc] at hpc' <;> cases hpc'
  · obtain ⟨hne, hpre⟩ := h.prefix_of_served hdata
    rw [hnil] at hpre
    exact hne (List.prefix_nil.mp hpre)

/-- A server that waits for an empty word never gets any further. -/
theorem Echoes.stays (h : Echoes text log s) (hserver : s.server = .recv i) (hnil : text i = [])
    (hm : EchoMove text limit s a s' ev) : s'.server = .recv i := by
  have hwaits := (h.clients i).waits (by simp [EchoSys.waiting, EchoServer.receives, hserver])
  cases hm with
  | refused | connected | send | recv | lost => exact hserver
  | serverRecv j n hserver' hn =>
    obtain rfl := EchoServer.recv.inj (hserver.symm.trans hserver')
    exfalso
    rcases hwaits.word with ⟨hpc, hdata⟩ | ⟨hpc, hdata⟩
    · have hzero : n = 0 := by simpa [hdata] using hn.2.1
      simpa [hpc] using (hn.2.2 hzero).2
    · have hzero : n = 0 := by simpa [hdata, hnil] using hn.2.1
      simpa [hpc] using (hn.2.2 hzero).2
  | accept _ _ hserver' | acceptFails hserver' | exits _ hserver' | serverSend _ hserver'
  | serverClose _ hserver' =>
    rw [hserver] at hserver'
    cases hserver'

theorem waits_for_good (hwords : Words text) (h : Runs (echoStep text limit) anyStep .init log s)
    (hserver : s.server = .recv i) (hnil : text i = []) {log' : List (EchoEvent ι)}
    (h' : Runs (echoStep text limit) anyStep s log' s') : s'.server = .recv i := by
  refine h'.invariant (I := fun _ s => s.server = .recv i) hserver ?_
  intro log' s a s' ev hrun ih _ hs
  exact (echoes_of_runs hwords (h.trans hrun)).stays ih hnil (echoStep_move hs)

/-- Every run of `n` clients has at most `7 * n` calls besides the `accept`s that fail.  When
nothing more can happen all clients have ended, or the server waits for good for the first byte of
an empty word; and all clients have ended whenever nothing more can happen, exactly if no word is
empty. -/
theorem all_end_iff [Fintype ι] (hwords : Words text) (hlimit : 0 < limit) :
    (∀ log s, Runs (echoStep text limit) anyStep .init log s →
      log.length ≤ 7 * Fintype.card ι ∧
      (Idle text limit s → (∀ i, (s.client i).pc = .ended) ∨
        ∃ i, text i = [] ∧ ∀ log' s', Runs (echoStep text limit) anyStep s log' s' →
          s'.server = .recv i)) ∧
    ((∀ log s, Runs (echoStep text limit) anyStep .init log s → Idle text limit s →
      ∀ i, (s.client i).pc = .ended) ↔ ∀ i, text i ≠ []) := by
  refine ⟨?_, ?_, ?_⟩
  · intro log s h
    have hlen := h.length_le echo_pays
    have hinit : (EchoSys.init : EchoSys ι).left = 7 * Fintype.card ι := by
      simp [EchoSys.left, EchoSys.init, EchoPc.left, EchoServer.left, mul_comm]
    refine ⟨by simpa [hinit] using hlen, fun hidle => ?_⟩
    rcases (echoes_of_runs hwords h).idle hidle hlimit with hall | ⟨i, hserver, hnil⟩
    · exact .inl hall
    · exact .inr ⟨i, hnil, fun log' s' h' => waits_for_good hwords h hserver hnil h'⟩
  · intro hall i hnil
    -- the client connects, and the run is led to where nothing more can happen
    have hs : echoStep text limit .init (.connect i true) = some
        ({ EchoSys.init.set i { EchoSys.init.client i with pc := .send } with queue := [i] },
          [.connected i]) := by
      simp [echoStep, EchoSys.init, hlimit]
    have hfirst : Runs (echoStep text limit) anyStep .init [.connected i] _ := Runs.one trivial hs
    obtain ⟨log, s, hrun, hidle⟩ := hfirst.finishes (P := Idle text limit) echo_pays
      fun _ hno => exists_move hno
    have hrun' := hfirst.trans hrun
    have hmem : i ∈ connectedIn ([.connected i] ++ log) := by simp [connectedIn]
    exact (echoes_of_runs hwords hrun').not_ended hmem hnil (hall _ _ hrun' hidle i)
  · intro hne log s hrun hidle
    rcases (echoes_of_runs hwords hrun).idle hidle hlimit with hall | ⟨i, -, hnil⟩
    · exact hall
    · exact absurd hnil (hne i)

end

/-- Three clients with the same word. -/
theorem all_end_iff_threeHi :
    (∀ log s, Runs (echoStep (fun _ : Fin 3 => utf8 "hi") 10) anyStep .init log s →
      log.length ≤ 21) ∧
    ∀ log s, Runs (echoStep (fun _ : Fin 3 => utf8 "hi") 10) anyStep .init log s →
      Idle (fun _ => utf8 "hi") 10 s → ∀ i, (s.client i).pc = .ended := by
  have hhi : NulFree (utf8 "hi") ∧ (utf8 "hi").length < echoSize :=
    ⟨NulFree.of_notMem (by decide), by decide⟩
  have hsome : utf8 "hi" ≠ [] := by decide
  obtain ⟨hbound, hend⟩ := all_end_iff (fun _ : Fin 3 => hhi) (show 0 < 10 by decide)
  exact ⟨fun log s hrun => by simpa using (hbound log s hrun).1, hend.mpr fun _ => hsome⟩

end PosixLab.Programs
