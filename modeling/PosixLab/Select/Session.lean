/-
# A conversation over the select chat server

The clients of `chat_client.c` and the server of `chat_server.c` together.  A client waits with
`select` for its connection and its terminal, shows what it reads, and passes on what is typed;
`q` ends it.  The connections are streams: a read returns any part of what has been written and
not been read, from its start, so what the server reads in one go need not be one line, and what
it writes in one go need not be read in one go.

A step is one call of one program.  The broadcast of a chunk is one write for each receiver, and
the clients go on in between.  A program can be killed at any time, as it is by a write to a
connection whose other end is gone.
-/
import PosixLab.Select.Broadcast

namespace PosixLab.Select

open PosixLab
open PosixLab.Chat (ReadResult)

/-! ## 1. The clients -/

/-- Where a client stands, named after what it does next; `input` is `FD_ISSET(0, &cpy_reads)`. -/
inductive ClientPc
  | connect
  | select
  | read (input : Bool)
  | fgets
  | write (text : Bytes)
  | close
  | ended
deriving DecidableEq

/-- A client, and its connection: what it has written and the server has not read, and what has
been written to it and it has not read. -/
structure ChatClient where
  pc : ClientPc
  toServer : Bytes
  toClient : Bytes
deriving DecidableEq

def ChatClient.init : ChatClient := ⟨.connect, [], []⟩

/-- A call of a client, with what comes of it: whether the server takes the connection, which of
the two descriptors are ready, what has been read (nothing at the end of the stream), and the
line of `fgets`, or NULL. -/
inductive ClientAction
  | connect (taken : Bool)
  | select (received input : Bool)
  | read (bs : Bytes)
  | fgets (line : Option Bytes)
  | write
  | close
  | killed
deriving DecidableEq

/-- What happens in a conversation. -/
inductive ChatEvent (κ : Type*)
  | silent
  | joined (c : κ) (fd : Int)
  | left (c : κ)
  | said (c : κ) (text : Bytes)
  | heard (c : κ) (fd : Int) (bs : Bytes)
  | told (c : κ) (text : Bytes)
  | got (c : κ) (bs : Bytes)
  | typed (c : κ) (line : Bytes)
deriving DecidableEq

variable {κ : Type*}

/-- The two texts that end a client. -/
def IsQuit (line : Bytes) : Prop := cstr line = utf8 "q\n" ∨ cstr line = utf8 "Q\n"

instance : DecidablePred IsQuit := fun _ => inferInstanceAs (Decidable (_ ∨ _))

/-- One step of a client; `stopped` says that the server is gone. -/
def clientStep (stopped : Bool) (c : κ) (x : ChatClient) :
    ClientAction → Option (ChatClient × List (ChatEvent κ))
  | .connect taken =>
    if x.pc = .connect ∧ (taken = true → stopped = false) then
      some ({ x with pc := if taken then .select else .ended }, [.silent])
    else none
  | .select received input =>
    if x.pc = .select ∧ (received = true ∨ input = true) ∧
        (received = true → x.toClient ≠ [] ∨ stopped = true) then
      some ({ x with pc := if received then .read input else .fgets }, [.silent])
    else none
  | .read bs =>
    match x.pc with
    | .read input =>
      if bs = [] then
        if x.toClient = [] ∧ stopped = true then some ({ x with pc := .close }, [.silent])
        else none
      else if bs <+: x.toClient ∧ bs.length < bufSize then
        some ({ x with
          pc := if input then .fgets else .select
          toClient := x.toClient.drop bs.length }, [.got c bs])
      else none
    | _ => none
  | .fgets line =>
    if x.pc = .fgets then
      match line with
      | none => some ({ x with pc := .select }, [.silent])
      | some line =>
        if 0 < line.length ∧ line.length < bufSize then
          if IsQuit line then some ({ x with pc := .close }, [.silent])
          else some ({ x with pc := .write (cstr line) }, [.typed c line])
        else none
    else none
  | .write =>
    match x.pc with
    | .write text =>
      some ({ x with pc := .select, toServer := x.toServer ++ text }, [.said c text])
    | _ => none
  | .close => if x.pc = .close then some ({ x with pc := .ended }, [.silent]) else none
  | .killed => if x.pc = .ended then none else some ({ x with pc := .ended }, [.silent])

/-- The text that a client has still to write. -/
def ClientPc.pending : ClientPc → List Bytes
  | .write text => [text]
  | _ => []

/-- What a client can do. -/
inductive ClientMove (stopped : Bool) (c : κ) (x : ChatClient) :
    ClientAction → ChatClient → List (ChatEvent κ) → Prop
  | connect (taken : Bool) (hpc : x.pc = .connect) (htaken : taken = true → stopped = false) :
      ClientMove stopped c x (.connect taken)
        { x with pc := if taken then .select else .ended } [.silent]
  | goes (a : ClientAction) (pc : ClientPc) (ha : ∀ b, a ≠ .connect b) (hpc : pc ≠ .connect)
      (htext : pc.pending = []) (hfrom : pc = .ended ∨ x.pc ≠ .ended ∧ x.pc.pending = []) :
      ClientMove stopped c x a { x with pc } [.silent]
  | got (bs : Bytes) (input : Bool) (hpc : x.pc = .read input) (hne : bs ≠ [])
      (hbs : bs <+: x.toClient) (hlen : bs.length < bufSize) :
      ClientMove stopped c x (.read bs) { x with
        pc := if input then .fgets else .select
        toClient := x.toClient.drop bs.length } [.got c bs]
  | typed (line : Bytes) (hpc : x.pc = .fgets) :
      ClientMove stopped c x (.fgets (some line)) { x with pc := .write (cstr line) }
        [.typed c line]
  | said (text : Bytes) (hpc : x.pc = .write text) :
      ClientMove stopped c x .write { x with pc := .select, toServer := x.toServer ++ text }
        [.said c text]

theorem clientStep_move {stopped : Bool} {c : κ} {x x' : ChatClient} {a : ClientAction}
    {ev : List (ChatEvent κ)} (h : clientStep stopped c x a = some (x', ev)) :
    ClientMove stopped c x a x' ev := by
  cases a with
  | connect taken =>
    obtain ⟨⟨hpc, htaken⟩, heq⟩ := Option.ite_none_right_eq_some.mp h
    cases heq
    exact .connect taken hpc htaken
  | select received input =>
    obtain ⟨⟨hpc, -⟩, heq⟩ := Option.ite_none_right_eq_some.mp h
    cases heq
    refine .goes _ _ (fun b hb => by cases hb) ?_ ?_ (.inr (by simp [hpc, ClientPc.pending])) <;>
      cases received <;> simp [ClientPc.pending]
  | read bs =>
    simp only [clientStep] at h
    split at h
    · rename_i input hpc
      split at h
      · obtain ⟨-, heq⟩ := Option.ite_none_right_eq_some.mp h
        cases heq
        exact .goes _ _ (fun b hb => by cases hb) (by simp) rfl
          (.inr (by simp [hpc, ClientPc.pending]))
      · rename_i hne
        obtain ⟨⟨hbs, hlen⟩, heq⟩ := Option.ite_none_right_eq_some.mp h
        cases heq
        exact .got bs input hpc hne hbs hlen
    · cases h
  | fgets line =>
    obtain ⟨hpc, heq⟩ := Option.ite_none_right_eq_some.mp h
    cases line with
    | none =>
      cases heq
      exact .goes _ _ (fun b hb => by cases hb) (by simp) rfl
        (.inr (by simp [hpc, ClientPc.pending]))
    | some line =>
      obtain ⟨-, heq⟩ := Option.ite_none_right_eq_some.mp heq
      split at heq <;> cases heq
      · exact .goes _ _ (fun b hb => by cases hb) (by simp) rfl
          (.inr (by simp [hpc, ClientPc.pending]))
      · exact .typed line hpc
  | write =>
    simp only [clientStep] at h
    split at h
    · rename_i text hpc
      cases h
      exact .said text hpc
    · cases h
  | close =>
    obtain ⟨-, heq⟩ := Option.ite_none_right_eq_some.mp h
    cases heq
    exact .goes _ _ (fun b hb => by cases hb) (by simp) rfl (.inl rfl)
  | killed =>
    obtain ⟨-, heq⟩ := Option.ite_none_left_eq_some.mp h
    cases heq
    exact .goes _ _ (fun b hb => by cases hb) (by simp) rfl (.inl rfl)

/-! ## 2. The server and its connections -/

variable [DecidableEq κ]

/-- The server, the writes of its broadcast that are still to be made, the clients, the
connections that have not been accepted, and whose connection a descriptor is. -/
structure Session (κ : Type*) where
  server : SelectServer
  out : List (Int × Bytes)
  clients : κ → ChatClient
  backlog : List κ
  owner : Int → Option κ

def Session.init (inherited : Finset Int) (servSock : Int) (buf : Bytes) : Session κ where
  server := .init inherited servSock buf
  out := []
  clients _ := .init
  backlog := []
  owner _ := none

/-- The server has left its loop, or has been killed. -/
def Session.stopped (s : Session κ) : Bool := s.server.pc = .stopped

/-- A read would not wait, or there is a connection to accept. -/
def Session.readable (s : Session κ) (fd : Int) : Bool :=
  match s.owner fd with
  | some c => (s.clients c).toServer ≠ [] ∨ (s.clients c).pc = .ended
  | none => fd = s.server.servSock ∧ s.backlog ≠ []

/-- A call of the server, the next write of its broadcast, a signal that kills it, or a call of
a client. -/
inductive SessionAction (κ : Type*)
  | server (a : SelectAction)
  | write
  | kill
  | client (c : κ) (a : ClientAction)

/-- The server behind a call. -/
def Session.next (s : Session κ) (a : SelectAction) : Session κ :=
  { s with server := selectNext s.server a, out := (selectStep s.server a).2 }

/-- A call of the server, where the connections allow what it returns. -/
def Session.serve (s : Session κ) : SelectAction → Option (Session κ × List (ChatEvent κ))
  | .select ready =>
    if ∀ fds ∈ ready, ∀ fd ∈ fds, s.readable fd = true then some (s.next (.select ready), [.silent])
    else none
  | .skip => some (s.next .skip, [.silent])
  | .accept clntSock =>
    if clntSock = -1 then some (s.next (.accept clntSock), [.silent])
    else
      match s.backlog with
      | c :: backlog =>
        some ({ s.next (.accept clntSock) with
          backlog
          owner := Function.update s.owner clntSock (some c) }, [.joined c clntSock])
      | [] => none
  | .read r =>
    match s.owner s.server.i with
    | some c =>
      match r with
      | .eof =>
        if (s.clients c).pc = .ended ∧ (s.clients c).toServer = [] then
          some ({ s.next (.read .eof) with owner := Function.update s.owner s.server.i none },
            [.left c])
        else none
      | .error => some (s.next (.read .error), [.silent])
      | .data bs =>
        if bs <+: (s.clients c).toServer then
          some ({ s.next (.read (.data bs)) with
            clients := Function.update s.clients c { s.clients c with
              toServer := (s.clients c).toServer.drop bs.length } },
            [.heard c s.server.i bs])
        else none
    | none => none

/-- One step. -/
def sessionStep (s : Session κ) : SessionAction κ → Option (Session κ × List (ChatEvent κ))
  | .server a => if s.out = [] ∧ Possible s.server a then s.serve a else none
  | .write =>
    if s.stopped then none
    else
      match s.out with
      | (fd, msg) :: out =>
        match s.owner fd with
        | some c =>
          some ({ s with
            out
            clients := Function.update s.clients c { s.clients c with
              toClient := (s.clients c).toClient ++ msg } }, [.told c msg])
        | none => some ({ s with out }, [.silent])
      | [] => none
  | .kill => some ({ s with server := { s.server with pc := .stopped } }, [.silent])
  | .client c a =>
    (clientStep s.stopped c (s.clients c) a).map fun r =>
      ({ s with
        clients := Function.update s.clients c r.1
        backlog := if a = .connect true then s.backlog ++ [c] else s.backlog }, r.2)

/-- A read leaves room for the terminator that is stored behind it. -/
def LeavesRoom : SelectAction → Prop
  | .read (.data bs) => bs.length < bufSize
  | _ => True

instance : DecidablePred LeavesRoom
  | .read (.data _) => inferInstanceAs (Decidable (_ < _))
  | .read .eof | .read .error | .select _ | .skip | .accept _ => inferInstanceAs (Decidable True)

/-- The failures that the server does not look for do not happen, and no read fills its array. -/
def Smooth (s : Session κ) : SessionAction κ → Prop
  | .server a => NoFailure s.server a ∧ LeavesRoom a
  | .write | .kill | .client _ _ => True

instance (s : Session κ) : (a : SessionAction κ) → Decidable (Smooth s a)
  | .server _ => inferInstanceAs (Decidable (_ ∧ _))
  | .write | .kill | .client _ _ => inferInstanceAs (Decidable True)

/-- What a step can do. -/
inductive SessionMove (s : Session κ) :
    SessionAction κ → Session κ → List (ChatEvent κ) → Prop
  | quiet (a : SelectAction) (hout : s.out = []) (hp : Possible s.server a)
      (hq : (selectStep s.server a).2 = [])
      (hconn : (selectNext s.server a).connected = s.server.connected) :
      SessionMove s (.server a) (s.next a) [.silent]
  | joined (c : κ) (backlog : List κ) (fd : Int) (hout : s.out = [])
      (hp : Possible s.server (.accept fd)) (hfd : fd ≠ -1) (hback : s.backlog = c :: backlog) :
      SessionMove s (.server (.accept fd)) { s.next (.accept fd) with
        backlog
        owner := Function.update s.owner fd (some c) } [.joined c fd]
  | left (c : κ) (hout : s.out = []) (hp : Possible s.server (.read .eof))
      (hown : s.owner s.server.i = some c) :
      SessionMove s (.server (.read .eof))
        { s.next (.read .eof) with owner := Function.update s.owner s.server.i none } [.left c]
  | failed (hout : s.out = []) (hp : Possible s.server (.read .error)) :
      SessionMove s (.server (.read .error)) (s.next (.read .error)) [.silent]
  | heard (c : κ) (bs : Bytes) (hout : s.out = []) (hp : Possible s.server (.read (.data bs)))
      (hown : s.owner s.server.i = some c) (hbs : bs <+: (s.clients c).toServer) :
      SessionMove s (.server (.read (.data bs))) { s.next (.read (.data bs)) with
        clients := Function.update s.clients c { s.clients c with
          toServer := (s.clients c).toServer.drop bs.length } }
        [.heard c s.server.i bs]
  | told (c : κ) (fd : Int) (msg : Bytes) (out : List (Int × Bytes))
      (hout : s.out = (fd, msg) :: out) (hown : s.owner fd = some c) :
      SessionMove s .write { s with
        out
        clients := Function.update s.clients c { s.clients c with
          toClient := (s.clients c).toClient ++ msg } } [.told c msg]
  | lost (fd : Int) (msg : Bytes) (out : List (Int × Bytes)) (hout : s.out = (fd, msg) :: out)
      (hown : s.owner fd = none) : SessionMove s .write { s with out } [.silent]
  | kill : SessionMove s .kill { s with server := { s.server with pc := .stopped } } [.silent]
  | client (c : κ) (a : ClientAction) (x : ChatClient) (ev : List (ChatEvent κ))
      (hx : ClientMove s.stopped c (s.clients c) a x ev) :
      SessionMove s (.client c a) { s with
        clients := Function.update s.clients c x
        backlog := if a = .connect true then s.backlog ++ [c] else s.backlog } ev

theorem sessionStep_move {s s' : Session κ} {a : SessionAction κ} {ev : List (ChatEvent κ)}
    (h : sessionStep s a = some (s', ev)) : SessionMove s a s' ev := by
  cases a with
  | server a =>
    obtain ⟨⟨hout, hp⟩, heq⟩ := Option.ite_none_right_eq_some.mp h
    cases a with
    | select ready =>
      obtain ⟨-, heq⟩ := Option.ite_none_right_eq_some.mp heq
      cases heq
      exact .quiet _ hout hp (by cases ready <;> rfl) (by cases ready <;> rfl)
    | skip =>
      cases heq
      exact .quiet _ hout hp rfl rfl
    | accept fd =>
      simp only [Session.serve] at heq
      split at heq
      · rename_i hfd
        cases heq
        exact .quiet _ hout hp rfl (by simp [selectNext, selectStep, hfd])
      · rename_i hfd
        split at heq
        · rename_i c backlog hback
          cases heq
          exact .joined c backlog fd hout hp hfd hback
        · cases heq
    | read r =>
      simp only [Session.serve] at heq
      split at heq
      · rename_i c hown
        split at heq
        · obtain ⟨-, heq⟩ := Option.ite_none_right_eq_some.mp heq
          cases heq
          exact .left c hout hp hown
        · cases heq
          exact .failed hout hp
        · rename_i bs
          obtain ⟨hbs, heq⟩ := Option.ite_none_right_eq_some.mp heq
          cases heq
          exact .heard c bs hout hp hown hbs
      · cases heq
  | write =>
    obtain ⟨-, heq⟩ := Option.ite_none_left_eq_some.mp h
    split at heq
    · rename_i fd msg out hout
      split at heq
      · rename_i c hown
        cases heq
        exact .told c fd msg out hout hown
      · rename_i hown
        cases heq
        exact .lost fd msg out hout hown
    · cases heq
  | kill =>
    cases h
    exact .kill
  | client c a =>
    obtain ⟨⟨x, ev'⟩, hx, heq⟩ := Option.map_eq_some_iff.mp h
    cases heq
    exact .client c a x _ (clientStep_move hx)

end PosixLab.Select
