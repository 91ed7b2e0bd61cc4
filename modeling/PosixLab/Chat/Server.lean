/-
# The chat server: its threads and what they share

The whole of `gui_server.c` as a machine.  The accept loop of `main` allocates a `Client` for
each connection, puts it into the table and starts a handler; each handler answers the first
request, runs the chat loop, and takes itself out of the table.  They share the table, the
mutex, `users.txt`, the `Client` records and the descriptors.

A step is one statement, or one section of statements that the mutex protects: the search for a
second login and the `DISCONNECT` block are one step between their lock and their unlock, the
statements of `process_auth` are those of `authStep`, and each iteration of the loop in
`send_msg` is a step of its own.  What the environment decides comes with the step: the
descriptor that `accept` returns and what `malloc` left in the record, what a `read` returns,
and what the arrays on a stack held before.

A `Client` record is never reused and stays readable after `free`: the table can hold records
of handlers that are gone.  Their descriptors are reused, as the kernel reuses them.
-/
import PosixLab.Chat.ChatLoop
import PosixLab.Chat.Registry
import PosixLab.Chat.Requests

namespace PosixLab.Chat

open PosixLab

/-! ## 1. Threads -/

/-- The thread of `main`, and the handler of each client. -/
inductive Tid
  | main
  | handler (c : Addr)
deriving DecidableEq

/-- Where the accept loop stands; `c` is its `new_clnt`. -/
inductive MainPc
  | accept
  | lock (c : Addr)
  | add (c : Addr)
  | unlock (c : Addr)
  | create (c : Addr)
deriving DecidableEq

/-- The statements of `handle_clnt`, named after what they do next. -/
inductive HandlerPc
  /-- the first read -/
  | read
  /-- the search for a second login with the id -/
  | dupLock
  | dupCheck
  | dupUnlock (alreadyLoggedIn : Bool)
  | dupFail
  /-- the call of `process_auth` -/
  | call
  | auth (f : AuthFrame)
  /-- what its result leads to -/
  | reply (result : Int)
  | setName
  | welcome
  /-- `if (strlen(clnt->name) == 0) goto DISCONNECT` -/
  | gate
  /-- the chat loop -/
  | chatRead
  | joinRoom (newRoom : Int)
  | joinAck (newRoom : Int)
  /-- `send_msg` -/
  | sendLock
  | sendLoop (i : Nat)
  /-- `DISCONNECT` -/
  | discLock
  | discRemove
  | discUnlock
  | close
  | done

/-- A handler: where it stands, its arrays `mode`, `id`, `pw` and `msg`, and `str_len`. -/
structure Handler where
  pc : HandlerPc
  fields : AuthFields
  msg : Bytes
  strLen : Int

/-- A handler that starts; `msg` is whatever its stack holds. -/
def Handler.start (msg : Bytes) : Handler := ⟨.read, ⟨[], [], []⟩, msg, 0⟩

/-! ## 2. What they share -/

/-- The record of a client.  `name` is the array `name[20]`. -/
structure Client where
  sock : Int
  name : Bytes
  room : Int

/-- The state of the server.  `fds` is the connection behind each open descriptor, `next` the
next record `malloc` returns, and `sends` the number of times `send_msg` was entered, which the
program does not keep. -/
structure Server where
  heap : Addr → Client
  next : Nat
  fds : Int → Option Addr
  reg : Registry
  mutx : Option Tid
  users : Option Bytes
  sends : Nat
  main : MainPc
  handlers : Addr → Option Handler

namespace Server

/-- A server that starts, with whatever `users.txt` there is. -/
def init (users : Option Bytes) : Server where
  heap := fun _ => ⟨-1, [], 0⟩
  next := 0
  fds := fun _ => none
  reg := .empty
  mutx := none
  users := users
  sends := 0
  main := .accept
  handlers := fun _ => none

/-- The socket of a client. -/
def sockOf (s : Server) (c : Addr) : Int := (s.heap c).sock

/-- The name of a client, as the C string it is. -/
def nameOf (s : Server) (c : Addr) : Bytes := cstr (s.heap c).name

end Server

/-- What a step does to the shared state. -/
inductive Effect
  | sync (y : Sync)
  /-- the `lock` of `send_msg` -/
  | enterSend
  /-- `accept` and `malloc` -/
  | accept (sock : Int) (name : Bytes)
  | add (c : Addr)
  /-- `pthread_create` -/
  | create (c : Addr) (msg : Bytes)
  | setName (c : Addr) (name : Bytes)
  | setRoom (c : Addr) (room : Int)
  | remove (c : Addr)
  | close (c : Addr)

/-- The effect of a step of thread `t`; `none` while the mutex it wants is held. -/
def Server.apply (s : Server) (t : Tid) : Effect → Option Server
  | .sync .skip => some s
  | .sync .lock => if s.mutx = none then some { s with mutx := some t } else none
  | .sync .unlock => some { s with mutx := none }
  | .sync (.users content) => some { s with users := some content }
  | .enterSend =>
    if s.mutx = none then some { s with mutx := some t, sends := s.sends + 1 } else none
  | .accept sock name =>
    some { s with
      heap := Function.update s.heap s.next ⟨sock, name, 0⟩
      next := s.next + 1
      fds := if 0 ≤ sock then Function.update s.fds sock (some s.next) else s.fds }
  | .add c => some { s with reg := s.reg.add c }
  | .create c msg =>
    some { s with handlers := Function.update s.handlers c (some (.start msg)) }
  | .setName c name =>
    some { s with heap :=
      Function.update s.heap c { s.heap c with name := strcpy (s.heap c).name name } }
  | .setRoom c room =>
    some { s with heap := Function.update s.heap c { s.heap c with room := room } }
  | .remove c => some { s with reg := s.reg.remove s.sockOf (s.sockOf c) }
  | .close c =>
    some { s with fds :=
      if 0 ≤ s.sockOf c then Function.update s.fds (s.sockOf c) none else s.fds }

/-- What can be seen of a run: the first request of a connection, what its handler writes to
it, a login with its name stored, the entry into the chat loop, the calls of `send_msg` with
their number, and departures. -/
inductive Event
  | request (c : Addr) (bs : Bytes)
  | write (c : Addr) (bs : Bytes)
  | login (c : Addr)
  | enter (c : Addr)
  /-- `c` starts call `k`, with the slots in use and what it is going to write -/
  | enterSend (k : Nat) (c : Addr) (entries : List Addr) (bs : Bytes)
  /-- an iteration of call `k` looks at the entry `e` -/
  | examine (k : Nat) (e : Addr) (name : Bytes) (room senderRoom : Int)
  /-- call `k` writes to the entry `e`, whose descriptor belongs to the connection `conn` -/
  | deliver (k : Nat) (e : Addr) (conn : Option Addr) (bs : Bytes)
  | leaveSend (k : Nat) (entries : List Addr)
  | disconnect (c : Addr)
deriving DecidableEq

/-! ## 3. The accept loop -/

/-- What the environment adds to a step of `main`. -/
inductive MainInput
  | go
  | accept (sock : Int) (name : Bytes)
  | stack (msg : Bytes)

/-- A step of `main`.  `accept` returns a descriptor that is not open, or -1. -/
def mainStep (s : Server) : MainInput → Option (MainPc × Effect)
  | .accept sock name =>
    if s.main = .accept ∧ (sock = -1 ∨ 0 ≤ sock ∧ s.fds sock = none) ∧ name.length = 20 then
      some (.lock s.next, .accept sock name)
    else none
  | .stack msg =>
    match s.main with
    | .create c => if msg.length = bufSize then some (.accept, .create c msg) else none
    | _ => none
  | .go =>
    match s.main with
    | .lock c => some (.add c, .sync .lock)
    | .add c => some (.unlock c, .add c)
    | .unlock c => some (.create c, .sync .unlock)
    | _ => none

/-! ## 4. The handlers -/

/-- What the environment adds to a step of a handler: what a read returns, and what the arrays
of the stack frame hold before. -/
inductive Input
  | go
  | request (r : Option Bytes) (old : AuthFields)
  | arrays (fileId filePw : Bytes)
  | chat (r : ReadResult)

/-- Whether the search for a second login finds one. -/
def Server.alreadyLoggedIn (s : Server) (c : Addr) (id : Bytes) : Bool :=
  s.reg.live.any fun d => s.sockOf d != s.sockOf c && s.nameOf d == id

/-- The text of a refusal. -/
def failText (mode : Bytes) (result : Int) : Bytes :=
  if mode = REGISTER then utf8 "실패: 이미 존재하는 아이디입니다."
  else if result = -2 then utf8 "실패: 존재하지 않는 아이디입니다."
  else utf8 "실패: 비밀번호가 틀렸습니다."

/-- Whether `read` on the socket of `c` can return this: not more bytes than the array has
room for, and nothing but -1 from a descriptor that is none. -/
def Server.CanRead (s : Server) (c : Addr) (size : Nat) : ReadResult → Prop
  | .error => True
  | .eof => 0 ≤ s.sockOf c
  | .data bs => 0 ≤ s.sockOf c ∧ bs ≠ [] ∧ bs.length ≤ size

instance (s : Server) (c : Addr) (size : Nat) : (r : ReadResult) → Decidable (s.CanRead c size r)
  | .error => inferInstanceAs (Decidable True)
  | .eof => inferInstanceAs (Decidable (0 ≤ s.sockOf c))
  | .data _ => inferInstanceAs (Decidable (_ ∧ _ ∧ _))

/-- Whether the condition in the loop of `send_msg` holds of the entry `e`. -/
def Server.inRoom (s : Server) (c e : Addr) : Bool :=
  s.nameOf e != [] && (s.heap e).room == (s.heap c).room

/-- What the call of `send_msg` in a handler's frame writes. -/
def Server.payloadOf (s : Server) (c : Addr) (h : Handler) : Bytes :=
  payload (s.nameOf c) h.msg h.strLen

/-- A statement that only moves on. -/
def Handler.goto (h : Handler) (pc : HandlerPc) (ev : List Event) :
    Option (Handler × Effect × List Event) :=
  some ({ h with pc := pc }, .sync .skip, ev)

/-- A step of the handler of `c`. -/
def handlerStep (s : Server) (c : Addr) (h : Handler) :
    Input → Option (Handler × Effect × List Event)
  | .request r old =>
    match h.pc, r with
    | .read, none => h.goto .gate []
    | .read, some bs =>
      if s.CanRead c (bufSize - 1) (.data bs) ∧ old.Strings then
        let x := decode bs old
        some ({ h with pc := if x.mode = LOGIN then .dupLock else .call, fields := x },
          .sync .skip, [.request c bs])
      else none
    | _, _ => none
  | .arrays fileId filePw =>
    match h.pc with
    | .call => h.goto (.auth (.call h.fields.mode h.fields.id h.fields.pw fileId filePw)) []
    | _ => none
  | .chat r =>
    match h.pc with
    | .chatRead =>
      if s.CanRead c bufSize r then
        match receive h.msg r with
        | none => h.goto .discLock []
        | some (msg, strLen) =>
          match dispatch msg with
          | .ignore => some (⟨.chatRead, h.fields, msg, strLen⟩, .sync .skip, [])
          | .join n => some (⟨.joinRoom n, h.fields, msg, strLen⟩, .sync .skip, [])
          | .broadcast => some (⟨.sendLock, h.fields, msg, strLen⟩, .sync .skip, [])
      else none
    | _ => none
  | .go =>
    match h.pc with
    | .dupLock => some ({ h with pc := .dupCheck }, .sync .lock, [])
    | .dupCheck => h.goto (.dupUnlock (s.alreadyLoggedIn c h.fields.id)) []
    | .dupUnlock b =>
      some ({ h with pc := if b = true then .dupFail else .call }, .sync .unlock, [])
    | .dupFail => h.goto .discLock [.write c (utf8 "실패: 이미 접속중인 아이디입니다.")]
    | .auth f =>
      match authStep s.users f with
      | (.inl f', y) => some ({ h with pc := .auth f' }, .sync y, [])
      | (.inr r, y) => some ({ h with pc := .reply r }, .sync y, [])
    | .reply r =>
      if r = 0 then
        h.goto (if h.fields.mode = LOGIN then .setName else .gate) [.write c (utf8 "OK")]
      else h.goto .discLock [.write c (failText h.fields.mode r)]
    | .setName =>
      some ({ h with pc := .welcome }, .setName c h.fields.id, [.login c])
    | .welcome =>
      let text := welcomeText (s.nameOf c)
      some ({ h with pc := .gate, msg := strcpy h.msg text }, .sync .skip, [.write c text])
    | .gate =>
      if s.nameOf c = [] then h.goto .discLock [] else h.goto .chatRead [.enter c]
    | .joinRoom n => some ({ h with pc := .joinAck n }, .setRoom c n, [])
    | .joinAck n =>
      some ({ h with pc := .chatRead, msg := strcpy h.msg (joinText n) }, .sync .skip,
        [.write c (joinText n)])
    | .sendLock =>
      some ({ h with pc := .sendLoop 0 }, .enterSend,
        [.enterSend (s.sends + 1) c s.reg.live (s.payloadOf c h)])
    | .sendLoop i =>
      if (i : Int) < s.reg.clntCnt then
        let e := s.reg.clntList i
        h.goto (.sendLoop (i + 1))
          (.examine s.sends e (s.nameOf e) (s.heap e).room (s.heap c).room ::
            if s.inRoom c e = true then
              [.deliver s.sends e (s.fds (s.sockOf e)) (s.payloadOf c h)]
            else [])
      else
        some ({ h with pc := .chatRead }, .sync .unlock, [.leaveSend s.sends s.reg.live])
    | .discLock => some ({ h with pc := .discRemove }, .sync .lock, [])
    | .discRemove => some ({ h with pc := .discUnlock }, .remove c, [.disconnect c])
    | .discUnlock => some ({ h with pc := .close }, .sync .unlock, [])
    -- `free(clnt)` follows; the record stays readable
    | .close => some ({ h with pc := .done }, .close c, [])
    | _ => none

/-! ## 5. The machine -/

/-- The scheduler gives a step to `main` or to a handler. -/
inductive Action
  | main (x : MainInput)
  | handler (c : Addr) (x : Input)

/-- One step of the server. -/
def serverStep (s : Server) : Action → Option (Server × List Event)
  | .main x =>
    match mainStep s x with
    | none => none
    | some (pc, e) => (s.apply .main e).map fun s' => ({ s' with main := pc }, [])
  | .handler c x =>
    match s.handlers c with
    | none => none
    | some h =>
      match handlerStep s c h x with
      | none => none
      | some (h', e, ev) =>
        (s.apply (.handler c) e).map fun s' =>
          ({ s' with handlers := Function.update s'.handlers c (some h') }, ev)

/-! ## 6. What a step can be -/

/-- Each step of a handler: its guard, the frame after it, its effect and its events. -/
inductive Move (s : Server) (c : Addr) (h : Handler) :
    Input → Handler → Effect → List Event → Prop
  | readFails (old : AuthFields) (hpc : h.pc = .read) :
      Move s c h (.request none old) { h with pc := .gate } (.sync .skip) []
  | read (bs : Bytes) (old : AuthFields) (hpc : h.pc = .read)
      (hread : s.CanRead c (bufSize - 1) (.data bs)) (hold : old.Strings) :
      Move s c h (.request (some bs) old)
        { h with
          pc := if (decode bs old).mode = LOGIN then .dupLock else .call
          fields := decode bs old } (.sync .skip) [.request c bs]
  | dupLock (hpc : h.pc = .dupLock) : Move s c h .go { h with pc := .dupCheck } (.sync .lock) []
  | dupCheck (hpc : h.pc = .dupCheck) :
      Move s c h .go { h with pc := .dupUnlock (s.alreadyLoggedIn c h.fields.id) } (.sync .skip) []
  | dupUnlock (b : Bool) (hpc : h.pc = .dupUnlock b) :
      Move s c h .go { h with pc := if b = true then .dupFail else .call } (.sync .unlock) []
  | dupFail (hpc : h.pc = .dupFail) :
      Move s c h .go { h with pc := .discLock } (.sync .skip)
        [.write c (utf8 "실패: 이미 접속중인 아이디입니다.")]
  | call (fileId filePw : Bytes) (hpc : h.pc = .call) :
      Move s c h (.arrays fileId filePw)
        { h with pc := .auth (.call h.fields.mode h.fields.id h.fields.pw fileId filePw) }
        (.sync .skip) []
  | auth (f f' : AuthFrame) (y : Sync) (hpc : h.pc = .auth f)
      (hstep : authStep s.users f = (.inl f', y)) :
      Move s c h .go { h with pc := .auth f' } (.sync y) []
  | authReturn (f : AuthFrame) (r : Int) (y : Sync) (hpc : h.pc = .auth f)
      (hstep : authStep s.users f = (.inr r, y)) :
      Move s c h .go { h with pc := .reply r } (.sync y) []
  | replyOk (hpc : h.pc = .reply 0) :
      Move s c h .go { h with pc := if h.fields.mode = LOGIN then .setName else .gate }
        (.sync .skip) [.write c (utf8 "OK")]
  | replyFail (r : Int) (hpc : h.pc = .reply r) (hr : r ≠ 0) :
      Move s c h .go { h with pc := .discLock } (.sync .skip) [.write c (failText h.fields.mode r)]
  | setName (hpc : h.pc = .setName) :
      Move s c h .go { h with pc := .welcome } (.setName c h.fields.id) [.login c]
  | welcome (hpc : h.pc = .welcome) :
      Move s c h .go { h with pc := .gate, msg := strcpy h.msg (welcomeText (s.nameOf c)) }
        (.sync .skip) [.write c (welcomeText (s.nameOf c))]
  | gateShut (hpc : h.pc = .gate) (hname : s.nameOf c = []) :
      Move s c h .go { h with pc := .discLock } (.sync .skip) []
  | gateOpen (hpc : h.pc = .gate) (hname : s.nameOf c ≠ []) :
      Move s c h .go { h with pc := .chatRead } (.sync .skip) [.enter c]
  | chatEnd (r : ReadResult) (hpc : h.pc = .chatRead) :
      Move s c h (.chat r) { h with pc := .discLock } (.sync .skip) []
  | chatIgnore (r : ReadResult) (msg : Bytes) (strLen : Int) (hpc : h.pc = .chatRead) :
      Move s c h (.chat r) ⟨.chatRead, h.fields, msg, strLen⟩ (.sync .skip) []
  | chatJoin (r : ReadResult) (n : Int) (msg : Bytes) (strLen : Int) (hpc : h.pc = .chatRead) :
      Move s c h (.chat r) ⟨.joinRoom n, h.fields, msg, strLen⟩ (.sync .skip) []
  | chatText (r : ReadResult) (msg : Bytes) (strLen : Int) (hpc : h.pc = .chatRead)
      (hread : receive h.msg r = some (msg, strLen)) :
      Move s c h (.chat r) ⟨.sendLock, h.fields, msg, strLen⟩ (.sync .skip) []
  | joinRoom (n : Int) (hpc : h.pc = .joinRoom n) :
      Move s c h .go { h with pc := .joinAck n } (.setRoom c n) []
  | joinAck (n : Int) (hpc : h.pc = .joinAck n) :
      Move s c h .go { h with pc := .chatRead, msg := strcpy h.msg (joinText n) } (.sync .skip)
        [.write c (joinText n)]
  | sendLock (hpc : h.pc = .sendLock) :
      Move s c h .go { h with pc := .sendLoop 0 } .enterSend
        [.enterSend (s.sends + 1) c s.reg.live (s.payloadOf c h)]
  | sendNext (i : Nat) (e : Addr) (hpc : h.pc = .sendLoop i) (hi : (i : Int) < s.reg.clntCnt)
      (he : e = s.reg.clntList i) :
      Move s c h .go { h with pc := .sendLoop (i + 1) } (.sync .skip)
        (.examine s.sends e (s.nameOf e) (s.heap e).room (s.heap c).room ::
          if s.inRoom c e = true then
            [.deliver s.sends e (s.fds (s.sockOf e)) (s.payloadOf c h)]
          else [])
  | sendEnd (i : Nat) (hpc : h.pc = .sendLoop i) (hi : s.reg.clntCnt ≤ i) :
      Move s c h .go { h with pc := .chatRead } (.sync .unlock) [.leaveSend s.sends s.reg.live]
  | discLock (hpc : h.pc = .discLock) :
      Move s c h .go { h with pc := .discRemove } (.sync .lock) []
  | discRemove (hpc : h.pc = .discRemove) :
      Move s c h .go { h with pc := .discUnlock } (.remove c) [.disconnect c]
  | discUnlock (hpc : h.pc = .discUnlock) :
      Move s c h .go { h with pc := .close } (.sync .unlock) []
  | close (hpc : h.pc = .close) : Move s c h .go { h with pc := .done } (.close c) []

theorem Move.of_request {s : Server} {c : Addr} {h h' : Handler} {e : Effect} {ev : List Event}
    {r : Option Bytes} {old : AuthFields}
    (hs : handlerStep s c h (.request r old) = some (h', e, ev)) :
    Move s c h (.request r old) h' e ev := by
  cases hpc : h.pc with
  | read =>
    cases r with
    | none =>
      simp only [handlerStep, hpc] at hs
      cases hs
      exact .readFails old hpc
    | some bs =>
      simp only [handlerStep, hpc] at hs
      split at hs
      · rename_i hguard
        cases hs
        exact .read bs old hpc hguard.1 hguard.2
      · cases hs
  | _ => simp [handlerStep, hpc] at hs

theorem Move.of_chat {s : Server} {c : Addr} {h h' : Handler} {e : Effect} {ev : List Event}
    {r : ReadResult} (hs : handlerStep s c h (.chat r) = some (h', e, ev)) :
    Move s c h (.chat r) h' e ev := by
  cases hpc : h.pc with
  | chatRead =>
    simp only [handlerStep, hpc] at hs
    split at hs
    · cases hr : receive h.msg r with
      | none =>
        simp only [hr] at hs
        cases hs
        exact .chatEnd r hpc
      | some m =>
        obtain ⟨msg, strLen⟩ := m
        cases hd : dispatch msg with
        | ignore =>
          simp only [hr, hd] at hs
          cases hs
          exact .chatIgnore r msg strLen hpc
        | join n =>
          simp only [hr, hd] at hs
          cases hs
          exact .chatJoin r n msg strLen hpc
        | broadcast =>
          simp only [hr, hd] at hs
          cases hs
          exact .chatText r msg strLen hpc hr
    · cases hs
  | _ => simp [handlerStep, hpc] at hs

theorem Move.of_go {s : Server} {c : Addr} {h h' : Handler} {e : Effect} {ev : List Event}
    (hs : handlerStep s c h .go = some (h', e, ev)) : Move s c h .go h' e ev := by
  cases hpc : h.pc with
  | dupLock =>
    simp only [handlerStep, hpc] at hs
    cases hs
    exact .dupLock hpc
  | dupCheck =>
    simp only [handlerStep, hpc] at hs
    cases hs
    exact .dupCheck hpc
  | dupUnlock b =>
    simp only [handlerStep, hpc] at hs
    cases hs
    exact .dupUnlock b hpc
  | dupFail =>
    simp only [handlerStep, hpc] at hs
    cases hs
    exact .dupFail hpc
  | auth f =>
    simp only [handlerStep, hpc] at hs
    split at hs
    · rename_i hstep
      cases hs
      exact .auth f _ _ hpc hstep
    · rename_i hstep
      cases hs
      exact .authReturn f _ _ hpc hstep
  | reply r =>
    simp only [handlerStep, hpc] at hs
    split at hs
    · rename_i hr
      subst hr
      cases hs
      exact .replyOk hpc
    · rename_i hr
      cases hs
      exact .replyFail r hpc hr
  | setName =>
    simp only [handlerStep, hpc] at hs
    cases hs
    exact .setName hpc
  | welcome =>
    simp only [handlerStep, hpc] at hs
    cases hs
    exact .welcome hpc
  | gate =>
    simp only [handlerStep, hpc] at hs
    split at hs
    · rename_i hname
      cases hs
      exact .gateShut hpc hname
    · rename_i hname
      cases hs
      exact .gateOpen hpc hname
  | joinRoom n =>
    simp only [handlerStep, hpc] at hs
    cases hs
    exact .joinRoom n hpc
  | joinAck n =>
    simp only [handlerStep, hpc] at hs
    cases hs
    exact .joinAck n hpc
  | sendLock =>
    simp only [handlerStep, hpc] at hs
    cases hs
    exact .sendLock hpc
  | sendLoop i =>
    simp only [handlerStep, hpc] at hs
    split at hs
    · rename_i hi
      cases hs
      exact .sendNext i _ hpc hi rfl
    · rename_i hi
      cases hs
      exact .sendEnd i hpc (by omega)
  | discLock =>
    simp only [handlerStep, hpc] at hs
    cases hs
    exact .discLock hpc
  | discRemove =>
    simp only [handlerStep, hpc] at hs
    cases hs
    exact .discRemove hpc
  | discUnlock =>
    simp only [handlerStep, hpc] at hs
    cases hs
    exact .discUnlock hpc
  | close =>
    simp only [handlerStep, hpc] at hs
    cases hs
    exact .close hpc
  | read | call | chatRead | done => simp [handlerStep, hpc] at hs

theorem handlerStep_move {s : Server} {c : Addr} {h h' : Handler} {e : Effect}
    {ev : List Event} {x : Input} (hs : handlerStep s c h x = some (h', e, ev)) :
    Move s c h x h' e ev := by
  cases x with
  | request r old => exact .of_request hs
  | chat r => exact .of_chat hs
  | go => exact .of_go hs
  | arrays fileId filePw =>
    cases hpc : h.pc with
    | call =>
      simp only [handlerStep, hpc] at hs
      cases hs
      exact .call fileId filePw hpc
    | _ => simp [handlerStep, hpc] at hs

/-- Each step of `main`. -/
inductive MainMove (s : Server) : MainInput → MainPc → Effect → Prop
  | accept (sock : Int) (name : Bytes) (hpc : s.main = .accept)
      (hsock : sock = -1 ∨ 0 ≤ sock ∧ s.fds sock = none) (hname : name.length = 20) :
      MainMove s (.accept sock name) (.lock s.next) (.accept sock name)
  | lock (c : Addr) (hpc : s.main = .lock c) : MainMove s .go (.add c) (.sync .lock)
  | add (c : Addr) (hpc : s.main = .add c) : MainMove s .go (.unlock c) (.add c)
  | unlock (c : Addr) (hpc : s.main = .unlock c) : MainMove s .go (.create c) (.sync .unlock)
  | create (c : Addr) (msg : Bytes) (hpc : s.main = .create c) :
      MainMove s (.stack msg) .accept (.create c msg)

theorem mainStep_move {s : Server} {x : MainInput} {pc : MainPc} {e : Effect}
    (hs : mainStep s x = some (pc, e)) : MainMove s x pc e := by
  cases x with
  | accept sock name =>
    simp only [mainStep] at hs
    split at hs
    · rename_i h
      cases hs
      exact .accept sock name h.1 h.2.1 h.2.2
    · cases hs
  | stack msg =>
    cases hpc : s.main with
    | create c =>
      simp only [mainStep, hpc] at hs
      split at hs
      · cases hs
        exact .create c msg hpc
      · cases hs
    | _ => simp [mainStep, hpc] at hs
  | go =>
    cases hpc : s.main with
    | lock c =>
      simp only [mainStep, hpc] at hs
      cases hs
      exact .lock c hpc
    | add c =>
      simp only [mainStep, hpc] at hs
      cases hs
      exact .add c hpc
    | unlock c =>
      simp only [mainStep, hpc] at hs
      cases hs
      exact .unlock c hpc
    | accept => simp [mainStep, hpc] at hs
    | create c => simp [mainStep, hpc] at hs

/-- A step of the server is a step of `main`, or of one handler, with its effect. -/
inductive StepOf (s : Server) : Action → Server → List Event → Prop
  | main {x : MainInput} {pc : MainPc} {e : Effect} {s₁ : Server} (hm : MainMove s x pc e)
      (he : s.apply .main e = some s₁) : StepOf s (.main x) { s₁ with main := pc } []
  | handler {c : Addr} {x : Input} {h h' : Handler} {e : Effect} {ev : List Event} {s₁ : Server}
      (hh : s.handlers c = some h) (hm : Move s c h x h' e ev)
      (he : s.apply (.handler c) e = some s₁) :
      StepOf s (.handler c x)
        { s₁ with handlers := Function.update s₁.handlers c (some h') } ev

/-- A step of a handler, taken apart. -/
theorem serverStep_handler {s s' : Server} {c : Addr} {x : Input} {ev : List Event}
    (hs : serverStep s (.handler c x) = some (s', ev)) :
    ∃ h h' e s₁, s.handlers c = some h ∧ handlerStep s c h x = some (h', e, ev) ∧
      s.apply (.handler c) e = some s₁ ∧
      s' = { s₁ with handlers := Function.update s₁.handlers c (some h') } := by
  simp only [serverStep] at hs
  split at hs
  · cases hs
  · rename_i h hh
    split at hs
    · cases hs
    · rename_i h' e ev' hm
      obtain ⟨s₁, he, hq⟩ := Option.map_eq_some_iff.mp hs
      cases hq
      exact ⟨h, h', e, s₁, hh, hm, he, rfl⟩

theorem serverStep_stepOf {s s' : Server} {a : Action} {ev : List Event}
    (hs : serverStep s a = some (s', ev)) : StepOf s a s' ev := by
  cases a with
  | main x =>
    simp only [serverStep] at hs
    split at hs
    · cases hs
    · rename_i pc e hm
      obtain ⟨s₁, he, h⟩ := Option.map_eq_some_iff.mp hs
      cases h
      exact .main (mainStep_move hm) he
  | handler c x =>
    obtain ⟨h, h', e, s₁, hh, hm, he, rfl⟩ := serverStep_handler hs
    exact .handler hh (handlerStep_move hm) he

/-! ## 7. Actions in a row

The actions of a thread that nobody disturbs, to build runs from. -/

/-- `main` accepts a connection on the descriptor `sock` and starts its handler; `name` is what
`malloc` left in the record. -/
def connects (sock : Int) (name : Bytes) : List Action :=
  [.main (.accept sock name), .main .go, .main .go, .main .go,
    .main (.stack (List.replicate bufSize 0))]

/-- `n` statements of the handler of `c`. -/
def goesOn (c : Addr) (n : Nat) : List Action := List.replicate n (.handler c .go)

/-- The handler of `c` reads a login into empty arrays, searches for a second one, and calls
`process_auth`, which takes `n` statements. -/
def logsIn (c : Addr) (text : String) (n : Nat) : List Action :=
  .handler c (.request (some (utf8 text)) ⟨[], [], []⟩) ::
    (goesOn c 3 ++ .handler c (.arrays [] []) :: goesOn c n)

/-- The handler of `c` reads a text and goes on for `n` statements. -/
def hears (c : Addr) (text : String) (n : Nat) : List Action :=
  .handler c (.chat (.data (utf8 text))) :: goesOn c n

end PosixLab.Chat
