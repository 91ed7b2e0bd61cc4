/-
# What the chat loop makes of a read

The part of `handle_clnt` behind the login is the loop

    while ((str_len = read(clnt->sock, msg, sizeof(msg))) != 0) { .. }

whose body terminates the bytes that were read, and then looks at them: a text that starts with
`/` is a command, of which only `/join` does anything, and everything else is broadcast to the
sender's room by `send_msg`.  The module has the pieces of that body that depend on the buffer
alone; `Chat.Server` puts them into the threads of the server and `Chat.Segments` runs the loop
for one connection.
-/
import PosixLab.Basis.Decimal

namespace PosixLab.Chat

open PosixLab

/-! ## 1. The buffer -/

/-- The size of `msg` and of `auth_buf`. -/
def bufSize : Nat := 1024

/-- What a `read` returns: nothing at the end of the stream, -1, or some bytes. -/
inductive ReadResult
  | eof
  | error
  | data (bs : Bytes)
deriving DecidableEq

/-- The array `msg` and the variable `str_len` behind a read that keeps the loop going:
`msg[str_len] = 0` puts a NUL behind the bytes.  After an error `str_len` is -1 and the array is
as it was, the NUL being written in front of it. -/
def receive (msg : Bytes) : ReadResult → Option (Bytes × Int)
  | .eof => none
  | .error => some (msg, -1)
  | .data bs => some (store msg (bs ++ [0]), bs.length)

/-! ## 2. Commands -/

/-- What the loop does with a buffer. -/
inductive ChatCmd
  /-- a command other than `/join` -/
  | ignore
  | join (newRoom : Int)
  | broadcast
deriving DecidableEq

/-- The two tests of the loop: `msg[0] == '/'` and `strncmp(msg, "/join", 5) == 0`, and the
number read by `atoi(msg + 6)`. -/
def dispatch (msg : Bytes) : ChatCmd :=
  if msg.head? = some 47 then
    if utf8 "/join" <+: cstr msg then .join (atoi (cstr (msg.drop 6))) else .ignore
  else .broadcast

/-- The text that acknowledges a `/join`. -/
def joinText (newRoom : Int) : Bytes :=
  utf8 ">>> 서버: " ++ decimal newRoom ++ utf8 "번 방으로 이동했습니다.\n"

/-- The text that greets a user. -/
def welcomeText (name : Bytes) : Bytes :=
  utf8 ">>> 서버: 환영합니다 " ++ name ++ utf8 "님! (로비 입장)\n"

/-! ## 3. Broadcasts -/

/-- What `send_msg` writes to each receiver: a file announcement as it came, and any other
text behind the name of the sender. -/
def payload (name msg : Bytes) (strLen : Int) : Bytes :=
  if utf8 "[FILE]" <+: cstr msg then msg.take strLen.toNat
  else utf8 "[" ++ name ++ utf8 "] " ++ cstr msg

/-! ## 4. A read is what the buffer holds -/

/-- After a read the buffer is the bytes of that read, as a C string. -/
theorem cstr_receive (msg : Bytes) {bs : Bytes} (h : NulFree bs) :
    cstr (store msg (bs ++ [0])) = bs := cstr_strcpy msg h

theorem take_receive (msg bs : Bytes) : (store msg (bs ++ [0])).take bs.length = bs := by
  simp [store]

/-- The broadcast of a text: its bytes, and nothing that was in the buffer before. -/
theorem payload_receive (name msg : Bytes) {bs : Bytes} (h : NulFree bs) :
    payload name (store msg (bs ++ [0])) bs.length =
      if utf8 "[FILE]" <+: bs then bs else utf8 "[" ++ name ++ utf8 "] " ++ bs := by
  rw [payload, cstr_receive msg h, Int.toNat_natCast, take_receive]

end PosixLab.Chat
