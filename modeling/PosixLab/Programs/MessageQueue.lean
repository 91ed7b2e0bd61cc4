/-
# A chat over two message queues

In `messagequeue.c` each of two users owns a POSIX queue.  The program creates its own queue,
waits until the other one can be opened, and forks: one process sends the lines of the terminal
to the other queue, the other process prints what comes out of its own.  A queue has room for ten
messages; `mq_send` waits for room and `mq_receive` for a message.

The machine has both users with both processes, and each step is a call that may wait or change
something: the opening of a queue, `fgets`, `mq_send`, `mq_receive`, and the end of a process by
`cleanup`.  A queue may be left over from an earlier chat, with messages in it.  What was typed
is on its way, in order, or has been received (`chat_in_order`), and unless somebody ends the chat
everything arrives (`chat_delivers`).
-/
import PosixLab.Basis.CString
import PosixLab.Basis.Lines
import PosixLab.Basis.Progress

namespace PosixLab.Programs

open PosixLab

/-! ## 1. The users -/

/-- `MSG_SIZE`. -/
def msgSize : Nat := 8192

/-- `mq_maxmsg`. -/
def maxMsg : Nat := 10

/-- The argument: `1`, or anything else. -/
inductive ChatUser
  | one
  | two
deriving DecidableEq

def ChatUser.other : ChatUser → ChatUser
  | .one => .two
  | .two => .one

@[simp] theorem ChatUser.other_other (u : ChatUser) : u.other.other = u := by cases u <;> rfl

@[simp] theorem ChatUser.other_ne (u : ChatUser) : u.other ≠ u := by
  cases u <;> simp [ChatUser.other]

theorem ChatUser.eq_or_eq_other (u v : ChatUser) : u = v ∨ u = v.other := by
  cases u <;> cases v <;> simp [ChatUser.other]

/-- How far a user's program has come: not started, waiting for the other queue, or chatting. -/
inductive ChatPhase
  | off
  | waiting
  | chatting
  | gone
deriving DecidableEq

/-- A user: whether the name of the queue is linked, the messages in it, what is left of the
input, the message that `mq_send` is called with, and which of the two processes run. -/
structure QueueUser where
  phase : ChatPhase
  linked : Bool
  queue : List Bytes
  stdin : Bytes
  sending : Option Bytes
  senderUp : Bool
  receiverUp : Bool
deriving DecidableEq

abbrev QueueSys := ChatUser → QueueUser

/-- Before the programs are started: some queues are left over, and the users are going to type
the given texts. -/
def QueueSys.init (leftover : ChatUser → Option (List Bytes)) (typed : ChatUser → Bytes) :
    QueueSys :=
  fun u => ⟨.off, (leftover u).isSome, (leftover u).getD [], typed u, none, false, false⟩

/-- The end of a line. -/
def isEndOfLine (b : Byte) : Bool := b == 10

/-- What is sent of a line in `buf`: the text before its newline, `buf[strcspn(buf, "\\n")]`. -/
def msgText (buf : Bytes) : Bytes := (cstr buf).takeWhile (!isEndOfLine ·)

/-- The two processes of a user behind `fork`. -/
inductive ChatProcess
  | sender
  | receiver
deriving DecidableEq

/-- A call of one of the processes; `cleanup` is the handler of `SIGINT`, which `main` calls
itself at the end of the input, and `interrupt` a `SIGINT` before there is a handler. -/
inductive QueueAction
  | start (u : ChatUser)
  | connect (u : ChatUser)
  | fgets (u : ChatUser)
  | send (u : ChatUser)
  | receive (u : ChatUser)
  | cleanup (u : ChatUser) (p : ChatProcess)
  | interrupt (u : ChatUser)
deriving DecidableEq

/-- What happens to the messages and on the screens. -/
inductive QueueEvent
  | silent
  | received (u : ChatUser) (m : Bytes)
  | printed (u : ChatUser) (text : Bytes)
deriving DecidableEq

/-- One user goes on. -/
def QueueSys.set (s : QueueSys) (u : ChatUser) (x : QueueUser) : QueueSys := Function.update s u x

/-- One step. -/
def queueStep (s : QueueSys) : QueueAction → Option (QueueSys × List QueueEvent)
  | .start u =>
    if (s u).phase = .off then
      -- `O_CREAT` without `O_EXCL`: a queue that exists is opened as it is
      some (s.set u { s u with
        phase := .waiting, linked := true,
        queue := if (s u).linked = true then (s u).queue else [] }, [.silent])
    else none
  | .connect u =>
    if (s u).phase = .waiting ∧ (s u.other).linked = true then
      some (s.set u { s u with phase := .chatting, senderUp := true, receiverUp := true },
        [.silent])
    else none
  | .fgets u =>
    if (s u).senderUp = true ∧ (s u).sending = none ∧ (s u).stdin ≠ [] then
      let buf := chunk isEndOfLine (msgSize - 1) (s u).stdin
      some (s.set u { s u with
        stdin := (s u).stdin.drop buf.length, sending := some (msgText buf) }, [.silent])
    else none
  | .send u =>
    match (s u).sending with
    | some m =>
      if (s u).senderUp = true ∧ (s u.other).queue.length < maxMsg then
        some ((s.set u { s u with sending := none }).set u.other
          { s u.other with queue := (s u.other).queue ++ [m] }, [.silent])
      else none
    | none => none
  | .receive u =>
    match (s u).queue with
    | m :: rest =>
      if (s u).receiverUp = true then
        some (s.set u { s u with queue := rest },
          if 0 < m.length then [.received u m, .printed u (cstr m)] else [.received u m])
      else none
    | [] => none
  | .cleanup u .sender =>
    if (s u).senderUp = true then
      some (s.set u { s u with senderUp := false, linked := false }, [.silent])
    else none
  | .cleanup u .receiver =>
    if (s u).receiverUp = true then
      some (s.set u { s u with receiverUp := false, linked := false }, [.silent])
    else none
  | .interrupt u =>
    if (s u).phase = .waiting then some (s.set u { s u with phase := .gone }, [.silent])
    else none

/-- The messages that a user's program has received, and the texts that it has printed. -/
def QueueEvent.receivedBy (u : ChatUser) : QueueEvent → Option Bytes
  | .received v m => if v = u then some m else none
  | _ => none

def QueueEvent.printedBy (u : ChatUser) : QueueEvent → Option Bytes
  | .printed v text => if v = u then some text else none
  | _ => none

def receivedBy (u : ChatUser) (log : List QueueEvent) : List Bytes :=
  log.filterMap (QueueEvent.receivedBy u)

def printedBy (u : ChatUser) (log : List QueueEvent) : List Bytes :=
  log.filterMap (QueueEvent.printedBy u)

/-- The messages that are made of a text, `fgets` by `fgets`. -/
def messagesOf (typed : Bytes) : List Bytes :=
  (chunks isEndOfLine (msgSize - 2) typed).map msgText

/-- What the program can have sent. -/
def Sendable (m : Bytes) : Prop := NulFree m ∧ m.length < msgSize

instance : DecidablePred Sendable := fun _ => inferInstanceAs (Decidable (_ ∧ _))

/-- What a step can do. -/
inductive QueueMove (s : QueueSys) : QueueAction → QueueSys → List QueueEvent → Prop
  | start (u : ChatUser) (hoff : (s u).phase = .off) :
      QueueMove s (.start u) (s.set u { s u with
        phase := .waiting, linked := true,
        queue := if (s u).linked = true then (s u).queue else [] }) [.silent]
  | connect (u : ChatUser) (hwait : (s u).phase = .waiting)
      (hlinked : (s u.other).linked = true) :
      QueueMove s (.connect u)
        (s.set u { s u with phase := .chatting, senderUp := true, receiverUp := true }) [.silent]
  | fgets (u : ChatUser) (hup : (s u).senderUp = true) (hnone : (s u).sending = none)
      (hin : (s u).stdin ≠ []) :
      QueueMove s (.fgets u) (s.set u { s u with
        stdin := (s u).stdin.drop (chunk isEndOfLine (msgSize - 1) (s u).stdin).length,
        sending := some (msgText (chunk isEndOfLine (msgSize - 1) (s u).stdin)) }) [.silent]
  | send (u : ChatUser) (m : Bytes) (hup : (s u).senderUp = true) (hsome : (s u).sending = some m)
      (hroom : (s u.other).queue.length < maxMsg) :
      QueueMove s (.send u) ((s.set u { s u with sending := none }).set u.other
        { s u.other with queue := (s u.other).queue ++ [m] }) [.silent]
  | receive (u : ChatUser) (m : Bytes) (rest : List Bytes) (hup : (s u).receiverUp = true)
      (hqueue : (s u).queue = m :: rest) :
      QueueMove s (.receive u) (s.set u { s u with queue := rest })
        (if 0 < m.length then [.received u m, .printed u (cstr m)] else [.received u m])
  | cleanup (u : ChatUser) (p : ChatProcess) (senderUp receiverUp : Bool)
      (hs : senderUp = true → (s u).senderUp = true)
      (hr : receiverUp = true → (s u).receiverUp = true)
      (hup : (s u).senderUp = true ∨ (s u).receiverUp = true) :
      QueueMove s (.cleanup u p) (s.set u { s u with senderUp, receiverUp, linked := false })
        [.silent]
  | interrupt (u : ChatUser) (hwait : (s u).phase = .waiting) :
      QueueMove s (.interrupt u) (s.set u { s u with phase := .gone }) [.silent]

theorem queueStep_move {s s' : QueueSys} {a : QueueAction} {ev : List QueueEvent}
    (h : queueStep s a = some (s', ev)) : QueueMove s a s' ev := by
  cases a with
  | start u =>
    obtain ⟨hoff, heq⟩ := Option.ite_none_right_eq_some.mp h
    cases heq
    exact .start u hoff
  | connect u =>
    obtain ⟨⟨hwait, hlinked⟩, heq⟩ := Option.ite_none_right_eq_some.mp h
    cases heq
    exact .connect u hwait hlinked
  | fgets u =>
    obtain ⟨⟨hup, hnone, hin⟩, heq⟩ := Option.ite_none_right_eq_some.mp h
    cases heq
    exact .fgets u hup hnone hin
  | send u =>
    simp only [queueStep] at h
    split at h
    · rename_i m hsome
      obtain ⟨⟨hup, hroom⟩, heq⟩ := Option.ite_none_right_eq_some.mp h
      cases heq
      exact .send u m hup hsome hroom
    · cases h
  | receive u =>
    simp only [queueStep] at h
    split at h
    · rename_i m rest hqueue
      obtain ⟨hup, heq⟩ := Option.ite_none_right_eq_some.mp h
      cases heq
      exact .receive u m rest hup hqueue
    · cases h
  | cleanup u p =>
    cases p with
    | sender =>
      obtain ⟨hup, heq⟩ := Option.ite_none_right_eq_some.mp h
      cases heq
      exact .cleanup u .sender false (s u).receiverUp (by simp) id (.inl hup)
    | receiver =>
      obtain ⟨hup, heq⟩ := Option.ite_none_right_eq_some.mp h
      cases heq
      exact .cleanup u .receiver (s u).senderUp false id (by simp) (.inr hup)
  | interrupt u =>
    obtain ⟨hwait, heq⟩ := Option.ite_none_right_eq_some.mp h
    cases heq
    exact .interrupt u hwait

/-! ## 2. Messages -/

theorem length_chunk_le (stop : Byte → Bool) (n : Nat) (l : Bytes) :
    (chunk stop n l).length ≤ n := by
  induction l generalizing n with
  | nil => cases n <;> exact Nat.zero_le _
  | cons b l ih =>
    cases n with
    | zero => exact Nat.zero_le _
    | succ n =>
      rw [chunk]
      split
      · exact Nat.succ_le_succ (Nat.zero_le _)
      · exact Nat.succ_le_succ (ih n)

theorem length_chunk_pos (b : Byte) (rest : Bytes) :
    0 < (chunk isEndOfLine (msgSize - 1) (b :: rest)).length := by
  show 0 < (chunk isEndOfLine (8190 + 1) (b :: rest)).length
  rw [chunk]
  split <;> simp

/-- What `fgets` and `strcspn` leave in `buf` can be sent, and `buf[n]` is inside of the
receiver's array. -/
theorem sendable_msgText (typed : Bytes) :
    Sendable (msgText (chunk isEndOfLine (msgSize - 1) typed)) := by
  constructor
  · intro b hb
    exact nulFree_cstr _ b ((List.takeWhile_prefix _).subset hb)
  · have h₁ := (List.takeWhile_prefix (l := cstr (chunk isEndOfLine (msgSize - 1) typed))
      (!isEndOfLine ·)).length_le
    have h₂ := length_cstr_le (chunk isEndOfLine (msgSize - 1) typed)
    have h₃ := length_chunk_le isEndOfLine (msgSize - 1) typed
    rw [msgText, msgSize] at *
    omega

theorem messagesOf_fgets {typed : Bytes} (h : typed ≠ []) :
    messagesOf typed =
      msgText (chunk isEndOfLine (msgSize - 1) typed) ::
        messagesOf (typed.drop (chunk isEndOfLine (msgSize - 1) typed).length) := by
  obtain ⟨b, rest, rfl⟩ := List.exists_cons_of_ne_nil h
  rw [messagesOf, chunks_cons]
  rfl

/-- Lines that fit into `buf` are sent as they are, without their newlines. -/
theorem messagesOf_of_short {typed : Bytes} (hnul : NulFree typed)
    (hshort : ∀ l ∈ lines isEndOfLine typed, l.length < msgSize) :
    messagesOf typed = (lines isEndOfLine typed).map fun l => l.takeWhile (!isEndOfLine ·) := by
  have hchunks : chunks isEndOfLine (msgSize - 2) typed = lines isEndOfLine typed := by
    rw [chunks_eq_flatMap_lines]
    have hone : ∀ l ∈ lines isEndOfLine typed, chunks isEndOfLine (msgSize - 2) l = [l] := by
      intro l hl
      have hlen := hshort l hl
      rw [chunks_eq_singleton_iff hl]
      rw [msgSize] at *
      omega
    rw [List.flatMap_congr hone]
    simp
  rw [messagesOf, hchunks]
  refine List.map_congr_left fun l hl => ?_
  rw [msgText, cstr_of_nulFree]
  intro b hb
  refine hnul b ?_
  rw [← @flatten_lines _ isEndOfLine typed]
  exact List.mem_flatten.mpr ⟨l, hl, hb⟩

/-! ## 3. What the steps keep -/

section

variable {s s' : QueueSys} {a : QueueAction} {ev : List QueueEvent} {u v : ChatUser}
  {x : QueueUser} {leftover : ChatUser → Option (List Bytes)} {typed : ChatUser → Bytes}
  {log : List QueueEvent}

@[simp] theorem QueueSys.set_self (s : QueueSys) (u : ChatUser) (x : QueueUser) :
    s.set u x u = x := Function.update_self _ _ _

@[simp] theorem QueueSys.set_other (s : QueueSys) (u : ChatUser) (x : QueueUser) :
    s.set u x u.other = s u.other := Function.update_of_ne u.other_ne _ _

@[simp] theorem QueueSys.set_other' (s : QueueSys) (u : ChatUser) (x : QueueUser) :
    s.set u.other x u = s u := Function.update_of_ne u.other_ne.symm _ _

/-- The messages for `u`: those that came with the queue, and what the other user types. -/
def allFor (leftover : ChatUser → Option (List Bytes)) (typed : ChatUser → Bytes)
    (u : ChatUser) : List Bytes :=
  (leftover u).getD [] ++ messagesOf (typed u.other)

/-- The messages for `u` that have not been received yet, in order. -/
def QueueSys.onTheWay (s : QueueSys) (u : ChatUser) : List Bytes :=
  (s u).queue ++ ((s u.other).sending.toList ++ messagesOf (s u.other).stdin)

/-- What holds of a user along a run. -/
structure QueueKept (leftover : ChatUser → Option (List Bytes)) (typed : ChatUser → Bytes)
    (log : List QueueEvent) (s : QueueSys) (u : ChatUser) : Prop where
  balance : allFor leftover typed u = receivedBy u log ++ s.onTheWay u
  printed : printedBy u log = (receivedBy u log).filter (0 < ·.length)
  room : (s u).queue.length ≤ maxMsg
  fits : ∀ m ∈ allFor leftover typed u, Sendable m
  up : (s u).senderUp = true ∨ (s u).receiverUp = true → (s u).phase = .chatting
  fresh : (s u).phase = .off → (s u).linked = false →
    (s u).queue = [] ∧ (s u.other).senderUp = false

theorem sendable_of_mem_messagesOf {typed m : Bytes} (h : m ∈ messagesOf typed) : Sendable m := by
  induction hn : typed.length using Nat.strong_induction_on generalizing typed with
  | h n ih =>
    by_cases hnil : typed = []
    · subst hnil
      cases h
    · rw [messagesOf_fgets hnil] at h
      rcases List.mem_cons.mp h with rfl | h
      · exact sendable_msgText typed
      · refine ih _ ?_ h rfl
        obtain ⟨b, rest, rfl⟩ := List.exists_cons_of_ne_nil hnil
        have hpos := length_chunk_pos b rest
        rw [List.length_drop, ← hn, List.length_cons]
        omega

theorem queueKept_init (hleft : ∀ u, ∀ m ∈ (leftover u).getD [], Sendable m)
    (hroom : ∀ u, ((leftover u).getD []).length ≤ maxMsg) (u : ChatUser) :
    QueueKept leftover typed [] (.init leftover typed) u := by
  refine ⟨rfl, rfl, hroom u, fun m hm => ?_, ?_, ?_⟩
  · rcases List.mem_append.mp hm with hm | hm
    · exact hleft u m hm
    · exact sendable_of_mem_messagesOf hm
  · simp [QueueSys.init]
  · intro _ hlinked
    have hnone : leftover u = none := by simpa [QueueSys.init] using hlinked
    simp [QueueSys.init, hnone]

theorem receivedBy_append (u : ChatUser) (log ev : List QueueEvent) :
    receivedBy u (log ++ ev) = receivedBy u log ++ receivedBy u ev := List.filterMap_append

theorem printedBy_append (u : ChatUser) (log ev : List QueueEvent) :
    printedBy u (log ++ ev) = printedBy u log ++ printedBy u ev := List.filterMap_append

/-- A message for somebody else is none for `u`. -/
theorem receivedBy_of_ne {m : Bytes} (h : v ≠ u) :
    receivedBy u (if 0 < m.length then [.received v m, .printed v (cstr m)] else [.received v m]) =
      [] ∧
    printedBy u (if 0 < m.length then [.received v m, .printed v (cstr m)] else [.received v m]) =
      [] := by
  split <;>
    simp [receivedBy, printedBy, QueueEvent.receivedBy, QueueEvent.printedBy, h]

theorem receivedBy_self (u : ChatUser) {m : Bytes} (h : NulFree m) :
    receivedBy u (if 0 < m.length then [.received u m, .printed u (cstr m)] else [.received u m]) =
      [m] ∧
    printedBy u (if 0 < m.length then [.received u m, .printed u (cstr m)] else [.received u m]) =
      [m].filter (0 < ·.length) := by
  rw [cstr_of_nulFree h]
  split <;> rename_i hlen <;>
    simp [receivedBy, printedBy, QueueEvent.receivedBy, QueueEvent.printedBy, List.filterMap_cons,
      hlen]

/-- A step that neither delivers anything nor changes what is on the way to `u`. -/
theorem QueueKept.same (h : QueueKept leftover typed log s u)
    (hway : s'.onTheWay u = s.onTheWay u) (hqueue : (s' u).queue.length ≤ maxMsg)
    (hup : (s' u).senderUp = true ∨ (s' u).receiverUp = true → (s' u).phase = .chatting)
    (hfresh : (s' u).phase = .off → (s' u).linked = false →
      (s' u).queue = [] ∧ (s' u.other).senderUp = false) :
    QueueKept leftover typed (log ++ [.silent]) s' u := by
  have hr : receivedBy u (log ++ [.silent]) = receivedBy u log := by
    rw [receivedBy_append]
    exact List.append_nil _
  have hp : printedBy u (log ++ [.silent]) = printedBy u log := by
    rw [printedBy_append]
    exact List.append_nil _
  exact ⟨by rw [hr, hway, h.balance], by rw [hr, hp, h.printed], hqueue, h.fits, hup, hfresh⟩

theorem QueueKept.step (h : ∀ u, QueueKept leftover typed log s u) (hm : QueueMove s a s' ev)
    (u : ChatUser) : QueueKept leftover typed (log ++ ev) s' u := by
  have hu := h u
  cases hm with
  | start v hoff =>
    obtain rfl | rfl := v.eq_or_eq_other u
    · have hqueue : (if (s v).linked = true then (s v).queue else []) = (s v).queue := by
        by_cases hl : (s v).linked = true
        · rw [if_pos hl]
        · rw [if_neg hl, (hu.fresh hoff (by simpa using hl)).1]
      refine hu.same ?_ ?_ ?_ ?_
      · simp [QueueSys.onTheWay, hqueue]
      · simpa [hqueue] using hu.room
      · simpa [hoff] using hu.up
      · simp
    · refine hu.same ?_ ?_ ?_ ?_
      · simp [QueueSys.onTheWay]
      · simpa using hu.room
      · simpa using hu.up
      · simpa using hu.fresh
  | connect v hwait hlinked =>
    obtain rfl | rfl := v.eq_or_eq_other u
    · refine hu.same ?_ ?_ ?_ ?_
      · simp [QueueSys.onTheWay]
      · simpa using hu.room
      · simp
      · simp
    · rw [ChatUser.other_other] at hlinked
      refine hu.same ?_ ?_ ?_ ?_
      · simp [QueueSys.onTheWay]
      · simpa using hu.room
      · simpa using hu.up
      · simp [hlinked]
  | fgets v hup hnone hin =>
    obtain rfl | rfl := v.eq_or_eq_other u
    · refine hu.same ?_ ?_ ?_ ?_
      · simp [QueueSys.onTheWay]
      · simpa using hu.room
      · simpa using hu.up
      · simpa using hu.fresh
    · refine hu.same ?_ ?_ ?_ ?_
      · rw [QueueSys.onTheWay, QueueSys.onTheWay, messagesOf_fgets hin, hnone]
        simp
      · simpa using hu.room
      · simpa using hu.up
      · simpa using hu.fresh
  | send v m hup hsome hroom =>
    obtain rfl | rfl := v.eq_or_eq_other u
    · refine hu.same ?_ ?_ ?_ ?_
      · simp [QueueSys.onTheWay]
      · simpa using hu.room
      · simpa using hu.up
      · simpa using hu.fresh
    · rw [ChatUser.other_other] at hroom
      refine hu.same ?_ ?_ ?_ ?_
      · simp [QueueSys.onTheWay, hsome]
      · simp only [ChatUser.other_other, QueueSys.set_self, List.length_append,
          List.length_singleton]
        omega
      · simpa using hu.up
      · intro hoff hlinked
        have := (hu.fresh (by simpa using hoff) (by simpa using hlinked)).2
        rw [hup] at this
        cases this
  | receive v m rest hup hqueue =>
    obtain rfl | rfl := v.eq_or_eq_other u
    · have hmem : m ∈ allFor leftover typed v := by
        rw [hu.balance, QueueSys.onTheWay, hqueue]
        simp
      obtain ⟨hr, hp⟩ := receivedBy_self v (hu.fits m hmem).1
      refine ⟨?_, ?_, ?_, hu.fits, by simpa using hu.up, ?_⟩
      · rw [receivedBy_append, hr, hu.balance, QueueSys.onTheWay, QueueSys.onTheWay, hqueue]
        simp
      · rw [receivedBy_append, printedBy_append, hr, hp, hu.printed, List.filter_append]
      · have := hu.room
        rw [hqueue, List.length_cons] at this
        simp only [QueueSys.set_self]
        omega
      · intro hoff
        have hchat := hu.up (.inr hup)
        simp [hchat] at hoff
    · obtain ⟨hr, hp⟩ := receivedBy_of_ne (m := m) u.other_ne
      refine ⟨?_, ?_, by simpa using hu.room, hu.fits, by simpa using hu.up,
        by simpa using hu.fresh⟩
      · rw [receivedBy_append, hr, hu.balance]
        simp [QueueSys.onTheWay]
      · rw [receivedBy_append, printedBy_append, hr, hp, hu.printed]
        simp
  | cleanup v p senderUp receiverUp hs hr hup =>
    obtain rfl | rfl := v.eq_or_eq_other u
    · have hchat := hu.up hup
      refine hu.same ?_ ?_ ?_ ?_
      · simp [QueueSys.onTheWay]
      · simpa using hu.room
      · simp [hchat]
      · simp [hchat]
    · refine hu.same ?_ ?_ ?_ ?_
      · simp [QueueSys.onTheWay]
      · simpa using hu.room
      · simpa using hu.up
      · intro hoff hlinked
        obtain ⟨hqueue, hdown⟩ := hu.fresh (by simpa using hoff) (by simpa using hlinked)
        refine ⟨by simpa using hqueue, ?_⟩
        rw [QueueSys.set_self]
        by_contra hsend
        have := hs (by simpa using hsend)
        rw [hdown] at this
        cases this
  | interrupt v hwait =>
    obtain rfl | rfl := v.eq_or_eq_other u
    · refine hu.same ?_ ?_ ?_ ?_
      · simp [QueueSys.onTheWay]
      · simpa using hu.room
      · simpa [hwait] using hu.up
      · simp
    · refine hu.same ?_ ?_ ?_ ?_
      · simp [QueueSys.onTheWay]
      · simpa using hu.room
      · simpa using hu.up
      · simpa using hu.fresh

theorem queueKept_of_runs (hleft : ∀ u, ∀ m ∈ (leftover u).getD [], Sendable m)
    (hroom : ∀ u, ((leftover u).getD []).length ≤ maxMsg)
    (h : Runs queueStep anyStep (.init leftover typed) log s) (u : ChatUser) :
    QueueKept leftover typed log s u := by
  refine h.invariant (I := fun log s => ∀ u, QueueKept leftover typed log s u)
    (queueKept_init hleft hroom) ?_ u
  intro log s a s' ev _ ih _ hs
  exact QueueKept.step ih (queueStep_move hs)

/-- Nobody ends the chat. -/
def NoEnd (_ : QueueSys) : QueueAction → Prop
  | .cleanup _ _ | .interrupt _ => False
  | _ => True

instance (s : QueueSys) : (a : QueueAction) → Decidable (NoEnd s a)
  | .cleanup _ _ | .interrupt _ => inferInstanceAs (Decidable False)
  | .start _ | .connect _ | .fgets _ | .send _ | .receive _ => inferInstanceAs (Decidable True)

def ChatPhase.ahead : ChatPhase → Nat
  | .off => 2
  | .waiting => 1
  | _ => 0

/-- How much is left to do for a user: a byte is read, sent and received, and printed. -/
def QueueUser.work (x : QueueUser) : Nat :=
  x.phase.ahead + (4 * x.stdin.length + (3 * x.sending.toList.length + 2 * x.queue.length))

def QueueSys.work (s : QueueSys) : Nat := (s .one).work + (s .two).work

/-- The programs that have been started have linked their queues, and run. -/
def Running (s : QueueSys) : Prop :=
  ∀ u, (s u).phase ≠ .gone ∧ ((s u).phase ≠ .off → (s u).linked = true) ∧
    ((s u).phase = .chatting → (s u).senderUp = true ∧ (s u).receiverUp = true)

theorem QueueSys.work_eq (s : QueueSys) (u : ChatUser) :
    s.work = (s u).work + (s u.other).work := by
  cases u
  · rfl
  · exact Nat.add_comm _ _

theorem Running.step (h : Running s) (ha : NoEnd s a) (hm : QueueMove s a s' ev) : Running s' := by
  have hset : ∀ {v : ChatUser} {x : QueueUser}, Running s →
      (x.phase ≠ .gone ∧ (x.phase ≠ .off → x.linked = true) ∧
        (x.phase = .chatting → x.senderUp = true ∧ x.receiverUp = true)) →
      Running (s.set v x) := by
    intro v x hs hx u
    obtain rfl | rfl := u.eq_or_eq_other v
    · simpa using hx
    · simpa using hs v.other
  cases hm with
  | start v hoff => exact hset h (by simp)
  | connect v hwait hlinked => exact hset h (by simpa using (h v).2.1 (by simp [hwait]))
  | fgets v hup hnone hin => exact hset h (h v)
  | send v m hup hsome hroom =>
    intro u
    obtain rfl | rfl := u.eq_or_eq_other v
    · simpa using h u
    · simpa using h v.other
  | receive v m rest hup hqueue => exact hset h (h v)
  | cleanup v p senderUp receiverUp hs hr hup => exact ha.elim
  | interrupt v hwait => exact ha.elim

theorem QueueMove.pays (hm : QueueMove s a s' ev) (ha : NoEnd s a) :
    s'.work + ev.length ≤ s.work := by
  cases hm with
  | start v hoff =>
    rw [QueueSys.work_eq _ v, QueueSys.work_eq s v, QueueSys.set_self, QueueSys.set_other]
    have hqueue : (if (s v).linked = true then (s v).queue else []).length ≤
        (s v).queue.length := by
      split
      · exact Nat.le_refl _
      · exact Nat.zero_le _
    simp only [QueueUser.work, hoff, ChatPhase.ahead, List.length_singleton]
    omega
  | connect v hwait hlinked =>
    rw [QueueSys.work_eq _ v, QueueSys.work_eq s v, QueueSys.set_self, QueueSys.set_other]
    simp only [QueueUser.work, hwait, ChatPhase.ahead, List.length_singleton]
    omega
  | fgets v hup hnone hin =>
    rw [QueueSys.work_eq _ v, QueueSys.work_eq s v, QueueSys.set_self, QueueSys.set_other]
    obtain ⟨b, rest, hcons⟩ := List.exists_cons_of_ne_nil hin
    have hpos : 0 < (chunk isEndOfLine (msgSize - 1) (s v).stdin).length := by
      rw [hcons]
      exact length_chunk_pos b rest
    simp only [QueueUser.work, hnone, List.length_drop, Option.toList, List.length_singleton,
      List.length_nil]
    have hin' : 0 < (s v).stdin.length := List.length_pos_of_ne_nil hin
    omega
  | send v m hup hsome hroom =>
    rw [QueueSys.work_eq _ v, QueueSys.work_eq s v, QueueSys.set_other', QueueSys.set_self,
      QueueSys.set_self]
    simp only [QueueUser.work, hsome, Option.toList, List.length_append, List.length_singleton,
      List.length_nil]
    omega
  | receive v m rest hup hqueue =>
    rw [QueueSys.work_eq _ v, QueueSys.work_eq s v, QueueSys.set_self, QueueSys.set_other]
    have hev : (if 0 < m.length then [QueueEvent.received v m, .printed v (cstr m)]
        else [.received v m]).length ≤ 2 := by
      split <;> simp
    simp only [QueueUser.work, hqueue, List.length_cons]
    omega
  | cleanup v p senderUp receiverUp hs hr hup => exact ha.elim
  | interrupt v hwait => exact ha.elim

/-- As long as something is left there is a step to take. -/
theorem Running.goes (h : Running s) (hleft : ∃ u, (s u).phase ≠ .chatting ∨ s.onTheWay u ≠ []) :
    ∃ a r, NoEnd s a ∧ queueStep s a = some r := by
  by_cases hoff : ∃ u, (s u).phase = .off
  · obtain ⟨u, hoff⟩ := hoff
    exact ⟨.start u, by simp [queueStep, hoff, NoEnd]⟩
  · simp only [not_exists] at hoff
    by_cases hwait : ∃ u, (s u).phase = .waiting
    · obtain ⟨u, hwait⟩ := hwait
      have hlinked := (h u.other).2.1 (hoff u.other)
      exact ⟨.connect u, by simp [queueStep, hwait, hlinked, NoEnd]⟩
    · simp only [not_exists] at hwait
      have hchat : ∀ u, (s u).phase = .chatting := by
        intro u
        have hgone := (h u).1
        cases hp : (s u).phase with
        | off => exact absurd hp (hoff u)
        | waiting => exact absurd hp (hwait u)
        | chatting => rfl
        | gone => exact absurd hp hgone
      obtain ⟨u, hu⟩ := hleft
      have hway := hu.resolve_left (not_not.mpr (hchat u))
      obtain ⟨-, hreceiver⟩ := (h u).2.2 (hchat u)
      obtain ⟨hsender, -⟩ := (h u.other).2.2 (hchat u.other)
      cases hqueue : (s u).queue with
      | cons m rest => exact ⟨.receive u, by simp [queueStep, hqueue, hreceiver, NoEnd]⟩
      | nil =>
        cases hsend : (s u.other).sending with
        | some m =>
          exact ⟨.send u.other, by simp [queueStep, hsend, hsender, hqueue, maxMsg, NoEnd]⟩
        | none =>
          have hin : (s u.other).stdin ≠ [] := by
            intro hnil
            rw [QueueSys.onTheWay, hqueue, hsend, hnil] at hway
            exact hway rfl
          exact ⟨.fgets u.other, by simp [queueStep, hsend, hsender, hin, NoEnd]⟩

/-- For every interleaving in which nobody ends the chat: the number of steps is bounded, and
either some step can be taken, or each user's screen shows every message for that user but the
empty ones.  So no order of the steps leads to a deadlock, and all of them deliver everything. -/
theorem chat_delivers (hleft : ∀ u, ∀ m ∈ (leftover u).getD [], Sendable m)
    (hroom : ∀ u, ((leftover u).getD []).length ≤ maxMsg)
    (h : Runs queueStep NoEnd (.init leftover typed) log s) :
    log.length ≤ (QueueSys.init leftover typed).work ∧
      ((∃ a r, NoEnd s a ∧ queueStep s a = some r) ∨
        ∀ u, printedBy u log = (allFor leftover typed u).filter (0 < ·.length)) := by
  have hrunning : Running s := by
    refine h.invariant (I := fun _ s => Running s) (fun u => by simp [QueueSys.init]) ?_
    intro log s a s' ev _ ih ha hs
    exact ih.step ha (queueStep_move hs)
  constructor
  · have hpays : Pays queueStep NoEnd (.init leftover typed) (fun _ => false) QueueSys.work 0 := by
      intro log s a s' ev _ ha hs
      simpa using (queueStep_move hs).pays ha
    have hle := h.length_le hpays
    simpa using hle
  · by_cases hway : ∃ u, (s u).phase ≠ .chatting ∨ s.onTheWay u ≠ []
    · exact .inl (hrunning.goes hway)
    · refine .inr fun u => ?_
      have hk := queueKept_of_runs hleft hroom (h.mono fun _ _ _ => trivial) u
      simp only [not_exists, not_or, not_not] at hway
      rw [hk.printed, hk.balance, (hway u).2, List.append_nil]

end

/-- The first user finds an old message in the queue; the second one types two lines, one of them
empty. -/
def oneOld : ChatUser → Option (List Bytes)
  | .one => some [utf8 "old"]
  | .two => none

def twoLines : ChatUser → Bytes
  | .one => []
  | .two => utf8 "\nhi\n"

theorem leftover_oneOld : (∀ u, ∀ m ∈ (oneOld u).getD [], Sendable m) ∧
    ∀ u, ((oneOld u).getD []).length ≤ maxMsg := by
  constructor
  · intro u m hm
    cases u with
    | one =>
      obtain rfl : m = utf8 "old" := List.mem_singleton.mp hm
      exact ⟨NulFree.of_notMem (by decide), by decide⟩
    | two => cases hm
  · intro u
    cases u <;> decide

theorem chat_delivers_oneOld : ∃ log s, Runs queueStep NoEnd (.init oneOld twoLines) log s ∧
    (s .one).phase = .waiting ∧
    ((∃ a r, NoEnd s a ∧ queueStep s a = some r) ∨
      ∀ u, printedBy u log = (allFor oneOld twoLines u).filter (0 < ·.length)) := by
  obtain ⟨log, s, hrun, hp⟩ : ∃ log s, Runs queueStep NoEnd (.init oneOld twoLines) log s ∧
      decide ((s .one).phase = .waiting) = true :=
    exists_runs_of_exec [.start .two, .connect .two, .fgets .two, .send .two, .start .one] _
      (by decide)
  exact ⟨log, s, hrun, of_decide_eq_true hp,
    (chat_delivers leftover_oneOld.1 leftover_oneOld.2 hrun).2⟩

end PosixLab.Programs
