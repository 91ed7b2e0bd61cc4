/-
# What is left in the buffer

The array `msg` of `handle_clnt` is never cleared.  It holds, one over the other, what the stack
had there, the greeting, the bytes of every read with a NUL behind them, and the answers to
`/join`.  This module says when that shows.  The number of a `/join` is looked for six bytes
behind its start, and a bare `/join` ends before that (`join_history_iff`).  A `read` that fails
returns -1, which the loop takes for a text, so it sends the text of the read before once more
(`loop_honest_iff`).
-/
import PosixLab.Chat.Segments

namespace PosixLab.Chat

open PosixLab

/-! ## 1. The number of a `/join` -/

/-- What has happened on a connection before a message: what the stack held, the name that was
greeted, and the messages that were received. -/
structure History where
  stack : Bytes
  name : Bytes
  messages : List Bytes
  size : stack.length = bufSize
  name_ok : IsWord name ∧ NulFree name ∧ name.length < 20
  messages_fit : ∀ m ∈ messages, 0 < m.length ∧ m.length < bufSize

/-- The loop behind a message. -/
def chatNext (s : ChatState) (m : Bytes) : ChatState :=
  match chatStep s (.data m) with
  | some (s', _) => s'
  | none => s

/-- The buffer and the room when the next message comes. -/
def History.state (h : History) : ChatState :=
  h.messages.foldl chatNext ⟨strcpy h.stack (welcomeText h.name), 0⟩

/-- The room that a `/join` assigns, and the acknowledgement that is written. -/
def History.answer (h : History) (m : Bytes) : Int × Bytes :=
  ((chatNext h.state m).room, cstr (chatNext h.state m).msg)

theorem dispatch_join (msg : Bytes) {m : Bytes} (h : utf8 "/join" <+: m) :
    dispatch (store msg (m ++ [0])) = .join (atoi (cstr ((store msg (m ++ [0])).drop 6))) := by
  obtain ⟨r, rfl⟩ := h
  have hnul : NulFree (utf8 "/join") := .of_notMem (by decide)
  have hhead : (store msg (utf8 "/join" ++ r ++ [0])).head? = some 47 := rfl
  have htext : utf8 "/join" <+: cstr (store msg (utf8 "/join" ++ r ++ [0])) := by
    rw [store, List.append_assoc, List.append_assoc, cstr_append hnul]
    exact List.prefix_append _ _
  rw [dispatch, if_pos hhead, if_pos htext]

/-- The answer to a `/join`, in terms of what the buffer holds six bytes on. -/
theorem History.answer_join (h : History) {m : Bytes} (hm : utf8 "/join" <+: m) :
    h.answer m = (atoi (cstr ((store h.state.msg (m ++ [0])).drop 6)),
      cstr (strcpy (store h.state.msg (m ++ [0]))
        (joinText (atoi (cstr ((store h.state.msg (m ++ [0])).drop 6)))))) := by
  simp only [History.answer, chatNext, chatStep, receive, dispatch_join _ hm]

theorem nulFree_joinText (n : Int) : NulFree (joinText n) :=
  (NulFree.append (.of_notMem (by decide)) (nulFree_decimal n)).append
    (.of_notMem (by decide))

/-- Behind the sixth byte there is the message itself. -/
theorem answer_of_ne {m : Bytes} (hm : utf8 "/join" <+: m) (hne : m ≠ utf8 "/join") (h : History) :
    h.answer m = (atoi (cstr (m.drop 6)), joinText (atoi (cstr (m.drop 6)))) := by
  have hlen : 6 ≤ m.length := by
    have hle := hm.length_le
    have hne' : m.length ≠ (utf8 "/join").length := fun heq => hne (hm.eq_of_length heq.symm).symm
    have hfive : (utf8 "/join").length = 5 := by decide
    omega
  have hdrop : cstr ((store h.state.msg (m ++ [0])).drop 6) = cstr (m.drop 6) := by
    rw [store, List.append_assoc, List.drop_append_of_le_length hlen]
    exact cstr_append_nul _ _
  rw [h.answer_join hm, hdrop, cstr_strcpy _ (nulFree_joinText _)]

/-- A user who has sent the given messages, in an array of NULs. -/
def historyOf (messages : List Bytes)
    (h : ∀ m ∈ messages, 0 < m.length ∧ m.length < bufSize) : History where
  stack := List.replicate bufSize 0
  name := utf8 "kim"
  messages
  size := List.length_replicate
  name_ok :=
    ⟨⟨by decide +kernel, by decide +kernel⟩, by decide +kernel, by decide +kernel⟩
  messages_fit := h

/-- Behind a bare `/join` stands what was there before: room 7 after one message, room 0
without it. -/
theorem answer_bare_join :
    ((historyOf [] (by decide)).answer (utf8 "/join")).1 = 0 ∧
      ((historyOf [utf8 "abcdef7"] (by decide)).answer (utf8 "/join")).1 = 7 := by
  decide

/-- For every message that begins with `/join`: the room it assigns and the acknowledgement are
the same after all histories exactly if it is longer than the word itself. -/
theorem join_history_iff {m : Bytes} (hm : utf8 "/join" <+: m) :
    (∀ h₁ h₂ : History, h₁.answer m = h₂.answer m) ↔ m ≠ utf8 "/join" := by
  constructor
  · rintro h rfl
    obtain ⟨h₀, h₇⟩ := answer_bare_join
    rw [h _ (historyOf [utf8 "abcdef7"] (by decide)), h₇] at h₀
    cases h₀
  · intro hne h₁ h₂
    rw [answer_of_ne hm hne, answer_of_ne hm hne]

theorem join_history_three :
    (∀ h₁ h₂ : History, h₁.answer (utf8 "/join 3") = h₂.answer (utf8 "/join 3")) ↔
      utf8 "/join 3" ≠ utf8 "/join" :=
  join_history_iff (by decide)

theorem bare_join_differs :
    ∃ h₁ h₂ : History, h₁.messages = [] ∧ h₂.messages = [utf8 "abcdef7"] ∧
      (h₁.answer (utf8 "/join")).1 = 0 ∧ (h₂.answer (utf8 "/join")).1 = 7 :=
  ⟨historyOf [] (by decide), historyOf [utf8 "abcdef7"] (by decide), rfl, rfl,
    answer_bare_join⟩

/-! ## 2. Reads that fail -/

/-- The arguments `msg` and `len` of the call of `send_msg` that a read leads to, if it does. -/
def sendMsgArgs (s : ChatState) (r : ReadResult) : Option (Bytes × Int) :=
  (receive s.msg r).filter fun (msg, _) => dispatch msg = .broadcast

/-- The reads that the loop makes, with the calls of `send_msg` behind them, and whether it has
been left. -/
def chatTrace (s : ChatState) : List ReadResult → List (ReadResult × Option (Bytes × Int)) × Bool
  | [] => ([], false)
  | r :: rs =>
    match chatStep s r with
    | none => ([(r, none)], true)
    | some (s', _) =>
      ((r, sendMsgArgs s r) :: (chatTrace s' rs).1, (chatTrace s' rs).2)

/-- The result is not positive. -/
def ReadResult.failed : ReadResult → Bool
  | .data _ => false
  | .eof | .error => true

/-- The results up to the first one that is not positive. -/
def upToFailure : List ReadResult → List ReadResult
  | [] => []
  | r :: rs => if r.failed then [r] else r :: upToFailure rs

/-- A call hands on the bytes that the read has returned. -/
def Carries : ReadResult → Bytes × Int → Prop
  | .data bs, (msg, len) => len = bs.length ∧ msg.take bs.length = bs
  | _, _ => False

/-- The loop is left at the first result that is not positive, and each call of `send_msg`
carries the bytes of the read before it. -/
def Honest (s : ChatState) (rs : List ReadResult) : Prop :=
  (chatTrace s rs).1.map Prod.fst = upToFailure rs ∧
    (chatTrace s rs).2 = rs.any ReadResult.failed ∧
    ∀ x ∈ (chatTrace s rs).1, ∀ call ∈ x.2, Carries x.1 call

theorem carries_sendMsgArgs (s : ChatState) (bs : Bytes) :
    ∀ call ∈ sendMsgArgs s (.data bs), Carries (.data bs) call := by
  intro call hcall
  obtain ⟨hrecv, -⟩ := Option.mem_filter_iff.mp hcall
  obtain rfl := Option.some.inj hrecv
  exact ⟨rfl, take_receive s.msg bs⟩

/-- Only the end of the stream ends the loop. -/
theorem chatTrace_cons (s : ChatState) {r : ReadResult} (hr : r ≠ .eof) (rs : List ReadResult) :
    ∃ s', chatTrace s (r :: rs) =
      ((r, sendMsgArgs s r) :: (chatTrace s' rs).1, (chatTrace s' rs).2) := by
  obtain ⟨p, hp⟩ : ∃ p, receive s.msg r = some p := by
    cases r with
    | eof => exact absurd rfl hr
    | error | data _ => exact ⟨_, rfl⟩
  obtain ⟨s', ops, hstep⟩ : ∃ s' ops, chatStep s r = some (s', ops) := by
    simp only [chatStep, hp]
    cases dispatch p.1 <;> exact ⟨_, _, rfl⟩
  exact ⟨s', by simp only [chatTrace, hstep]⟩

/-- After -1 the loop goes on, so it is not left there. -/
theorem not_honest_error (s : ChatState) (rs : List ReadResult) : ¬Honest s (.error :: rs) := by
  rintro ⟨hreads, hleft, -⟩
  obtain ⟨s', htrace⟩ := chatTrace_cons s (r := .error) (by simp) rs
  rw [htrace] at hreads hleft
  have hnone : (chatTrace s' rs).1 = [] := by simpa [upToFailure, ReadResult.failed] using hreads
  cases rs with
  | nil => cases hleft
  | cons r rs =>
    simp only [chatTrace] at hnone
    split at hnone <;> cases hnone

/-- For every sequence of results of `read`: the loop is left at the first result that is not
positive, and every call of `send_msg` carries the bytes of the read before it, exactly if that
first result is the end of the stream and not -1. -/
theorem loop_honest_iff (s : ChatState) (rs : List ReadResult) :
    Honest s rs ↔ rs.find? ReadResult.failed ≠ some .error := by
  induction rs generalizing s with
  | nil => simp [Honest, chatTrace, upToFailure]
  | cons r rs ih =>
    cases r with
    | eof => simp [Honest, chatTrace, chatStep, receive, upToFailure, ReadResult.failed]
    | error =>
      refine iff_of_false (not_honest_error s rs) ?_
      simp [ReadResult.failed]
    | data bs =>
      obtain ⟨s', htrace⟩ := chatTrace_cons s (r := .data bs) (by simp) rs
      have hrest : Honest s (.data bs :: rs) ↔ Honest s' rs := by
        have hcarries := carries_sendMsgArgs s bs
        simp only [Honest, htrace, upToFailure, ReadResult.failed, List.map_cons, List.any_cons,
          Bool.false_or, Bool.false_eq_true, if_false, List.cons.injEq, true_and,
          List.forall_mem_cons]
        constructor
        · rintro ⟨hreads, hleft, -, hcalls⟩
          exact ⟨hreads, hleft, hcalls⟩
        · rintro ⟨hreads, hleft, hcalls⟩
          exact ⟨hreads, hleft, hcarries, hcalls⟩
      rw [hrest, ih s']
      simp [ReadResult.failed]

/-- A text, and then a connection that is reset: the text is sent to the room a second time, as
-1 bytes. -/
theorem reset_replays :
    (chatTrace ⟨[], 0⟩ [.data (utf8 "hi"), .error]).1.map Prod.snd =
        [some (utf8 "hi\x00", 2), some (utf8 "hi\x00", -1)] ∧
      ¬Honest ⟨[], 0⟩ [.data (utf8 "hi"), .error] := by
  refine ⟨by decide, fun h => ?_⟩
  have hleft : (chatTrace ⟨[], 0⟩ [.data (utf8 "hi"), .error]).2 = true := h.2.1
  revert hleft
  decide

end PosixLab.Chat
