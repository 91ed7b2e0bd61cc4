/-
# The bounds of the arrays

What a client sends goes through nine arrays of five sizes: the first request is read into
`auth_buf` and scanned into `mode`, `id` and `pw`; the id is copied to `Client.name` and printed
from there into `msg` and `final_msg`; id and password go to `users.txt`, and from there into
`file_id` and `file_pw` of every later call.  Of all these writes only the first is limited by the
code.  `%s` stores words of any length, and the chat loop reads as many bytes as `msg` has and
puts a NUL behind them.

`writes_in_bounds_iff`: over every run, all writes are in bounds exactly if the first three words
of each request fit `mode`, `id` and `pw`, and each later read leaves room for the NUL.
-/
import PosixLab.Chat.Invariants

namespace PosixLab.Chat

open PosixLab

/-! ## 1. What is written -/

/-- The arrays. -/
inductive Buf
  | authBuf
  | mode
  | id
  | pw
  | name
  | msg
  | fileId
  | filePw
  | finalMsg
deriving DecidableEq

/-- Their sizes, as they are declared. -/
def Buf.size : Buf → Nat
  | .authBuf | .msg => bufSize
  | .mode => 10
  | .id | .pw | .name | .fileId | .filePw => 20
  | .finalMsg => bufSize + 30

/-- A write of `length` bytes from the index `start` on. -/
structure BufWrite where
  buf : Buf
  start : Int
  length : Nat
deriving DecidableEq

/-- A string is stored with a NUL behind it. -/
def BufWrite.string (buf : Buf) (text : Bytes) : BufWrite := ⟨buf, 0, text.length + 1⟩

def BufWrite.InBounds (w : BufWrite) : Prop := 0 ≤ w.start ∧ w.start + w.length ≤ w.buf.size

instance (w : BufWrite) : Decidable w.InBounds := inferInstanceAs (Decidable (_ ∧ _))

/-- What a statement of a handler writes. -/
def Handler.writes (s : Server) (c : Addr) (h : Handler) : Input → List BufWrite
  | .request (some bs) _ =>
    ⟨.authBuf, 0, bs.length⟩ :: ⟨.authBuf, bs.length, 1⟩ ::
      List.zipWith .string [.mode, .id, .pw] (words (cstr bs))
  | .chat (.data bs) => [⟨.msg, 0, bs.length⟩, ⟨.msg, bs.length, 1⟩]
  -- `msg[str_len] = 0` with -1
  | .chat .error => [⟨.msg, -1, 1⟩]
  | .go =>
    match h.pc with
    | .auth f =>
      if f.pc = .fscanf then
        List.zipWith .string [.fileId, .filePw] (words ((s.users.getD []).drop f.fp.pos))
      else []
    | .setName => [.string .name h.fields.id]
    | .welcome => [.string .msg (welcomeText (s.nameOf c))]
    | .joinAck n => [.string .msg (joinText n)]
    | .sendLoop i =>
      if (i : Int) < s.reg.clntCnt ∧ s.inRoom c (s.reg.clntList i) = true ∧
          ¬utf8 "[FILE]" <+: cstr h.msg then
        [.string .finalMsg (s.payloadOf c h)]
      else []
    | _ => []
  | _ => []

/-- What a step writes. -/
def Server.writes (s : Server) : Action → List BufWrite
  | .main _ => []
  | .handler c x => (s.handlers c).elim [] fun h => h.writes s c x

/-- The server, with a log of its steps and of what each of them writes. -/
def bufferStep (s : Server) (a : Action) : Option (Server × List (Action × List BufWrite)) :=
  (serverStep s a).map fun r => (r.1, [(a, s.writes a)])

/-! ## 2. What fits -/

/-- What comes from the peer fits: the first three words of a request, which is what it leaves in
empty arrays, and a text with the NUL behind it.  A read of the chat loop that fails does not,
because its -1 is taken for an index of `msg`. -/
def PeerFits : Action → Prop
  | .handler _ (.request (some bs) _) => (decode bs ⟨[], [], []⟩).Fits
  | .handler _ (.chat (.data bs)) => bs.length < bufSize
  | .handler _ (.chat .error) => False
  | _ => True

/-- What the memory holds before is no longer than the arrays: the name in a record from
`malloc`, and the id and the password on the stack, which a request of fewer words leaves. -/
def StackFits (_ : Server) : Action → Prop
  | .main (.accept _ name) => (cstr name).length < 20
  | .handler _ (.request (some _) old) => old.id.length < 20 ∧ old.pw.length < 20
  | _ => True

instance (s : Server) : (a : Action) → Decidable (StackFits s a)
  | .main (.accept _ _) => inferInstanceAs (Decidable (_ < _))
  | .main .go | .main (.stack _) => inferInstanceAs (Decidable True)
  | .handler _ (.request (some _) _) => inferInstanceAs (Decidable (_ ∧ _))
  | .handler _ (.request none _) | .handler _ .go | .handler _ (.arrays _ _)
  | .handler _ (.chat _) => inferInstanceAs (Decidable True)

/-- The file holds records of strings that fit, as `process_auth` prints them. -/
def RecordsFit (users : Option Bytes) : Prop :=
  ∃ recs : List (Bytes × Bytes), users.getD [] = encodeUsers recs ∧
    ∀ r ∈ recs, r.1.length < 20 ∧ r.2.length < 20

theorem string_inBounds (b : Buf) (text : Bytes) :
    (BufWrite.string b text).InBounds ↔ text.length + 1 ≤ b.size := by
  simp only [BufWrite.InBounds, BufWrite.string]
  omega

/-- The words of a request go into three arrays. -/
theorem scanned_request_inBounds (ws : List Bytes) :
    (∀ w ∈ List.zipWith BufWrite.string [.mode, .id, .pw] ws, w.InBounds) ↔
      (⟨converted [] ws 0, converted [] ws 1, converted [] ws 2⟩ : AuthFields).Fits := by
  match ws with
  | [] => simp [AuthFields.Fits, converted]
  | [a] => simp [AuthFields.Fits, converted, string_inBounds, Buf.size]
  | [a, b] => simp [AuthFields.Fits, converted, string_inBounds, Buf.size]
  | a :: b :: c :: _ => simp [AuthFields.Fits, converted, string_inBounds, Buf.size]

/-- The words of the file go into two. -/
theorem scanned_record_inBounds {ws : List Bytes} (h : ∀ v ∈ ws, v.length < 20) :
    ∀ w ∈ List.zipWith BufWrite.string [.fileId, .filePw] ws, w.InBounds := by
  have hword : ∀ b : Buf, b.size = 20 → ∀ v ∈ ws, (BufWrite.string b v).InBounds := by
    intro b hb v hv
    rw [string_inBounds, hb]
    exact h v hv
  match ws with
  | [] => simp
  | [a] => simpa using hword .fileId rfl a (by simp)
  | a :: b :: _ =>
    simpa using And.intro (hword .fileId rfl a (by simp)) (hword .filePw rfl b (by simp))

/-- The words of records are parts of their strings. -/
theorem words_encodeUsers {recs : List (Bytes × Bytes)} {n : Nat}
    (h : ∀ r ∈ recs, r.1.length < n ∧ r.2.length < n) :
    ∀ w ∈ words (encodeUsers recs), w.length < n := by
  induction recs with
  | nil => simp [encodeUsers]
  | cons r recs ih =>
    obtain ⟨⟨hi, hp⟩, hrecs⟩ := List.forall_mem_cons.mp h
    have hsplit : encodeUsers (r :: recs) = r.1 ++ 32 :: (r.2 ++ 10 :: encodeUsers recs) := by
      simp [encodeUsers, record]
    intro w hw
    rw [hsplit, words_append_space (by decide), words_append_space (by decide)] at hw
    rcases List.mem_append.mp hw with hw | hw
    · exact Nat.lt_of_le_of_lt (length_le_of_mem_words hw) hi
    · rcases List.mem_append.mp hw with hw | hw
      · exact Nat.lt_of_le_of_lt (length_le_of_mem_words hw) hp
      · exact ih hrecs w hw

/-- Wherever a scan of the file starts, the words it finds fit. -/
theorem RecordsFit.words_drop {users : Option Bytes} (h : RecordsFit users) (pos : Nat) :
    ∀ w ∈ words ((users.getD []).drop pos), w.length < 20 := by
  obtain ⟨recs, hfile, hrecs⟩ := h
  intro w hw
  obtain ⟨v, hv, hwv⟩ := words_of_suffix (List.drop_suffix pos _) hw
  rw [hfile] at hv
  exact Nat.lt_of_le_of_lt hwv.length_le (words_encodeUsers hrecs v hv)

theorem RecordsFit.append {users : Option Bytes} (h : RecordsFit users) {id pw : Bytes}
    (hi : id.length < 20) (hp : pw.length < 20) :
    RecordsFit (some (users.getD [] ++ record id pw)) := by
  obtain ⟨recs, hfile, hrecs⟩ := h
  refine ⟨recs ++ [(id, pw)], ?_, List.forall_mem_append.mpr ⟨hrecs, by simp [hi, hp]⟩⟩
  simp [hfile, encodeUsers]

/-! ## 3. The calls of `process_auth` -/

/-- What a call has that it may still write: an id and a password that fit, and, once it is at the
end of the file, the record of the two. -/
structure AuthFrame.Small (users : Option Bytes) (f : AuthFrame) : Prop where
  id : f.id.length < 20
  pw : f.pw.length < 20
  atEnd : f.pc = .fprintf ∨ f.pc = .regClose → f.fp.pos = (users.getD []).length
  out : f.pc = .regClose → f.fp.out = record f.id f.pw

section

variable {users users' : Option Bytes} {f g : AuthFrame}

/-- Away from the print and the close behind it only the strings count. -/
theorem AuthFrame.Small.of_strings (h : f.Small users) (hid : g.id = f.id) (hpw : g.pw = f.pw)
    (hprint : g.pc ≠ .fprintf) (hclose : g.pc ≠ .regClose) : g.Small users' :=
  ⟨hid ▸ h.id, hpw ▸ h.pw, fun hpc => absurd hpc (not_or.mpr ⟨hprint, hclose⟩),
    fun hpc => absurd hpc hclose⟩

/-- A statement keeps that the records fit, and what its call may still write. -/
theorem AuthFrame.Small.step (h : f.Small users) (hf : f.Flushed) (hu : RecordsFit users) :
    RecordsFit ((authStep users f).2.file users) ∧
      ∀ g, (authStep users f).1 = .inl g → g.Small ((authStep users f).2.file users) := by
  have hnext : ∀ {users' : Option Bytes} (g : AuthFrame), g.id = f.id → g.pw = f.pw →
      g.pc ≠ .fprintf → g.pc ≠ .regClose →
      ∀ g', (Sum.inl g : AuthFrame ⊕ Int) = .inl g' → g'.Small users' := by
    rintro users' g hid hpw hprint hclose g' ⟨⟩
    exact h.of_strings hid hpw hprint hclose
  cases hpc : f.pc with
  | fopen =>
    simp only [authStep, hpc]
    cases users with
    | none => exact ⟨⟨[], rfl, by simp⟩, hnext _ rfl rfl (by simp) (by simp)⟩
    | some content => exact ⟨hu, hnext _ rfl rfl (by simp) (by simp)⟩
  | fscanf =>
    cases he : Chat.fscanf (users.getD []) f.fp.pos f.filePw with
    | none =>
      simp only [authStep, hpc, he]
      exact ⟨hu, hnext _ rfl rfl (by simp) (by simp)⟩
    | some r =>
      simp only [authStep, hpc, he]
      split
      · exact ⟨hu, hnext _ rfl rfl (by simp) (by simp)⟩
      · exact ⟨hu, hnext _ rfl rfl (by simp) (by simp)⟩
  | branch =>
    simp only [authStep, hpc]
    split
    · split
      · exact ⟨hu, hnext _ rfl rfl (by simp) (by simp)⟩
      · exact ⟨hu, hnext _ rfl rfl (by simp) (by simp)⟩
    · exact ⟨hu, hnext _ rfl rfl (by simp) (by simp)⟩
  | fseek =>
    simp only [authStep, hpc]
    refine ⟨hu, ?_⟩
    rintro g ⟨⟩
    exact ⟨h.id, h.pw, fun _ => rfl, by simp⟩
  | fprintf =>
    have hout : f.fp.out = [] := by simpa [AuthFrame.Flushed, hpc] using hf
    simp only [authStep, hpc]
    refine ⟨hu, ?_⟩
    rintro g ⟨⟩
    exact ⟨h.id, h.pw, fun _ => h.atEnd (Or.inl hpc), fun _ => by simp [hout]⟩
  | regClose =>
    have hout := h.out hpc
    have hne : f.fp.out ≠ [] := by simp [hout, record]
    have hclose : f.fp.close (users.getD []) = users.getD [] ++ record f.id f.pw := by
      rw [Stream.close_of_end _ (h.atEnd (Or.inr hpc)), hout]
    simp only [authStep, hpc, if_neg hne, hclose, Sync.file_users]
    exact ⟨hu.append h.id h.pw, hnext _ rfl rfl (by simp) (by simp)⟩
  | existClose =>
    have hout : f.fp.out = [] := by simpa [AuthFrame.Flushed, hpc] using hf
    simp only [authStep, hpc, hout, if_true]
    exact ⟨hu, by simp⟩
  | loginClose =>
    have hout : f.fp.out = [] := by simpa [AuthFrame.Flushed, hpc] using hf
    simp only [authStep, hpc, hout, if_true]
    exact ⟨hu, hnext _ rfl rfl (by simp) (by simp)⟩
  | lock | existUnlock | loginUnlock =>
    simp only [authStep, hpc]
    exact ⟨hu, hnext _ rfl rfl (by simp) (by simp)⟩
  | regUnlock | loginReturn =>
    simp only [authStep, hpc]
    exact ⟨hu, by simp⟩

end

/-! ## 4. The handlers -/

/-- In a call of `send_msg`. -/
def HandlerPc.sending : HandlerPc → Bool
  | .sendLock | .sendLoop _ => true
  | _ => false

/-- The room of the `/join` that is being answered. -/
def HandlerPc.newRoom : HandlerPc → Option Int
  | .joinRoom n | .joinAck n => some n
  | _ => none

/-- What a handler has that it may still write. -/
structure Handler.Small (users : Option Bytes) (h : Handler) : Prop where
  id : h.fields.id.length < 20
  pw : h.fields.pw.length < 20
  auth : ∀ f, h.pc = .auth f → f.Small users
  text : h.pc.sending = true → (cstr h.msg).length < bufSize
  room : ∀ n, h.pc.newRoom = some n → IsInt n

/-- The words of the request fit, and so does what it leaves. -/
theorem decode_small {bs : Bytes} {old : AuthFields} (hbs : (decode bs ⟨[], [], []⟩).Fits)
    (hid : old.id.length < 20) (hpw : old.pw.length < 20) :
    (decode bs old).id.length < 20 ∧ (decode bs old).pw.length < 20 := by
  have hconv : ∀ (i : Nat) (o : Bytes), (converted [] (words (cstr bs)) i).length < 20 →
      o.length < 20 → (converted o (words (cstr bs)) i).length < 20 := by
    intro i o hword ho
    unfold converted at hword ⊢
    cases hw : (words (cstr bs))[i]? with
    | none => exact ho
    | some w => simpa [hw] using hword
  rw [decode_eq] at hbs ⊢
  obtain ⟨-, hbi, hbp⟩ := hbs
  exact ⟨hconv 1 _ hbi hid, hconv 2 _ hbp hpw⟩

section

variable {s : Server} {c : Addr} {h h' : Handler} {e : Effect} {ev : List Event}

theorem Effect.users_sync (s : Server) (y : Sync) : (Effect.sync y).users s = y.file s.users := by
  cases y <;> rfl

/-- Outside `process_auth`, `send_msg` and the answer to a `/join` only the strings count. -/
theorem Handler.Small.of_fields {users : Option Bytes} {h : Handler} (hid : h.fields.id.length < 20)
    (hpw : h.fields.pw.length < 20) (hauth : ∀ f, h.pc ≠ .auth f) (hsend : h.pc.sending = false)
    (hroom : h.pc.newRoom = none) : h.Small users := by
  refine ⟨hid, hpw, fun f hf => absurd hf (hauth f), fun hs => ?_, fun n hn => ?_⟩
  · rw [hsend] at hs
    cases hs
  · rw [hroom] at hn
    cases hn

theorem Handler.Small.of_auth {users : Option Bytes} {h : Handler} {f : AuthFrame}
    (hid : h.fields.id.length < 20) (hpw : h.fields.pw.length < 20) (hpc : h.pc = .auth f)
    (hf : f.Small users) : h.Small users := by
  refine ⟨hid, hpw, fun g hg => ?_, fun hs => ?_, fun n hn => ?_⟩
  · rw [hpc] at hg
    cases hg
    exact hf
  · rw [hpc] at hs
    cases hs
  · rw [hpc] at hn
    cases hn

theorem Handler.Small.of_text {users : Option Bytes} {h : Handler}
    (hid : h.fields.id.length < 20) (hpw : h.fields.pw.length < 20)
    (hsend : h.pc.sending = true) (htext : (cstr h.msg).length < bufSize) : h.Small users := by
  refine ⟨hid, hpw, fun f hf => ?_, fun _ => htext, fun n hn => ?_⟩
  · rw [hf] at hsend
    cases hsend
  · revert hsend hn
    cases h.pc <;> simp [HandlerPc.sending, HandlerPc.newRoom]

theorem Handler.Small.of_room {users : Option Bytes} {h : Handler} {n : Int}
    (hid : h.fields.id.length < 20) (hpw : h.fields.pw.length < 20)
    (hroom : h.pc.newRoom = some n) (hn : IsInt n) : h.Small users := by
  refine ⟨hid, hpw, fun f hf => ?_, fun hs => ?_, fun m hm => ?_⟩
  · rw [hf] at hroom
    cases hroom
  · revert hs hroom
    cases h.pc <;> simp [HandlerPc.sending, HandlerPc.newRoom]
  · rw [hroom] at hm
    cases hm
    exact hn

theorem small_start (users : Option Bytes) (msg : Bytes) : (Handler.start msg).Small users :=
  .of_fields (Nat.zero_lt_succ _) (Nat.zero_lt_succ _) (by simp [Handler.start]) rfl rfl

/-- A read of the chat loop that leaves room for the NUL: the text ends inside `msg`. -/
theorem Handler.Small.chat {r : ReadResult} (hsm : h.Small s.users)
    (hs : handlerStep s c h (.chat r) = some (h', e, ev)) (hr : PeerFits (.handler c (.chat r))) :
    h'.Small s.users ∧ e = .sync .skip := by
  have hplain : ∀ (pc : HandlerPc) (msg : Bytes) (n : Int), (∀ f, pc ≠ .auth f) →
      pc.sending = false → pc.newRoom = none → (⟨pc, h.fields, msg, n⟩ : Handler).Small s.users :=
    fun _ _ _ hauth hsend hroom => .of_fields hsm.id hsm.pw hauth hsend hroom
  cases hpc : h.pc with
  | chatRead =>
    simp only [handlerStep, hpc] at hs
    split at hs
    · cases r with
      | error => exact hr.elim
      | eof =>
        cases hs
        exact ⟨hplain .discLock _ _ (by simp) rfl rfl, rfl⟩
      | data bs =>
        simp only [receive] at hs
        have htext : (cstr (store h.msg (bs ++ [0]))).length < bufSize := by
          rw [cstr_store_nul]
          exact Nat.lt_of_le_of_lt (length_cstr_le bs) hr
        cases hd : dispatch (store h.msg (bs ++ [0])) with
        | ignore =>
          simp only [hd] at hs
          cases hs
          exact ⟨hplain .chatRead _ _ (by simp) rfl rfl, rfl⟩
        | join n =>
          simp only [hd] at hs
          cases hs
          have hn : IsInt n := by
            unfold dispatch at hd
            split at hd
            · split at hd
              · cases hd
                exact isInt_atoi _
              · cases hd
            · cases hd
          exact ⟨.of_room hsm.id hsm.pw rfl hn, rfl⟩
        | broadcast =>
          simp only [hd] at hs
          cases hs
          exact ⟨.of_text hsm.id hsm.pw rfl htext, rfl⟩
    · cases hs
  | _ => simp [handlerStep, hpc] at hs

/-- Every other statement. -/
theorem Move.small {x : Input} (hm : Move s c h x h' e ev) (hx : ∀ r, x ≠ .chat r)
    (hsm : h.Small s.users) (hf : h.Flushed) (hu : RecordsFit s.users)
    (hpeer : PeerFits (.handler c x)) (hstack : StackFits s (.handler c x)) :
    h'.Small (e.users s) ∧ RecordsFit (e.users s) := by
  have hplain : ∀ (pc : HandlerPc) (msg : Bytes), (∀ f, pc ≠ .auth f) → pc.sending = false →
      pc.newRoom = none → (⟨pc, h.fields, msg, h.strLen⟩ : Handler).Small s.users :=
    fun _ _ hauth hsend hroom => .of_fields hsm.id hsm.pw hauth hsend hroom
  cases hm with
  | read bs old hpc hread hold =>
    obtain ⟨hid, hpw⟩ := decode_small hpeer hstack.1 hstack.2
    refine ⟨.of_fields hid hpw (fun f => ?_) ?_ ?_, hu⟩
    all_goals
      simp only
      split <;> simp [HandlerPc.sending, HandlerPc.newRoom]
  | call fileId filePw hpc =>
    refine ⟨.of_auth hsm.id hsm.pw rfl ?_, hu⟩
    exact ⟨hsm.id, hsm.pw, by simp [AuthFrame.call], by simp [AuthFrame.call]⟩
  | auth f f' y hpc hstep =>
    obtain ⟨hfile, hnext⟩ := (hsm.auth f hpc).step (hf f hpc) hu
    rw [hstep] at hfile hnext
    rw [Effect.users_sync]
    exact ⟨.of_auth hsm.id hsm.pw rfl (hnext f' rfl), hfile⟩
  | authReturn f r y hpc hstep =>
    obtain ⟨hfile, -⟩ := (hsm.auth f hpc).step (hf f hpc) hu
    rw [hstep] at hfile
    rw [Effect.users_sync]
    exact ⟨.of_fields hsm.id hsm.pw (by simp) rfl rfl, hfile⟩
  | dupUnlock b hpc =>
    cases b <;> exact ⟨hplain _ _ (by simp) rfl rfl, hu⟩
  | replyOk hpc =>
    by_cases hmode : h.fields.mode = LOGIN
    · rw [if_pos hmode]
      exact ⟨hplain _ _ (by simp) rfl rfl, hu⟩
    · rw [if_neg hmode]
      exact ⟨hplain _ _ (by simp) rfl rfl, hu⟩
  | joinRoom n hpc =>
    exact ⟨.of_room hsm.id hsm.pw rfl (hsm.room n (by rw [hpc]; rfl)), hu⟩
  | sendLock hpc | sendNext i d hpc hi he =>
    exact ⟨.of_text hsm.id hsm.pw rfl (hsm.text (by rw [hpc]; rfl)), hu⟩
  | chatEnd r hpc | chatIgnore r msg strLen hpc | chatJoin r n msg strLen hpc
  | chatText r msg strLen hpc hread => exact absurd rfl (hx r)
  | readFails old hpc | dupLock hpc | dupCheck hpc | dupFail hpc | replyFail r hpc hr
  | setName hpc | welcome hpc | gateShut hpc hname | gateOpen hpc hname | joinAck n hpc
  | sendEnd i hpc hi | discLock hpc | discRemove hpc | discUnlock hpc | close hpc =>
    exact ⟨hplain _ _ (by simp) rfl rfl, hu⟩

end

/-! ## 5. The server -/

/-- What the server has that it may still write. -/
structure Server.Small (s : Server) : Prop where
  users : RecordsFit s.users
  names : ∀ c, (s.nameOf c).length < 20
  handlers : ∀ c h, s.handlers c = some h → h.Small s.users

section

variable {s s' : Server} {a : Action} {c : Addr} {x : Input} {g h h' : Handler} {e : Effect}
  {ev : List Event}

/-- The file is changed by a handler that has the mutex. -/
theorem Move.users (hm : Move s c h x h' e ev) (hf : h.Flushed) :
    e.users s = s.users ∨ h.pc.holds = true := by
  obtain ⟨hallow, -⟩ := hm.mutx hf
  cases e with
  | sync y =>
    cases y with
    | users content => exact Or.inr hallow
    | _ => exact Or.inl rfl
  | _ => exact Or.inl rfl

/-- A handler that does nothing: others change the file only while it has nothing to print. -/
theorem Handler.Small.frame {d : Addr} {g : Handler} {users : Option Bytes} (hg : g.Small s.users)
    (hl : Locked s) (hd : s.handlers d = some g)
    (hu : users = s.users ∨ ∃ t, t ≠ .handler d ∧ s.holds t = true) : g.Small users := by
  rcases hu with rfl | ⟨t, ht, hholds⟩
  · exact hg
  refine ⟨hg.id, hg.pw, fun f hf => ?_, hg.text, hg.room⟩
  have hidle : f.pc.holds ≠ true := by
    intro hpc
    refine ht (hl.unique hholds ?_)
    simpa [Server.holds, hd, hf, HandlerPc.holds] using hpc
  refine (hg.auth f hf).of_strings rfl rfl (fun hpc => ?_) (fun hpc => ?_)
  all_goals exact hidle (by rw [hpc]; rfl)

/-- The handler that makes the step. -/
theorem Handler.Small.step (hsm : h.Small s.users) (hs : handlerStep s c h x = some (h', e, ev))
    (hf : h.Flushed) (hu : RecordsFit s.users) (hpeer : PeerFits (.handler c x))
    (hstack : StackFits s (.handler c x)) : h'.Small (e.users s) ∧ RecordsFit (e.users s) := by
  by_cases hx : ∃ r, x = .chat r
  · obtain ⟨r, rfl⟩ := hx
    obtain ⟨hsm', rfl⟩ := hsm.chat hs hpeer
    exact ⟨hsm', hu⟩
  · exact (handlerStep_move hs).small (fun r hr => hx ⟨r, hr⟩) hsm hf hu hpeer hstack

/-- Names come from `malloc`, or from the id of a handler. -/
theorem Server.Small.names_step (h : s.Small) (hs : StepOf s a s' ev) (hstack : StackFits s a) :
    ∀ d, (s'.nameOf d).length < 20 := by
  intro d
  rcases hs.nameOf d with heq | ⟨sock, name, rfl, -, heq⟩ | ⟨f, -, hf, -, -, heq⟩
  · rw [heq]
    exact h.names d
  · rw [heq]
    exact hstack
  · rw [heq, strcpy, cstr_store_nul]
    exact Nat.lt_of_le_of_lt (length_cstr_le _) (h.handlers d f hf).id

/-- One step. -/
theorem Server.Small.step (h : s.Small) (hal : Alive s) (hl : Locked s)
    (hs : serverStep s a = some (s', ev)) (hpeer : PeerFits a) (hstack : StackFits s a) :
    s'.Small := by
  have hnames := h.names_step (serverStep_stepOf hs) hstack
  cases a with
  | main x =>
    cases serverStep_stepOf hs with
    | main hm he =>
      rename_i pc e s₁
      have ha := Server.applied he
      have husers : s₁.users = s.users := by
        rw [ha.users]
        cases hm <;> rfl
      refine ⟨by rw [husers]; exact h.users, hnames, fun d g hg => ?_⟩
      simp only [ha.handlers] at hg
      rw [husers]
      rcases hm.handlers hal d with heq | ⟨-, msg, heq⟩
      · exact h.handlers d g (heq ▸ hg)
      · rw [heq] at hg
        cases hg
        exact small_start _ _
  | handler c x =>
    obtain ⟨f, f', e, s₁, hf, hstep, he, rfl⟩ := serverStep_handler hs
    have ha := Server.applied he
    have hm := handlerStep_move hstep
    have hflushed := hl.flushed c f hf
    obtain ⟨hsm, hu⟩ := (h.handlers c f hf).step hstep hflushed h.users hpeer hstack
    rw [← ha.users] at hsm hu
    refine ⟨hu, hnames, fun d g hg => ?_⟩
    by_cases hd : d = c
    · subst hd
      simp only [Function.update_self, Option.some.injEq] at hg
      exact hg ▸ hsm
    · simp only [Function.update_of_ne hd, ha.handlers,
        Effect.handlers_of_handler hm.ofMain] at hg
      refine (h.handlers d g hg).frame hl hg ?_
      rw [ha.users]
      refine (hm.users hflushed).imp_right fun hholds => ⟨.handler c, ?_, ?_⟩
      · exact fun heq => hd (Tid.handler.inj heq).symm
      · simpa [Server.holds, hf] using hholds

/-! ## 6. The result -/

theorem length_welcomeText (name : Bytes) : (welcomeText name).length = name.length + 49 := by
  have hfront : (utf8 ">>> 서버: 환영합니다 ").length = 28 := by decide
  have hback : (utf8 "님! (로비 입장)\n").length = 21 := by decide
  rw [welcomeText, List.length_append, List.length_append, hfront, hback]
  omega

theorem length_joinText (n : Int) : (joinText n).length = (decimal n).length + 46 := by
  have hfront : (utf8 ">>> 서버: ").length = 12 := by decide
  have hback : (utf8 "번 방으로 이동했습니다.\n").length = 34 := by decide
  rw [joinText, List.length_append, List.length_append, hfront, hback]
  omega

/-- A statement other than a read writes what the handler has. -/
theorem Server.Small.go_inBounds (h : s.Small) (hc : s.handlers c = some g) :
    ∀ w ∈ g.writes s c .go, w.InBounds := by
  have hg := h.handlers c g hc
  have hname := h.names c
  cases hpc : g.pc with
  | auth f =>
    simp only [Handler.writes, hpc]
    split
    · exact scanned_record_inBounds (h.users.words_drop f.fp.pos)
    · simp
  | setName =>
    simp only [Handler.writes, hpc, List.forall_mem_singleton, string_inBounds]
    exact hg.id
  | welcome =>
    simp only [Handler.writes, hpc, List.forall_mem_singleton, string_inBounds,
      length_welcomeText, Buf.size, bufSize]
    omega
  | joinAck n =>
    have hn := length_decimal_le (hg.room n (by rw [hpc]; rfl))
    simp only [Handler.writes, hpc, List.forall_mem_singleton, string_inBounds,
      length_joinText, Buf.size, bufSize]
    omega
  | sendLoop i =>
    have htext := hg.text (by rw [hpc]; rfl)
    simp only [Handler.writes, hpc]
    split
    · rename_i hsend
      have hfront : (utf8 "[").length = 1 ∧ (utf8 "] ").length = 2 := by decide
      simp only [List.forall_mem_singleton, string_inBounds, Server.payloadOf, payload,
        if_neg hsend.2.2, List.length_append, hfront, Buf.size]
      omega
    · simp
  | _ => simp [Handler.writes, hpc]

/-- A step whose input fits writes inside the arrays. -/
theorem Server.Small.inBounds (h : s.Small) (hs : StepOf s a s' ev) (hpeer : PeerFits a) :
    ∀ w ∈ s.writes a, w.InBounds := by
  cases hs with
  | main hm he => simp [Server.writes]
  | handler hc hm he =>
    rename_i c x g g' e s₁
    simp only [Server.writes, hc, Option.elim_some]
    cases x with
    | go => exact h.go_inBounds hc
    | arrays fileId filePw => simp [Handler.writes]
    | request r old =>
      cases hm with
      | readFails hpc => simp [Handler.writes]
      | read bs old hpc hread hold =>
        have hlen := hread.2.2
        simp only [PeerFits, decode_eq] at hpeer
        simp only [Handler.writes, List.forall_mem_cons]
        refine ⟨?_, ?_, (scanned_request_inBounds _).mpr hpeer⟩
        all_goals
          simp only [BufWrite.InBounds, Buf.size, bufSize] at hlen ⊢
          omega
    | chat r =>
      cases r with
      | eof => simp [Handler.writes]
      | error => exact hpeer.elim
      | data bs =>
        simp only [PeerFits] at hpeer
        simp only [Handler.writes, List.forall_mem_cons]
        refine ⟨?_, ?_, by simp⟩
        all_goals
          simp only [BufWrite.InBounds, Buf.size]
          omega

/-- A step that writes inside the arrays has an input that fits. -/
theorem StepOf.peerFits (hs : StepOf s a s' ev) (hw : ∀ w ∈ s.writes a, w.InBounds) :
    PeerFits a := by
  cases hs with
  | main hm he => trivial
  | handler hc hm he =>
    rename_i c x g g' e s₁
    simp only [Server.writes, hc, Option.elim_some] at hw
    cases x with
    | go | arrays _ _ => trivial
    | request r old =>
      cases r with
      | none => trivial
      | some bs =>
        simp only [Handler.writes, List.forall_mem_cons] at hw
        simp only [PeerFits, decode_eq]
        exact (scanned_request_inBounds _).mp hw.2.2
    | chat r =>
      cases r with
      | eof => trivial
      | error => exact absurd (hw _ (List.mem_singleton_self _)).1 (by simp)
      | data bs =>
        simp only [Handler.writes, List.forall_mem_cons] at hw
        have hnul := hw.2.1.2
        simp only [Buf.size] at hnul
        simp only [PeerFits]
        omega

end

/-- For every run of the server over a file that `process_auth` has written, whatever the clients
send and however the threads interleave: all writes into the arrays are in bounds exactly if the
words of every first request fit `mode`, `id` and `pw`, and every later read returns fewer bytes
than `msg` has, and not -1. -/
theorem writes_in_bounds_iff {users : Option Bytes} {log : List (Action × List BufWrite)}
    {s : Server} (hfile : RecordsFit users)
    (h : Runs bufferStep StackFits (.init users) log s) :
    (∀ x ∈ log, ∀ w ∈ x.2, w.InBounds) ↔ ∀ x ∈ log, PeerFits x.1 := by
  have hI : Alive s ∧ Locked s ∧ ((∀ x ∈ log, PeerFits x.1) → s.Small) ∧
      ((∀ x ∈ log, ∀ w ∈ x.2, w.InBounds) ↔ ∀ x ∈ log, PeerFits x.1) := by
    refine h.invariant (I := fun log s => Alive s ∧ Locked s ∧
      ((∀ x ∈ log, PeerFits x.1) → s.Small) ∧
      ((∀ x ∈ log, ∀ w ∈ x.2, w.InBounds) ↔ ∀ x ∈ log, PeerFits x.1)) ?_ ?_
    · refine ⟨alive_init users, locked_init users, fun _ => ⟨hfile, ?_, ?_⟩, by simp⟩
      · intro c
        exact Nat.zero_lt_succ _
      · rintro c h ⟨⟩
    · rintro log s a s' ev - ⟨hal, hl, hsm, hiff⟩ hstack hs
      obtain ⟨⟨s₁, ev₁⟩, hstep, heq⟩ := Option.map_eq_some_iff.mp hs
      cases heq
      have hstepOf := serverStep_stepOf hstep
      refine ⟨hal.step hstepOf, hl.step hal hstepOf, fun hfits => ?_, ?_⟩
      · obtain ⟨hlog, ha⟩ := List.forall_mem_append.mp hfits
        exact (hsm hlog).step hal hl hstep (ha _ (List.mem_singleton_self _)) hstack
      · rw [List.forall_mem_append, List.forall_mem_append, List.forall_mem_singleton,
          List.forall_mem_singleton, hiff]
        refine and_congr_right fun hlog => ?_
        exact ⟨fun hw => hstepOf.peerFits hw, fun ha => (hsm hlog).inBounds hstepOf ha⟩
  exact hI.2.2.2

/-- A user logs in, goes to a room, and says something there: all nine arrays are written. -/
def joinsAndSays : List Action :=
  connects 4 (List.replicate 20 0) ++ logsIn 0 "LOGIN kim 1" 7 ++ goesOn 0 4 ++
    hears 0 "/join 3" 2 ++ hears 0 "hi" 3

theorem writes_in_bounds_joinsAndSays : ∃ log s,
    Runs bufferStep StackFits (.init (some (utf8 "kim 1\n"))) log s ∧
    (∀ b ∈ [Buf.authBuf, .mode, .id, .pw, .name, .msg, .fileId, .filePw, .finalMsg],
      ∃ x ∈ log, ∃ w ∈ x.2, w.buf = b) ∧
    ((∀ x ∈ log, ∀ w ∈ x.2, w.InBounds) ↔ ∀ x ∈ log, PeerFits x.1) := by
  have hfile : RecordsFit (some (utf8 "kim 1\n")) :=
    ⟨[(utf8 "kim", utf8 "1")], by decide, by decide⟩
  obtain ⟨log, s, hrun, hp⟩ : ∃ log s,
      Runs bufferStep StackFits (.init (some (utf8 "kim 1\n"))) log s ∧
      decide (∀ b ∈ [Buf.authBuf, .mode, .id, .pw, .name, .msg, .fileId, .filePw, .finalMsg],
        ∃ x ∈ log, ∃ w ∈ x.2, w.buf = b) = true :=
    exists_runs_of_exec joinsAndSays _ (by decide +kernel)
  exact ⟨log, s, hrun, of_decide_eq_true hp, writes_in_bounds_iff hfile hrun⟩

/-- A user who is logged in sends as many bytes as `msg` has, and somebody else an id of 20. -/
def fillsAndOverflows : List Action :=
  connects 4 (List.replicate 20 0) ++ logsIn 0 "LOGIN kim 1" 7 ++ goesOn 0 4 ++
    .handler 0 (.chat (.data (List.replicate bufSize 97))) ::
    connects 5 (List.replicate 20 0) ++
    [.handler 1 (.request (some (utf8 "LOGIN aaaaaaaaaaaaaaaaaaaa 1")) ⟨[], [], []⟩)]

/-- The NUL behind the text and the NUL behind the id are written behind the arrays. -/
theorem overflows : ∃ log s,
    Runs bufferStep StackFits (.init (some (utf8 "kim 1\n"))) log s ∧
    (∃ x ∈ log, ⟨.msg, 1024, 1⟩ ∈ x.2) ∧ (∃ x ∈ log, ⟨.id, 0, 21⟩ ∈ x.2) ∧
    ¬(⟨.msg, 1024, 1⟩ : BufWrite).InBounds ∧ ¬(⟨.id, 0, 21⟩ : BufWrite).InBounds := by
  obtain ⟨log, s, hrun, hp⟩ : ∃ log s,
      Runs bufferStep StackFits (.init (some (utf8 "kim 1\n"))) log s ∧
      decide ((∃ x ∈ log, ⟨.msg, 1024, 1⟩ ∈ x.2) ∧ ∃ x ∈ log, ⟨.id, 0, 21⟩ ∈ x.2) = true :=
    exists_runs_of_exec fillsAndOverflows _ (by decide +kernel)
  obtain ⟨hmsg, hid⟩ := of_decide_eq_true hp
  exact ⟨log, s, hrun, hmsg, hid, by decide, by decide⟩

end PosixLab.Chat
