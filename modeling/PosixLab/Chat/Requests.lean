/-
# The first request of a connection

A client opens a connection, sends one line `REGISTER id pw` or `LOGIN id pw`, and the handler
on the other side takes it apart with `sscanf(auth_buf, "%s %s %s", mode, id, pw)`.  The two
sides do not agree on what a field is.  The client sends any nonempty text, formatted into 50
bytes; the server reads blank-free words into arrays of 10, 20 and 20 bytes, and does not look
at how many words it got.

* `credentials_roundtrip_iff`: what the user typed is what the server decodes, and everything
  fits, exactly when id and password are free of blanks and have at most 19 bytes.
* `registrations_durable`: over any sequence of requests, registrations last and nobody else can
  log in, as long as each new registration leaves a word in `id` and a word in `pw`.
-/
import PosixLab.Basis.Runs
import PosixLab.Chat.UserMap

namespace PosixLab.Chat

open PosixLab

/-! ## 1. The server's side -/

/-- The arrays `mode[10]`, `id[20]` and `pw[20]` of `handle_clnt`, as the C strings they
hold. -/
structure AuthFields where
  mode : Bytes
  id : Bytes
  pw : Bytes
deriving DecidableEq

/-- What `sscanf(auth_buf, "%s %s %s", mode, id, pw)` makes of the bytes that were read, in
arrays that hold `old` before. -/
def decode (authBuf : Bytes) (old : AuthFields) : AuthFields :=
  let r := sscanf3 (cstr authBuf) old.mode old.id old.pw
  ⟨r.1, r.2.1, r.2.2⟩

/-- Each string fits its array, with the NUL behind it. -/
def AuthFields.Fits (x : AuthFields) : Prop :=
  x.mode.length + 1 ≤ 10 ∧ x.id.length + 1 ≤ 20 ∧ x.pw.length + 1 ≤ 20

instance (x : AuthFields) : Decidable x.Fits := inferInstanceAs (Decidable (_ ∧ _ ∧ _))

/-- What the arrays hold are C strings. -/
def AuthFields.Strings (x : AuthFields) : Prop :=
  NulFree x.mode ∧ NulFree x.id ∧ NulFree x.pw

instance (x : AuthFields) : Decidable x.Strings := inferInstanceAs (Decidable (_ ∧ _ ∧ _))

/-- In terms of the words of the request. -/
theorem decode_eq (authBuf : Bytes) (old : AuthFields) :
    decode authBuf old =
      ⟨converted old.mode (words (cstr authBuf)) 0, converted old.id (words (cstr authBuf)) 1,
        converted old.pw (words (cstr authBuf)) 2⟩ := by
  simp only [decode, sscanf3_eq]

/-- `sscanf` leaves C strings in the arrays. -/
theorem decode_strings {old : AuthFields} (h : old.Strings) (authBuf : Bytes) :
    (decode authBuf old).Strings := by
  obtain ⟨hm, hi, hp⟩ := h
  rw [decode_eq]
  exact ⟨nulFree_converted hm (nulFree_cstr _) 0, nulFree_converted hi (nulFree_cstr _) 1,
    nulFree_converted hp (nulFree_cstr _) 2⟩

/-! ## 2. The client's side -/

/-- The request `on_signup_confirm` sends for the two texts typed, if they pass its check. -/
def onSignupConfirm (newId newPw : Bytes) : Option Bytes :=
  if newId.length = 0 ∨ newPw.length = 0 then none
  else some (REGISTER ++ 32 :: (newId ++ 32 :: newPw))

/-- The request `on_login_clicked` sends. -/
def onLoginClicked (idText pwText : Bytes) : Option Bytes :=
  if idText.length = 0 ∨ pwText.length = 0 then none
  else some (LOGIN ++ 32 :: (idText ++ 32 :: pwText))

/-- The size of `req` and of `login_info`. -/
def reqSize : Nat := 50

theorem isField_REGISTER : IsField REGISTER := ⟨by decide +kernel, by decide +kernel⟩

theorem isField_LOGIN : IsField LOGIN := ⟨by decide +kernel, by decide +kernel⟩

/-- The request fits the client's array, and, whatever the server's arrays hold before, they
hold the mode, the id and the password afterwards, and these fit. -/
def RoundTrips (req mode id pw : Bytes) : Prop :=
  req.length + 1 ≤ reqSize ∧
    ∀ old : AuthFields, decode req old = ⟨mode, id, pw⟩ ∧ (decode req old).Fits

/-- The texts that survive: without blanks, and at most 19 bytes. -/
def Plain (text : Bytes) : Prop := (∀ b ∈ text, isspace b = false) ∧ text.length ≤ 19

instance (text : Bytes) : Decidable (Plain text) := inferInstanceAs (Decidable (_ ∧ _))

/-- A line of three words is decoded into them. -/
theorem decode_line {mode id pw : Bytes} (hm : IsField mode) (hi : IsField id) (hp : IsField pw)
    (old : AuthFields) : decode (mode ++ 32 :: (id ++ 32 :: pw)) old = ⟨mode, id, pw⟩ := by
  have hnul : NulFree (mode ++ 32 :: (id ++ 32 :: pw)) := by
    have h : NulFree (mode ++ [32] ++ (id ++ [32] ++ pw)) :=
      (hm.nulFree.append (by decide +kernel)).append
        ((hi.nulFree.append (by decide +kernel)).append hp.nulFree)
    simpa using h
  rw [decode_eq, cstr_of_nulFree hnul, words_append_space (by decide),
    words_append_space (by decide), words_word hm.word, words_word hi.word, words_word hp.word]
  rfl

/-- What is decoded into arrays that were empty is words. -/
theorem isWord_decode {authBuf : Bytes} {mode id pw : Bytes}
    (h : decode authBuf ⟨[], [], []⟩ = ⟨mode, id, pw⟩) :
    (id ≠ [] → IsWord id) ∧ (pw ≠ [] → IsWord pw) := by
  have hconv : ∀ i, converted [] (words (cstr authBuf)) i ≠ [] →
      IsWord (converted [] (words (cstr authBuf)) i) := by
    intro i hne
    unfold converted at hne ⊢
    cases hw : (words (cstr authBuf))[i]? with
    | none => simp [hw] at hne
    | some w => exact isWord_of_mem_words (List.mem_of_getElem? hw)
  rw [decode_eq] at h
  obtain ⟨-, rfl, rfl⟩ := (AuthFields.mk.injEq _ _ _ _ _ _).mp h
  exact ⟨hconv 1, hconv 2⟩

/-- The round trip of one line, whose mode is a word that leaves room for two texts of 19
bytes. -/
theorem roundTrips_line {mode id pw : Bytes} (hm : IsField mode) (hlen : mode.length + 1 ≤ 10)
    (hi : id ≠ [] ∧ NulFree id) (hp : pw ≠ [] ∧ NulFree pw) :
    RoundTrips (mode ++ 32 :: (id ++ 32 :: pw)) mode id pw ↔ Plain id ∧ Plain pw := by
  constructor
  · rintro ⟨-, h⟩
    obtain ⟨heq, hfits⟩ := h ⟨[], [], []⟩
    obtain ⟨hwi, hwp⟩ := isWord_decode heq
    rw [heq] at hfits
    obtain ⟨-, hli, hlp⟩ := hfits
    exact ⟨⟨(hwi hi.1).2, Nat.le_of_succ_le_succ hli⟩,
      ⟨(hwp hp.1).2, Nat.le_of_succ_le_succ hlp⟩⟩
  · rintro ⟨⟨hbi, hli⟩, ⟨hbp, hlp⟩⟩
    refine ⟨?_, fun old => ?_⟩
    · simp only [List.length_append, List.length_cons, reqSize]
      omega
    · rw [decode_line hm ⟨⟨hi.1, hbi⟩, hi.2⟩ ⟨⟨hp.1, hbp⟩, hp.2⟩]
      exact ⟨rfl, hlen, Nat.succ_le_succ hli, Nat.succ_le_succ hlp⟩

/-- For every id and password that the client accepts -- texts of a GTK entry have no NUL --
the server decodes what the user typed, and everything fits, exactly when both are free of
blanks and have at most 19 bytes. -/
theorem credentials_roundtrip_iff {id pw req : Bytes} (hi : NulFree id) (hp : NulFree pw) :
    (onSignupConfirm id pw = some req →
      (RoundTrips req REGISTER id pw ↔ Plain id ∧ Plain pw)) ∧
    (onLoginClicked id pw = some req →
      (RoundTrips req LOGIN id pw ↔ Plain id ∧ Plain pw)) := by
  have hne : ∀ {t : Bytes}, ¬ t.length = 0 → t ≠ [] := by
    rintro t h rfl
    exact h rfl
  constructor
  · intro h
    unfold onSignupConfirm at h
    split at h
    · cases h
    · rename_i hlen
      obtain ⟨h₁, h₂⟩ := not_or.mp hlen
      cases h
      exact roundTrips_line isField_REGISTER (by decide) ⟨hne h₁, hi⟩ ⟨hne h₂, hp⟩
  · intro h
    unfold onLoginClicked at h
    split at h
    · cases h
    · rename_i hlen
      obtain ⟨h₁, h₂⟩ := not_or.mp hlen
      cases h
      exact roundTrips_line isField_LOGIN (by decide) ⟨hne h₁, hi⟩ ⟨hne h₂, hp⟩

theorem credentials_roundtrip_kim :
    RoundTrips (utf8 "LOGIN kim 1234") LOGIN (utf8 "kim") (utf8 "1234") ↔
      Plain (utf8 "kim") ∧ Plain (utf8 "1234") :=
  (credentials_roundtrip_iff (by decide +kernel) (by decide +kernel)).2 (by decide)

/-- The id `kim lee` is read as the id `kim`, and its second half as the password. -/
theorem credentials_roundtrip_blank :
    onLoginClicked (utf8 "kim lee") (utf8 "1234") = some (utf8 "LOGIN kim lee 1234") ∧
      ¬ RoundTrips (utf8 "LOGIN kim lee 1234") LOGIN (utf8 "kim lee") (utf8 "1234") := by
  refine ⟨by decide, ?_⟩
  rintro ⟨-, h⟩
  exact absurd (h ⟨[], [], []⟩).1 (by decide)

/-! ## 3. Requests one after the other -/

/-- A first request: the bytes read, and what the handler's arrays and those of `process_auth`
held before. -/
structure Request where
  authBuf : Bytes
  old : AuthFields
  filePw : Bytes

/-- A request that has been answered: what it was decoded to, and the value of `process_auth`,
of which 0 is answered with `OK`. -/
structure Answer where
  fields : AuthFields
  result : Int
deriving DecidableEq

/-- The users file, and the requests answered so far. -/
structure AuthLog where
  users : Bytes
  answers : List Answer

/-- An empty `users.txt`. -/
def AuthLog.init : AuthLog := ⟨[], []⟩

/-- One request. -/
def serve (s : AuthLog) (r : Request) : AuthLog :=
  let x := decode r.authBuf r.old
  let p := processAuth s.users x.mode x.id x.pw r.filePw
  ⟨p.1, s.answers ++ [⟨x, p.2⟩]⟩

/-- The bytes fill `auth_buf` at most, the arrays hold C strings, and the words that are
scanned fit them. -/
structure Request.WellFormed (r : Request) : Prop where
  read : r.authBuf.length ≤ 1023
  strings : r.old.Strings
  old : r.old.Fits
  fits : (decode r.authBuf r.old).Fits

instance (r : Request) : Decidable r.WellFormed :=
  decidable_of_iff (r.authBuf.length ≤ 1023 ∧ r.old.Strings ∧ r.old.Fits ∧
    (decode r.authBuf r.old).Fits)
    ⟨fun h => ⟨h.1, h.2.1, h.2.2.1, h.2.2.2⟩, fun h => ⟨h.read, h.strings, h.old, h.fits⟩⟩

/-- A registration that was answered with `OK`. -/
def Answer.Registers (a : Answer) (id : Bytes) : Prop :=
  a.fields.mode = REGISTER ∧ a.fields.id = id ∧ a.result = 0

instance (a : Answer) (id : Bytes) : Decidable (a.Registers id) :=
  inferInstanceAs (Decidable (_ ∧ _ ∧ _))

/-- Registrations last, and only the registered can log in: after a `REGISTER id pw` with
nonempty id and password has been answered with `OK` every `LOGIN id pw` is accepted, and every
`LOGIN` that is accepted has such an `OK` for its id before it. -/
structure Durable (s : AuthLog) : Prop where
  lasts : s.answers.Pairwise fun a b => a.Registers b.fields.id → b.fields.id ≠ [] →
    b.fields.pw ≠ [] → b.fields.mode = LOGIN → a.fields.pw = b.fields.pw → b.result = 0
  only : ∀ i b, s.answers[i]? = some b → b.fields.mode = LOGIN → b.result = 0 →
    ∃ a ∈ s.answers.take i, a.Registers b.fields.id

/-- What a request must leave in the arrays: a `REGISTER` of an id that is not registered yet
leaves one word in `id` and one in `pw`. -/
def WholeRecord (s : AuthLog) (r : Request) : Prop :=
  (decode r.authBuf r.old).mode = REGISTER →
    (∃ a ∈ s.answers, a.Registers (decode r.authBuf r.old).id) ∨
      (IsWord (decode r.authBuf r.old).id ∧ IsWord (decode r.authBuf r.old).pw)

/-- What the answers say about the ids: those registered, with the password of the `OK`. -/
structure Tracks (s : AuthLog) (m : UserMap) : Prop where
  represents : Represents s.users m
  bound : ∀ a ∈ s.answers, ∀ id, a.Registers id → m id = some a.fields.pw
  registered : ∀ id p, m id = some p → ∃ a ∈ s.answers, a.Registers id
  durable : Durable s

theorem tracks_init : Tracks .init .empty := by
  refine ⟨represents_empty, by simp [AuthLog.init], by simp [UserMap.empty], .nil, ?_⟩
  intro i b h
  simp [AuthLog.init] at h

theorem LOGIN_ne_REGISTER : LOGIN ≠ REGISTER := by decide

/-- The new answer respects those before it. -/
theorem Tracks.durable_snoc {s : AuthLog} {m : UserMap} (h : Tracks s m) {x : AuthFields}
    {users : Bytes} {result : Int} (hlogin : x.mode = LOGIN → (result = 0 ↔ m x.id = some x.pw)) :
    Durable ⟨users, s.answers ++ [⟨x, result⟩]⟩ := by
  constructor
  · refine List.pairwise_append.mpr ⟨h.durable.lasts, List.pairwise_singleton _ _, ?_⟩
    intro a ha b hb hreg _ _ hmode hpw
    cases List.mem_singleton.mp hb
    exact (hlogin hmode).mpr ((h.bound a ha _ hreg).trans (congrArg some hpw))
  · intro i b hi hmode hzero
    by_cases hlt : i < s.answers.length
    · rw [List.getElem?_append_left hlt] at hi
      rw [List.take_append_of_le_length hlt.le]
      exact h.durable.only i b hi hmode hzero
    · rw [List.getElem?_append_right (by omega)] at hi
      obtain ⟨rfl, hlen⟩ : b = ⟨x, result⟩ ∧ i - s.answers.length = 0 := by
        cases hd : i - s.answers.length with
        | zero => simpa [hd, eq_comm] using hi
        | succ n => simp [hd] at hi
      have heq : i = s.answers.length := by omega
      subst heq
      rw [List.take_left']
      · exact h.registered _ _ ((hlogin hmode).mp hzero)
      · rfl

/-- One request that leaves a whole record. -/
theorem Tracks.step {s : AuthLog} {m : UserMap} (h : Tracks s m) {r : Request}
    (hwf : r.WellFormed) (hrec : WholeRecord s r) : ∃ m', Tracks (serve s r) m' := by
  obtain ⟨-, hnid, hnpw⟩ := decode_strings hwf.strings r.authBuf
  generalize hx : decode r.authBuf r.old = x at hnid hnpw
  have hfield : x.mode = REGISTER → m x.id = none → IsField x.id ∧ IsField x.pw := by
    intro hm hnone
    rw [WholeRecord, hx] at hrec
    rcases hrec hm with ⟨a, ha, hreg⟩ | ⟨hi, hp⟩
    · rw [h.bound a ha _ hreg] at hnone
      cases hnone
    · exact ⟨⟨hi, hnid⟩, ⟨hp, hnpw⟩⟩
  obtain ⟨hrep, hres⟩ := h.represents.processAuth r.filePw hfield
  refine ⟨(m.apply (opOf x.mode x.id x.pw)).1, ?_⟩
  rw [serve, hx]
  simp only [hres]
  refine ⟨hrep, ?_, ?_, ?_⟩
  · intro a ha id hreg
    rcases List.mem_append.mp ha with ha | ha
    · exact UserMap.apply_of_bound (h.bound a ha id hreg) _
    · cases List.mem_singleton.mp ha
      obtain ⟨hm, rfl, hzero⟩ := hreg
      simp only at hm hzero
      rw [hm, opOf_register] at hzero ⊢
      have hnone := UserMap.apply_register_eq_zero.mp hzero
      simp [UserMap.apply, hnone]
  · intro id p hid
    rcases UserMap.bound_of_apply hid with hid | ⟨hop, hzero⟩
    · obtain ⟨a, ha, hreg⟩ := h.registered id p hid
      exact ⟨a, List.mem_append_left _ ha, hreg⟩
    · have hm : x.mode = REGISTER := by
        by_contra hm
        rw [opOf_login hm] at hop
        cases hop
      refine ⟨_, List.mem_append_right _ (List.mem_singleton_self _), hm, ?_, hzero⟩
      rw [hm, opOf_register] at hop
      cases hop
      rfl
  · refine h.durable_snoc fun hm => ?_
    rw [opOf_login (hm ▸ LOGIN_ne_REGISTER), UserMap.apply_login_eq_zero]

/-- Over every sequence of requests, each of which meets the condition in the state it comes
in, registrations last and only the registered can log in. -/
theorem registrations_durable {rs : List Request} (hwf : ∀ r ∈ rs, r.WellFormed)
    (hrec : Each serve WholeRecord .init rs) : Always serve Durable .init rs := by
  have hI : ∃ m, Tracks .init m := ⟨_, tracks_init⟩
  refine always_of_each (I := fun s => ∃ m, Tracks s m) ?_ ?_ hI hwf hrec
  · rintro s ⟨m, h⟩
    exact h.durable
  · rintro s r ⟨m, h⟩ hr hw
    exact h.step hr hw

/-- A request read into empty arrays. -/
def Request.fresh (text : String) : Request := ⟨utf8 text, ⟨[], [], []⟩, []⟩

instance (s : AuthLog) (r : Request) : Decidable (WholeRecord s r) :=
  inferInstanceAs (Decidable (_ → _ ∨ _))

theorem registrations_durable_two :
    Always serve Durable .init [.fresh "REGISTER kim 1234", .fresh "LOGIN kim 1234"] :=
  registrations_durable (by decide +kernel) (by decide +kernel)

/-- A registration without a password puts one word into the file.  It is paired with the id of
the next registration, which nobody can log in with from then on. -/
theorem registration_lost :
    (∀ r ∈ [Request.fresh "REGISTER alice", .fresh "REGISTER bob 1234", .fresh "LOGIN bob 1234"],
      r.WellFormed) ∧
    ¬ Always serve Durable .init
      [.fresh "REGISTER alice", .fresh "REGISTER bob 1234", .fresh "LOGIN bob 1234"] := by
  refine ⟨by decide +kernel, fun h => ?_⟩
  have hlasts := List.pairwise_iff_getElem.mp h.last.lasts 1 2
  revert hlasts
  decide

end PosixLab.Chat
