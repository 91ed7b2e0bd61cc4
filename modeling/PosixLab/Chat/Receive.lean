/-
# What the client shows of what the server writes

After a login the server writes `OK`, a welcome, and then acknowledgements and broadcasts.  The
client reads its answer with one `read` of up to 99 bytes, of which it looks at the first two,
and leaves the rest of the stream to the thread `recv_msg`, which makes one entry in the chat
window of each `read` of up to 1023 bytes.  There is no framing here either.

`messages_received` says what that gives: when the answer is read as the two bytes `OK` and each
message comes in a read of its own, every message is shown once, in order and whole; for texts
that is the only case; and as long as no read looks like a file announcement, whatever is read
behind the answer is shown, byte for byte.
-/
import PosixLab.Basis.Stream
import PosixLab.Chat.ChatLoop

namespace PosixLab.Chat

open PosixLab

/-! ## 1. What the server writes -/

/-- A message behind the `OK`: the welcome, an acknowledgement, or a broadcast of a text that
came in one read of the sender's handler. -/
inductive ServerMsg
  | welcome (name : Bytes)
  | joined (newRoom : Int)
  | said (sender text : Bytes)

/-- The bytes of a message. -/
def ServerMsg.bytes : ServerMsg → Bytes
  | .welcome name => welcomeText name
  | .joined n => joinText n
  | .said sender text => payload sender (store [] (text ++ [0])) text.length

/-- Names and texts are C strings, and an empty text is not sent. -/
def ServerMsg.Ok : ServerMsg → Prop
  | .welcome name => NulFree name
  | .joined _ => True
  | .said sender text => NulFree sender ∧ NulFree text ∧ text ≠ []

instance decidableServerMsgOk : (m : ServerMsg) → Decidable m.Ok
  | .welcome name => inferInstanceAs (Decidable (NulFree name))
  | .joined _ => inferInstanceAs (Decidable True)
  | .said _ _ => inferInstanceAs (Decidable (_ ∧ _ ∧ _))

/-- Whether the client takes these bytes for the announcement of a file. -/
def isFile (bs : Bytes) : Prop := utf8 "[FILE]" <+: bs

instance (bs : Bytes) : Decidable (isFile bs) := inferInstanceAs (Decidable (_ <+: _))

/-! ## 2. The client -/

/-- Whether `on_login_clicked` starts the chat, for the bytes its `read` returned. -/
def onLoginAnswer (res : Bytes) : Bool := utf8 "OK" <+: cstr (res ++ [0])

/-- A read of `recv_msg`: its bytes, what the array `filename` held before, and whether the file
can be opened. -/
structure Reading where
  bs : Bytes
  filename : Bytes
  opens : Bool

/-- The entry for a file that was announced. -/
def savedText (filename : Bytes) : Bytes :=
  utf8 ">>> 파일 저장됨: " ++ (utf8 "recv_" ++ filename)

/-- What `sscanf(msg, "[FILE] %s", filename)` leaves in `filename`. -/
def scanFilename (msg old : Bytes) : Bytes := converted old (words (msg.drop 6)) 0

/-- The entry that `recv_msg` hands to the UI for the array `msg`, if it does. -/
def entryOf (msg : Bytes) (r : Reading) : Option Bytes :=
  if isFile (cstr msg) then
    if r.opens = true then some (savedText (scanFilename (cstr msg) r.filename)) else none
  else some (cstr msg)

/-- The entries that `recv_msg` hands to the UI. -/
def recvMsg (msg : Bytes) : List Reading → List Bytes
  | [] => []
  | r :: rs =>
    match entryOf (store msg (r.bs ++ [0])) r with
    | none => recvMsg (store msg (r.bs ++ [0])) rs
    | some entry => entry :: recvMsg (store msg (r.bs ++ [0])) rs

/-- The entries of a client whose login was answered with `res`; `none` when it did not get into
the chat. -/
def session (res msg : Bytes) (rs : List Reading) : Option (List Bytes) :=
  if onLoginAnswer res = true then some (recvMsg msg rs) else none

/-! ## 3. What the user should see -/

/-- The entry for a message: its bytes, or one announcement. -/
def ServerMsg.ShownAs (m : ServerMsg) (entry : Bytes) : Prop :=
  if isFile m.bytes then ∃ old, entry = savedText (scanFilename m.bytes old) else entry = m.bytes

/-- Every message is handed to the UI once, in order, as an entry of its own and whole. -/
def Delivered (ms : List ServerMsg) (shown : Option (List Bytes)) : Prop :=
  ∃ entries, shown = some entries ∧ List.Forall₂ ServerMsg.ShownAs ms entries

/-! ## 4. One read -/

theorem nulFree_serverMsg {m : ServerMsg} (h : m.Ok) : NulFree m.bytes := by
  cases m with
  | welcome name =>
    exact (NulFree.append (.of_notMem (by decide)) h).append
      (.of_notMem (by decide))
  | joined n =>
    exact (NulFree.append (.of_notMem (by decide)) (nulFree_decimal n)).append
      (.of_notMem (by decide))
  | said sender text =>
    obtain ⟨hs, ht, -⟩ := h
    simp only [ServerMsg.bytes, payload_receive sender [] ht]
    split
    · exact ht
    · exact ((NulFree.append (.of_notMem (by decide)) hs).append
        (.of_notMem (by decide))).append ht

/-- No text of the server reads like the entry for a file. -/
theorem serverMsg_ne_savedText {m : ServerMsg} (h : m.Ok) (hf : ¬ isFile m.bytes)
    (filename : Bytes) : m.bytes ≠ savedText filename := by
  -- they differ in the first five bytes
  have htake : ∀ (a x : Bytes), 5 ≤ a.length → (a ++ x).take 5 = a.take 5 :=
    fun a x ha => List.take_append_of_le_length ha
  have hsaved : (savedText filename).take 5 = (utf8 ">>> 파일 저장됨: ").take 5 :=
    htake _ _ (by decide)
  intro heq
  rw [← heq] at hsaved
  cases m with
  | welcome name =>
    rw [ServerMsg.bytes, welcomeText, List.append_assoc, htake _ _ (by decide)] at hsaved
    revert hsaved
    decide
  | joined n =>
    rw [ServerMsg.bytes, joinText, List.append_assoc, htake _ _ (by decide)] at hsaved
    revert hsaved
    decide
  | said sender text =>
    simp only [ServerMsg.bytes, payload_receive sender [] h.2.1] at hsaved hf
    split at hsaved
    · rename_i hfile
      rw [if_pos hfile] at hf
      exact hf hfile
    · have hbracket : utf8 "[" = [91] := by decide
      have hhead := congrArg List.head? hsaved
      simp only [hbracket, List.append_assoc, List.cons_append, List.take_succ_cons,
        List.head?_cons] at hhead
      revert hhead
      decide

/-- The entry for a read, whatever the array held before. -/
def Reading.entry (r : Reading) : Option Bytes := entryOf r.bs r

section

variable {r : Reading}

theorem entryOf_text (hn : NulFree r.bs) (hf : ¬ isFile r.bs) : r.entry = some r.bs := by
  rw [Reading.entry, entryOf, cstr_of_nulFree hn, if_neg hf]

theorem entryOf_file (hn : NulFree r.bs) (hf : isFile r.bs) :
    r.entry =
      if r.opens = true then some (savedText (scanFilename r.bs r.filename)) else none := by
  rw [Reading.entry, entryOf, cstr_of_nulFree hn, if_pos hf]

/-- Each read is an entry by itself, and what the array held before does not show. -/
theorem recvMsg_eq {rs : List Reading} {msg : Bytes} (h : ∀ r ∈ rs, NulFree r.bs) :
    recvMsg msg rs = rs.filterMap Reading.entry := by
  induction rs generalizing msg with
  | nil => rfl
  | cons r rs ih =>
    have hr := h r List.mem_cons_self
    have hentry : entryOf (store msg (r.bs ++ [0])) r = r.entry := by
      simp only [Reading.entry, entryOf, cstr_receive msg hr, cstr_of_nulFree hr]
    have hrest : recvMsg (store msg (r.bs ++ [0])) rs = rs.filterMap Reading.entry :=
      ih fun x hx => h x (List.mem_cons_of_mem _ hx)
    rw [recvMsg, hentry, hrest]
    cases he : r.entry <;> simp [he]

end

/-! ## 5. The result -/

/-- Messages that come in a read each are shown. -/
theorem forall₂_shownAs {rs : List Reading} {ms : List ServerMsg}
    (h : rs.map Reading.bs = ms.map ServerMsg.bytes) (hn : ∀ r ∈ rs, NulFree r.bs)
    (ho : ∀ r ∈ rs, isFile r.bs → r.opens = true) :
    List.Forall₂ ServerMsg.ShownAs ms (rs.filterMap Reading.entry) := by
  induction rs generalizing ms with
  | nil =>
    rw [List.map_eq_nil_iff.mp h.symm]
    exact .nil
  | cons r rs ih =>
    obtain ⟨m, ms, rfl, hr, hrs⟩ := List.map_eq_cons_iff.mp h.symm
    replace hr := hr.symm
    have hnr := hn r List.mem_cons_self
    replace ih := ih hrs.symm (fun x hx => hn x (List.mem_cons_of_mem _ hx))
      (fun x hx => ho x (List.mem_cons_of_mem _ hx))
    by_cases hf : isFile r.bs
    · have hentry := entryOf_file hnr hf
      rw [if_pos (ho r List.mem_cons_self hf)] at hentry
      rw [List.filterMap_cons_some hentry]
      refine .cons ?_ ih
      rw [ServerMsg.ShownAs, ← hr, if_pos hf]
      exact ⟨r.filename, rfl⟩
    · rw [List.filterMap_cons_some (entryOf_text hnr hf)]
      refine .cons ?_ ih
      rw [ServerMsg.ShownAs, ← hr, if_neg hf]

/-- Messages none of which announces a file are shown as they are. -/
theorem entries_of_forall₂ {ms : List ServerMsg} {entries : List Bytes}
    (h : List.Forall₂ ServerMsg.ShownAs ms entries) (hf : ∀ m ∈ ms, ¬ isFile m.bytes) :
    entries = ms.map ServerMsg.bytes := by
  induction h with
  | nil => rfl
  | cons hm _ ih =>
    rw [ServerMsg.ShownAs, if_neg (hf _ List.mem_cons_self)] at hm
    rw [hm, ih fun m hmem => hf m (List.mem_cons_of_mem _ hmem), List.map_cons]

/-- Reads that are shown as they are, or not at all, show all their bytes only if each is
shown. -/
theorem shown_length (rs : List Reading)
    (h : ∀ r ∈ rs, r.bs ≠ [] ∧ (r.entry = none ∨ r.entry = some r.bs)) :
    (rs.filterMap Reading.entry).flatten.length ≤ (rs.map Reading.bs).flatten.length ∧
      ((rs.map Reading.bs).flatten.length ≤
          (rs.filterMap Reading.entry).flatten.length →
        (rs.filterMap Reading.entry) = rs.map Reading.bs) := by
  induction rs with
  | nil => exact ⟨Nat.le_refl _, fun _ => rfl⟩
  | cons r rs ih =>
    obtain ⟨hne, hr⟩ := h r List.mem_cons_self
    obtain ⟨hle, heq⟩ := ih fun x hx => h x (List.mem_cons_of_mem _ hx)
    have hpos : 0 < r.bs.length := List.length_pos_iff.mpr hne
    rcases hr with hr | hr
    · rw [List.filterMap_cons_none hr, List.map_cons, List.flatten_cons, List.length_append]
      exact ⟨by omega, fun hge => by omega⟩
    · rw [List.filterMap_cons_some hr, List.map_cons, List.flatten_cons, List.flatten_cons,
        List.length_append, List.length_append]
      refine ⟨by omega, fun hge => ?_⟩
      rw [heq (by omega)]

theorem onLoginAnswer_iff {res : Bytes} (h : NulFree res) :
    onLoginAnswer res = true ↔ utf8 "OK" <+: res := by
  rw [onLoginAnswer, cstr_append_zero h, decide_eq_true_iff]

/-- A read whose entry is a message other than an announcement is shown as it is, or not at
all: no message reads like the entry for a file. -/
theorem entry_of_mem {r : Reading} {ms : List ServerMsg} (hms : ∀ m ∈ ms, m.Ok)
    (hf : ∀ m ∈ ms, ¬ isFile m.bytes) (hn : NulFree r.bs)
    (hmem : ∀ entry, r.entry = some entry → entry ∈ ms.map ServerMsg.bytes) :
    r.entry = none ∨ r.entry = some r.bs := by
  by_cases hfile : isFile r.bs
  · have hentry := entryOf_file hn hfile
    split at hentry
    · obtain ⟨m, hm, heq⟩ := List.mem_map.mp (hmem _ hentry)
      exact absurd heq (serverMsg_ne_savedText (hms m hm) (hf m hm) _)
    · exact Or.inl hentry
  · exact Or.inr (entryOf_text hn hfile)

/-- Messages that are all shown, none of them an announcement, came in a read each, and nothing
was read with the answer. -/
theorem eq_of_delivered {rest : Bytes} {rs : List Reading} {ms : List ServerMsg}
    (hms : ∀ m ∈ ms, m.Ok) (hf : ∀ m ∈ ms, ¬ isFile m.bytes)
    (hrs : ∀ r ∈ rs, NulFree r.bs ∧ r.bs ≠ [])
    (hflat : rest ++ (rs.map Reading.bs).flatten = (ms.map ServerMsg.bytes).flatten)
    (hall : List.Forall₂ ServerMsg.ShownAs ms (rs.filterMap Reading.entry)) :
    rest = [] ∧ rs.map Reading.bs = ms.map ServerMsg.bytes := by
  have hentries := entries_of_forall₂ hall hf
  have hshown : ∀ r ∈ rs, r.bs ≠ [] ∧ (r.entry = none ∨ r.entry = some r.bs) := by
    intro r hr
    refine ⟨(hrs r hr).2, entry_of_mem hms hf (hrs r hr).1 fun entry he => ?_⟩
    exact hentries ▸ List.mem_filterMap.mpr ⟨r, hr, he⟩
  obtain ⟨hle, heq⟩ := shown_length rs hshown
  rw [hentries] at hle heq
  have hlen := congrArg List.length hflat
  rw [List.length_append] at hlen
  exact ⟨List.eq_nil_of_length_eq_zero (by omega), (heq (by omega)).symm⟩

/-- For every sequence of messages that the server writes behind the `OK`, and every way the
stream is cut into a read of up to 99 bytes for the answer and reads of up to 1023 bytes for
`recv_msg`:

* if the answer is read as `OK` and each message comes in a read of its own, every message is
  handed to the UI once, in order and whole, or as one announcement where it names a file that
  can be opened;
* if no message announces a file, that is so in no other case;
* if the answer starts with `OK` and no read looks like the announcement of a file, each read is
  one entry, and the entries are the stream behind the answer, byte for byte. -/
theorem messages_received {res msg : Bytes} {rs : List Reading} {ms : List ServerMsg}
    (hms : ∀ m ∈ ms, m.Ok) (hres : res.length ≤ 99)
    (hcut : Cuts 1023 (res :: rs.map Reading.bs) (utf8 "OK" :: ms.map ServerMsg.bytes)) :
    (res = utf8 "OK" → rs.map Reading.bs = ms.map ServerMsg.bytes →
      (∀ r ∈ rs, isFile r.bs → r.opens = true) → Delivered ms (session res msg rs)) ∧
    ((∀ m ∈ ms, ¬ isFile m.bytes) → (Delivered ms (session res msg rs) ↔
      res = utf8 "OK" ∧ rs.map Reading.bs = ms.map ServerMsg.bytes)) ∧
    (utf8 "OK" <+: res → (∀ r ∈ rs, ¬ isFile r.bs) →
      session res msg rs = some (rs.map Reading.bs) ∧
        res ++ (rs.map Reading.bs).flatten = utf8 "OK" ++ (ms.map ServerMsg.bytes).flatten) := by
  have hnul : ∀ x ∈ res :: rs.map Reading.bs, NulFree x := by
    intro x hx b hb
    obtain ⟨w, hw, hbw⟩ := hcut.mem hx hb
    rcases List.mem_cons.mp hw with rfl | hw
    · exact NulFree.of_notMem (a := utf8 "OK") (by decide) b hbw
    · obtain ⟨m, hm, rfl⟩ := List.mem_map.mp hw
      exact nulFree_serverMsg (hms m hm) b hbw
  have hnres : NulFree res := hnul res List.mem_cons_self
  have hnrs : ∀ r ∈ rs, NulFree r.bs :=
    fun r hr => hnul _ (List.mem_cons_of_mem _ (List.mem_map_of_mem hr))
  have hne : ∀ r ∈ rs, r.bs ≠ [] :=
    fun r hr => hcut.nonempty _ (List.mem_cons_of_mem _ (List.mem_map_of_mem hr))
  have hflat : res ++ (rs.map Reading.bs).flatten =
      utf8 "OK" ++ (ms.map ServerMsg.bytes).flatten := hcut.flatten_eq
  have hsession : utf8 "OK" <+: res → session res msg rs = some (rs.filterMap Reading.entry) := by
    intro h
    rw [session, if_pos ((onLoginAnswer_iff hnres).mpr h), recvMsg_eq hnrs]
  have hdeliver : res = utf8 "OK" → rs.map Reading.bs = ms.map ServerMsg.bytes →
      (∀ r ∈ rs, isFile r.bs → r.opens = true) → Delivered ms (session res msg rs) :=
    fun h heq ho => ⟨_, hsession (h ▸ List.prefix_refl _), forall₂_shownAs heq hnrs ho⟩
  refine ⟨hdeliver, fun hf => ⟨?_, ?_⟩, ?_⟩
  · rintro ⟨entries, hsess, hall⟩
    have hok : utf8 "OK" <+: res := by
      by_contra h
      rw [session, if_neg (fun h' => h ((onLoginAnswer_iff hnres).mp h'))] at hsess
      cases hsess
    rw [hsession hok] at hsess
    cases hsess
    obtain ⟨rest, rfl⟩ := hok
    rw [List.append_assoc] at hflat
    obtain ⟨hrest, heq⟩ := eq_of_delivered hms hf (fun r hr => ⟨hnrs r hr, hne r hr⟩)
      (List.append_cancel_left hflat) hall
    exact ⟨by rw [hrest, List.append_nil], heq⟩
  · rintro ⟨h, heq⟩
    refine hdeliver h heq fun r hr hfile => ?_
    have hmem : r.bs ∈ ms.map ServerMsg.bytes := heq ▸ List.mem_map_of_mem hr
    obtain ⟨m, hm, hbytes⟩ := List.mem_map.mp hmem
    exact absurd (hbytes ▸ hfile) (hf m hm)
  · intro hok hfs
    refine ⟨?_, hflat⟩
    have hall : rs.filterMap Reading.entry = rs.map Reading.bs := by
      rw [← List.filterMap_eq_map]
      exact List.filterMap_congr fun r hr => entryOf_text (hnrs r hr) (hfs r hr)
    rw [hsession hok, hall]

/-- A reading of a message, into an array that was empty. -/
def Reading.of (bs : Bytes) : Reading := ⟨bs, [], true⟩

theorem messages_received_two :
    Delivered [.welcome (utf8 "kim"), .said (utf8 "lee") (utf8 "hi")]
      (session (utf8 "OK") [] [.of (welcomeText (utf8 "kim")), .of (utf8 "[lee] hi")]) := by
  have hcut : Cuts 1023
      (utf8 "OK" :: [Reading.of (welcomeText (utf8 "kim")), .of (utf8 "[lee] hi")].map Reading.bs)
      (utf8 "OK" :: [ServerMsg.welcome (utf8 "kim"), .said (utf8 "lee") (utf8 "hi")].map
        ServerMsg.bytes) :=
    ⟨by decide, by decide, by decide⟩
  exact (messages_received (by decide +kernel) (by decide) hcut).1 rfl
    (by decide) (by decide)

/-- The server writes `OK` and the welcome one after the other.  When the client reads both at
once the welcome is not shown. -/
theorem welcome_lost :
    (∀ m ∈ [ServerMsg.welcome (utf8 "kim")], m.Ok) ∧
    (utf8 "OK" ++ welcomeText (utf8 "kim")).length ≤ 99 ∧
    Cuts 1023 [utf8 "OK" ++ welcomeText (utf8 "kim")]
      (utf8 "OK" :: [ServerMsg.welcome (utf8 "kim")].map ServerMsg.bytes) ∧
    ¬ Delivered [.welcome (utf8 "kim")]
      (session (utf8 "OK" ++ welcomeText (utf8 "kim")) [] []) := by
  refine ⟨by decide +kernel, by decide,
    ⟨by decide, by decide, by decide⟩, ?_⟩
  rintro ⟨entries, hsess, hall⟩
  have hnone : entries = [] := by
    simp only [session] at hsess
    split at hsess <;> cases hsess
    rfl
  rw [hnone] at hall
  cases hall

end PosixLab.Chat
