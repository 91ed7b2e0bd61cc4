/-
# Chat messages and the reads they arrive in

The client writes chat texts and `/join` commands to its socket, and the chat loop of
`handle_clnt` takes each `read` for one message.  Neither side sends a length or a delimiter, so
nothing keeps a read from returning two writes, or a half.

`segmentation_iff` says what that design gives.  As long as the reads return the writes one by
one the loop does what the client asked for, whatever comes later; and if no text starts with
`/`, it does all that the client asked for exactly when each read returns one write.
-/
import PosixLab.Basis.Stream
import PosixLab.Chat.ChatLoop

namespace PosixLab.Chat

open PosixLab

/-! ## 1. The loop -/

/-- What the loop does for its client: a room change, or a call of `send_msg` in the room the
client is in. -/
inductive ChatOp
  | setRoom (newRoom : Int)
  | broadcast (room : Int) (text : Bytes)
deriving DecidableEq

/-- What the loop keeps: the array `msg`, and the room of the client. -/
structure ChatState where
  msg : Bytes
  room : Int

/-- One iteration; `none` when the loop ends. -/
def chatStep (s : ChatState) (r : ReadResult) : Option (ChatState × List ChatOp) :=
  match receive s.msg r with
  | none => none
  | some (msg, _) =>
    match dispatch msg with
    | .ignore => some (⟨msg, s.room⟩, [])
    | .join n => some (⟨strcpy msg (joinText n), n⟩, [.setRoom n])
    | .broadcast => some (⟨msg, s.room⟩, [.broadcast s.room (cstr msg)])

/-- What the loop does with a list of reads. -/
def chatOps (s : ChatState) : List ReadResult → List ChatOp
  | [] => []
  | r :: rs =>
    match chatStep s r with
    | none => []
    | some (s', ops) => ops ++ chatOps s' rs

/-! ## 2. The client -/

/-- The command `on_room_clicked` sends. -/
def onRoomClicked (roomNum : Int) : Bytes :=
  if roomNum = 0 then utf8 "/join 0" else utf8 "/join " ++ decimal roomNum

/-- The text `on_send_clicked` sends, if there is one. -/
def onSendClicked (msg : Bytes) : Option Bytes := if msg.length = 0 then none else some msg

/-- A click of the user. -/
inductive Click
  | room (roomNum : Int)
  | send (msg : Bytes)

/-- What a click writes to the socket. -/
def Click.write : Click → Option Bytes
  | .room n => some (onRoomClicked n)
  | .send msg => onSendClicked msg

/-- A room is a C int; the text of an entry has no NUL, and 1 to 1023 bytes. -/
def Click.Ok : Click → Prop
  | .room n => IsInt n
  | .send msg => NulFree msg ∧ msg ≠ [] ∧ msg.length ≤ 1023

/-- Not a text that the loop takes for a command. -/
def Click.Plain : Click → Prop
  | .room _ => True
  | .send msg => msg.head? ≠ some 47

instance decidableClickOk : (c : Click) → Decidable c.Ok
  | .room _ => inferInstanceAs (Decidable (_ ∧ _))
  | .send _ => inferInstanceAs (Decidable (_ ∧ _ ∧ _))

instance decidableClickPlain : (c : Click) → Decidable c.Plain
  | .room _ => inferInstanceAs (Decidable True)
  | .send msg => inferInstanceAs (Decidable (msg.head? ≠ some 47))

/-- What the user asks for, starting in `room`. -/
def intended (room : Int) : List Click → List ChatOp
  | [] => []
  | .room n :: cs => .setRoom n :: intended n cs
  | .send msg :: cs => .broadcast room msg :: intended room cs

/-- The writes of the clicks. -/
def writes (cs : List Click) : List Bytes := cs.filterMap Click.write

/-! ## 3. One read -/

theorem onRoomClicked_eq (n : Int) : onRoomClicked n = 47 :: (utf8 "join " ++ decimal n) := by
  unfold onRoomClicked
  split
  · rename_i h
    subst h
    decide
  · rfl

theorem prefix_onRoomClicked (n : Int) : utf8 "/join" <+: onRoomClicked n := by
  rw [onRoomClicked_eq]
  exact (by decide : utf8 "/join" <+: 47 :: utf8 "join ").trans (List.prefix_append _ _)

theorem head?_onRoomClicked (n : Int) : (onRoomClicked n).head? = some 47 := by
  rw [onRoomClicked_eq]
  rfl

theorem onRoomClicked_ne_nil (n : Int) : onRoomClicked n ≠ [] := by
  rw [onRoomClicked_eq]
  exact List.cons_ne_nil _ _

/-- A command has one slash, at its start. -/
theorem slash_not_mem_join (n : Int) : (47 : Byte) ∉ utf8 "join " ++ decimal n := by
  intro h
  rcases List.mem_append.mp h with h | h
  · revert h
    decide
  · rcases mem_decimal h with h | h
    · cases h
    · cases h

theorem nulFree_onRoomClicked (n : Int) : NulFree (onRoomClicked n) := by
  rw [onRoomClicked_eq]
  exact NulFree.append (.of_notMem (a := 47 :: utf8 "join ") (by decide))
    (nulFree_decimal n)

section

variable {bs : Bytes}

theorem head?_receive (msg : Bytes) (hne : bs ≠ []) :
    (store msg (bs ++ [0])).head? = bs.head? := by
  obtain ⟨b, rest, rfl⟩ := List.exists_cons_of_ne_nil hne
  rfl

/-- A read that does not start with a slash is broadcast. -/
theorem chatStep_text (s : ChatState) (hn : NulFree bs) (hne : bs ≠ [])
    (hb : bs.head? ≠ some 47) :
    chatStep s (.data bs) =
      some (⟨store s.msg (bs ++ [0]), s.room⟩, [.broadcast s.room bs]) := by
  simp only [chatStep, receive, dispatch, head?_receive s.msg hne, if_neg hb,
    cstr_receive s.msg hn]

/-- A read that starts with a slash is not: it is a command or nothing. -/
theorem chatStep_slash (s : ChatState) (hn : NulFree bs) (hne : bs ≠ [])
    (hb : bs.head? = some 47) :
    ∃ s', (chatStep s (.data bs) = some (s', []) ∧ ¬ utf8 "/join" <+: bs) ∨
      ∃ n, chatStep s (.data bs) = some (s', [.setRoom n]) := by
  simp only [chatStep, receive, dispatch, head?_receive s.msg hne, if_pos hb,
    cstr_receive s.msg hn]
  by_cases hj : utf8 "/join" <+: bs
  · simp only [if_pos hj]
    exact ⟨_, Or.inr ⟨_, rfl⟩⟩
  · simp only [if_neg hj]
    exact ⟨_, Or.inl ⟨rfl, hj⟩⟩

/-- A command that arrives in one read. -/
theorem chatStep_room (s : ChatState) {n : Int} (hn : IsInt n) :
    ∃ msg, chatStep s (.data (onRoomClicked n)) = some (⟨msg, n⟩, [.setRoom n]) := by
  have heq : onRoomClicked n = utf8 "/join " ++ decimal n := onRoomClicked_eq n
  have hatoi : atoi (cstr ((store s.msg (onRoomClicked n ++ [0])).drop 6)) = n := by
    have hdrop : (store s.msg (onRoomClicked n ++ [0])).drop 6 =
        decimal n ++ 0 :: s.msg.drop (onRoomClicked n ++ [0]).length := by
      rw [store, heq, List.append_assoc, List.append_assoc,
        show 6 = (utf8 "/join ").length by decide, List.drop_left]
      rfl
    rw [hdrop, cstr_append_zero (nulFree_decimal n), ← List.append_nil (decimal n)]
    exact atoi_decimal hn rfl
  refine ⟨strcpy (store s.msg (onRoomClicked n ++ [0])) (joinText n), ?_⟩
  simp only [chatStep, receive, dispatch, head?_receive s.msg (onRoomClicked_ne_nil n),
    if_pos (head?_onRoomClicked n), cstr_receive s.msg (nulFree_onRoomClicked n),
    if_pos (prefix_onRoomClicked n), hatoi]

end

/-! ## 4. Reads that do the same are the same -/

/-- What the loop does something with when it arrives in one read. -/
def IsMessage (w : Bytes) : Prop :=
  (∃ n, IsInt n ∧ w = onRoomClicked n) ∨ (NulFree w ∧ w ≠ [] ∧ w.head? ≠ some 47)

/-- What a read returns from a stream of texts. -/
def IsRead (r : Bytes) : Prop := NulFree r ∧ r ≠ []

/-- The operations of the loop on reads that return data. -/
def ops (s : ChatState) (reads : List Bytes) : List ChatOp := chatOps s (reads.map .data)

section

variable {s t : ChatState} {r w l : Bytes} {reads ws : List Bytes}

theorem ops_text (s : ChatState) (hr : IsRead r) (hb : r.head? ≠ some 47) :
    ∃ s', s'.room = s.room ∧
      ∀ reads, ops s (r :: reads) = .broadcast s.room r :: ops s' reads := by
  refine ⟨⟨store s.msg (r ++ [0]), s.room⟩, rfl, fun reads => ?_⟩
  simp only [ops, List.map_cons, chatOps, chatStep_text s hr.1 hr.2 hb]
  rfl

theorem ops_room (s : ChatState) {n : Int} (hn : IsInt n) :
    ∃ s', s'.room = n ∧ ∀ reads, ops s (onRoomClicked n :: reads) = .setRoom n :: ops s' reads := by
  obtain ⟨msg, hstep⟩ := chatStep_room s hn
  refine ⟨⟨msg, n⟩, rfl, fun reads => ?_⟩
  simp only [ops, List.map_cons, chatOps, hstep]
  rfl

theorem ops_slash (s : ChatState) (hr : IsRead r) (hb : r.head? = some 47) :
    ∃ s', ((∀ reads, ops s (r :: reads) = ops s' reads) ∧ ¬ utf8 "/join" <+: r) ∨
      ∃ n, ∀ reads, ops s (r :: reads) = .setRoom n :: ops s' reads := by
  obtain ⟨s', ⟨hstep, hj⟩ | ⟨n, hstep⟩⟩ := chatStep_slash s hr.1 hr.2 hb
  · refine ⟨s', Or.inl ⟨fun reads => ?_, hj⟩⟩
    simp only [ops, List.map_cons, chatOps, hstep]
    rfl
  · refine ⟨s', Or.inr ⟨n, fun reads => ?_⟩⟩
    simp only [ops, List.map_cons, chatOps, hstep]
    rfl

theorem ops_message (s : ChatState) (h : IsMessage w) :
    ∃ s' op, ∀ reads, ops s (w :: reads) = op :: ops s' reads := by
  rcases h with ⟨n, hn, rfl⟩ | ⟨hnul, hne, hb⟩
  · obtain ⟨s', -, hops⟩ := ops_room s hn
    exact ⟨s', _, hops⟩
  · obtain ⟨s', -, hops⟩ := ops_text s ⟨hnul, hne⟩ hb
    exact ⟨s', _, hops⟩

/-- The first byte of a nonempty chunk is that of the stream. -/
theorem head?_of_append {rest x : Bytes} (hr : r ≠ []) (hl : l ≠ []) (h : r ++ rest = l ++ x) :
    r.head? = l.head? := by
  obtain ⟨b, r, rfl⟩ := List.exists_cons_of_ne_nil hr
  obtain ⟨c, l, rfl⟩ := List.exists_cons_of_ne_nil hl
  exact congrArg some (List.cons.inj h).1

theorem head?_of_not_mem (h : (47 : Byte) ∉ l) : l.head? ≠ some 47 :=
  fun hh => h (List.mem_of_mem_head? hh)

/-- Bytes without a slash are broadcast with the read they come first in. -/
theorem ops_broadcast {x : Bytes} (hreads : ∀ r ∈ reads, IsRead r) (hl : l ≠ [])
    (hslash : (47 : Byte) ∉ l) (h : reads.flatten = l ++ x) :
    ∃ r reads' s', reads = r :: reads' ∧ ops s reads = .broadcast s.room r :: ops s' reads' := by
  cases reads with
  | nil => exact absurd (List.append_eq_nil_iff.mp h.symm).1 hl
  | cons r reads =>
    have hr := hreads r List.mem_cons_self
    have hhead := head?_of_append hr.2 hl h
    obtain ⟨s', -, hops⟩ := ops_text s hr (hhead ▸ head?_of_not_mem hslash)
    exact ⟨r, reads, s', rfl, hops reads⟩

/-- Reads that are behind the writes, by some bytes without a slash, stay behind. -/
theorem ops_ne_of_behind (hreads : ∀ r ∈ reads, IsRead r) (hws : ∀ w ∈ ws, IsMessage w)
    (hl : l ≠ []) (hslash : (47 : Byte) ∉ l) (h : reads.flatten = l ++ ws.flatten) :
    ops s reads ≠ ops t ws := by
  induction ws generalizing reads l s t with
  | nil =>
    obtain ⟨r, reads, s', rfl, hops⟩ := ops_broadcast (s := s) hreads hl hslash h
    rw [hops]
    exact List.cons_ne_nil _ _
  | cons w ws ih =>
    obtain ⟨r, reads, s', rfl, hops⟩ := ops_broadcast (s := s) hreads hl hslash h
    intro heq
    rw [hops] at heq
    rcases hws w List.mem_cons_self with ⟨n, hn, rfl⟩ | ⟨hnul, hne, hb⟩
    · obtain ⟨t', -, hops'⟩ := ops_room t hn
      rw [hops'] at heq
      cases heq
    · obtain ⟨t', -, hops'⟩ := ops_text t ⟨hnul, hne⟩ hb
      rw [hops'] at heq
      obtain ⟨hop, htail⟩ := List.cons.inj heq
      obtain ⟨-, rfl⟩ := ChatOp.broadcast.inj hop
      obtain ⟨l', hperm, hrest⟩ := chunk_rotate (by simpa using h.symm)
      refine ih (fun x hx => hreads x (List.mem_cons_of_mem _ hx))
        (fun x hx => hws x (List.mem_cons_of_mem _ hx)) ?_ ?_ hrest htail
      · rintro rfl
        exact hl hperm.nil_eq.symm
      · exact fun hmem => hslash (hperm.mem_iff.mp hmem)

/-- No slash stands behind the first byte of a command. -/
theorem slash_not_mem_behind {n : Int} (hl : l ≠ []) (h : l ++ r <+: onRoomClicked n) :
    (47 : Byte) ∉ r := by
  obtain ⟨b, l, rfl⟩ := List.exists_cons_of_ne_nil hl
  rw [onRoomClicked_eq, List.cons_append] at h
  intro hmem
  exact slash_not_mem_join n ((List.cons_prefix_cons.mp h).2.subset
    (List.mem_append_right l hmem))

/-- Reads that are ahead of the writes stay ahead. -/
theorem ops_ne_of_ahead (hreads : ∀ r ∈ reads, IsRead r) (hws : ∀ w ∈ ws, IsMessage w)
    (hl : l ≠ []) (h : l ++ reads.flatten = ws.flatten) : ops s reads ≠ ops t ws := by
  induction reads generalizing ws l s t with
  | nil =>
    cases ws with
    | nil => exact absurd (List.append_eq_nil_iff.mp h).1 hl
    | cons w ws =>
      obtain ⟨t', op, hops'⟩ := ops_message t (hws w List.mem_cons_self)
      rw [hops']
      exact (List.cons_ne_nil _ _).symm
  | cons r reads ih =>
    cases ws with
    | nil => exact absurd (List.append_eq_nil_iff.mp h).1 hl
    | cons w ws =>
      have hr := hreads r List.mem_cons_self
      have hreads' : ∀ x ∈ reads, IsRead x := fun x hx => hreads x (List.mem_cons_of_mem _ hx)
      have hws' : ∀ x ∈ ws, IsMessage x := fun x hx => hws x (List.mem_cons_of_mem _ hx)
      intro heq
      by_cases hb : r.head? = some 47
      · obtain ⟨s', ⟨hops, -⟩ | ⟨m, hops⟩⟩ := ops_slash s hr hb
        · -- the read is ignored
          rw [hops] at heq
          exact ih hreads' hws (l := l ++ r) (by simp [hl]) (by simpa using h) heq
        · rw [hops] at heq
          rcases hws w List.mem_cons_self with ⟨n, hn, rfl⟩ | ⟨hnul, hne, hbw⟩
          · obtain ⟨t', -, hops'⟩ := ops_room t hn
            rw [hops'] at heq
            obtain ⟨-, htail⟩ := List.cons.inj heq
            have hcat : (l ++ r) ++ reads.flatten = onRoomClicked n ++ ws.flatten := by
              simpa using h
            have hmem : (47 : Byte) ∈ r := List.mem_of_mem_head? hb
            rcases chunks_comparable hcat with heqw | ⟨x, -, hw, -⟩ | ⟨x, hx, -, hrest⟩
            · exact slash_not_mem_behind hl (by rw [heqw]) hmem
            · exact slash_not_mem_behind hl (hw ▸ List.prefix_append _ _) hmem
            · exact ih hreads' hws' hx hrest htail
          · obtain ⟨t', -, hops'⟩ := ops_text t ⟨hnul, hne⟩ hbw
            rw [hops'] at heq
            cases heq
      · obtain ⟨s', -, hops⟩ := ops_text s hr hb
        rw [hops] at heq
        rcases hws w List.mem_cons_self with ⟨n, hn, rfl⟩ | ⟨hnul, hne, hbw⟩
        · obtain ⟨t', -, hops'⟩ := ops_room t hn
          rw [hops'] at heq
          cases heq
        · obtain ⟨t', -, hops'⟩ := ops_text t ⟨hnul, hne⟩ hbw
          rw [hops'] at heq
          obtain ⟨hop, htail⟩ := List.cons.inj heq
          obtain ⟨-, rfl⟩ := ChatOp.broadcast.inj hop
          obtain ⟨l', hperm, hrest⟩ := chunk_rotate (by simpa using h)
          refine ih hreads' hws' (l := l') ?_ hrest.symm htail
          rintro rfl
          exact hl hperm.nil_eq.symm

/-- Reads of a stream of messages that do what the messages do are the messages. -/
theorem eq_of_ops_eq (hreads : ∀ r ∈ reads, IsRead r) (hws : ∀ w ∈ ws, IsMessage w)
    (h : reads.flatten = ws.flatten) (heq : ops s reads = ops t ws) : reads = ws := by
  induction ws generalizing reads s t with
  | nil =>
    cases reads with
    | nil => rfl
    | cons r reads =>
      have hr := hreads r List.mem_cons_self
      exact absurd (List.append_eq_nil_iff.mp h).1 hr.2
  | cons w ws ih =>
    cases reads with
    | nil =>
      obtain ⟨t', op, hops'⟩ := ops_message t (hws w List.mem_cons_self)
      rw [hops'] at heq
      cases heq
    | cons r reads =>
      have hr := hreads r List.mem_cons_self
      have hreads' : ∀ x ∈ reads, IsRead x := fun x hx => hreads x (List.mem_cons_of_mem _ hx)
      have hws' : ∀ x ∈ ws, IsMessage x := fun x hx => hws x (List.mem_cons_of_mem _ hx)
      rcases hws w List.mem_cons_self with ⟨n, hn, rfl⟩ | ⟨hnul, hne, hbw⟩
      · obtain ⟨t', -, hops'⟩ := ops_room t hn
        rw [hops'] at heq
        have hhead := head?_of_append hr.2 (onRoomClicked_ne_nil n) h
        rw [head?_onRoomClicked] at hhead
        rcases chunks_comparable h with rfl | ⟨l, hl, hw, hrest⟩ | ⟨l, hl, rfl, hrest⟩
        · obtain ⟨s', -, hops⟩ := ops_room s hn
          rw [hops] at heq
          rw [ih hreads' hws' (List.append_cancel_left h) (List.cons.inj heq).2]
        · -- the read ends within the command
          have hslash : (47 : Byte) ∉ l := slash_not_mem_behind hr.2 (by rw [← hw])
          obtain ⟨s', ⟨hops, -⟩ | ⟨m, hops⟩⟩ := ops_slash s hr hhead
          · rw [hops] at heq
            obtain ⟨r', reads', s'', -, hops''⟩ := ops_broadcast (s := s') hreads' hl hslash hrest
            rw [hops''] at heq
            cases heq
          · rw [hops] at heq
            exact absurd (List.cons.inj heq).2 (ops_ne_of_behind hreads' hws' hl hslash hrest)
        · -- the read goes on behind the command
          obtain ⟨s', ⟨-, hj⟩ | ⟨m, hops⟩⟩ := ops_slash s hr hhead
          · exact absurd ((prefix_onRoomClicked n).trans (List.prefix_append _ _)) hj
          · rw [hops] at heq
            exact absurd (List.cons.inj heq).2 (ops_ne_of_ahead hreads' hws' hl hrest)
      · obtain ⟨t', -, hops'⟩ := ops_text t ⟨hnul, hne⟩ hbw
        have hhead := head?_of_append hr.2 hne h
        obtain ⟨s', -, hops⟩ := ops_text s hr (hhead ▸ hbw)
        rw [hops, hops'] at heq
        obtain ⟨hop, htail⟩ := List.cons.inj heq
        obtain ⟨-, rfl⟩ := ChatOp.broadcast.inj hop
        rw [ih hreads' hws' (List.append_cancel_left h) htail]

/-- The operations of some reads are the first ones of those of all. -/
theorem prefix_ops {pre reads : List Bytes} {s : ChatState} (h : pre <+: reads) :
    ops s pre <+: ops s reads := by
  induction pre generalizing reads s with
  | nil => exact List.nil_prefix
  | cons r pre ih =>
    obtain ⟨reads, rfl, hpre⟩ := List.cons_prefix_iff.mp h
    cases hstep : chatStep s (.data r) with
    | none =>
      simp only [ops, List.map_cons, chatOps, hstep]
      exact List.prefix_refl _
    | some p =>
      simp only [ops, List.map_cons, chatOps, hstep]
      exact (List.prefix_append_right_inj _).mpr (ih hpre)

end

/-! ## 5. The result -/

theorem Click.isMessage {c : Click} (h : c.Ok) (hp : c.Plain) :
    ∃ w, c.write = some w ∧ IsMessage w := by
  cases c with
  | room n => exact ⟨_, rfl, Or.inl ⟨n, h, rfl⟩⟩
  | send msg =>
    obtain ⟨hnul, hne, -⟩ := h
    refine ⟨msg, ?_, Or.inr ⟨hnul, hne, hp⟩⟩
    simp [Click.write, onSendClicked, hne]

/-- With one read for each write the loop does what the user asked for. -/
theorem ops_writes {cs : List Click} {s : ChatState} (h : ∀ c ∈ cs, c.Ok ∧ c.Plain) :
    ops s (writes cs) = intended s.room cs := by
  induction cs generalizing s with
  | nil => rfl
  | cons c cs ih =>
    have hrest : ∀ s, ops s (writes cs) = intended s.room cs :=
      fun s => ih fun d hd => h d (List.mem_cons_of_mem c hd)
    cases c with
    | room n =>
      obtain ⟨hok, -⟩ := h _ List.mem_cons_self
      obtain ⟨s', hroom, hops⟩ := ops_room s hok
      rw [intended, ← hroom, ← hrest s', hroom, ← hops]
      rfl
    | send msg =>
      obtain ⟨⟨hnul, hne, -⟩, hp⟩ := h _ List.mem_cons_self
      obtain ⟨s', hroom, hops⟩ := ops_text s ⟨hnul, hne⟩ hp
      rw [intended, ← hroom, ← hrest s', hroom, ← hops]
      simp [writes, Click.write, onSendClicked, hne]

/-- What is written has no NUL. -/
theorem nulFree_writes {cs : List Click} (h : ∀ c ∈ cs, c.Ok) :
    ∀ w ∈ writes cs, NulFree w := by
  intro w hw
  obtain ⟨c, hc, hcw⟩ := List.mem_filterMap.mp hw
  cases c with
  | room n =>
    cases hcw
    exact nulFree_onRoomClicked n
  | send msg =>
    simp only [Click.write, onSendClicked] at hcw
    split at hcw
    · cases hcw
    · cases hcw
      exact (h _ hc).1

/-- However the stream of the writes of a client is cut into reads of 1 to 1023 bytes:

* for the reads up to the first that is not one write, the loop does what it does when each
  read returns one write;
* if no text starts with a slash, then with one write to a read it does what the user asked
  for, and it does that exactly when each read returns one write. -/
theorem segmentation_iff (s : ChatState) {cs : List Click} {reads : List Bytes}
    (hcs : ∀ c ∈ cs, c.Ok) (hcut : Cuts 1023 reads (writes cs)) :
    (∀ pre, pre <+: reads → pre <+: writes cs →
      ops s pre <+: ops s reads ∧ ops s pre <+: ops s (writes cs)) ∧
    ((∀ c ∈ cs, c.Plain) → ops s (writes cs) = intended s.room cs ∧
      (ops s reads = ops s (writes cs) ↔ reads = writes cs)) := by
  refine ⟨fun pre h h' => ⟨prefix_ops h, prefix_ops h'⟩, fun hp => ?_⟩
  refine ⟨ops_writes fun c hc => ⟨hcs c hc, hp c hc⟩, fun heq => ?_, fun heq => by rw [heq]⟩
  have hreads : ∀ r ∈ reads, IsRead r := by
    refine fun r hr => ⟨fun b hb => ?_, hcut.nonempty r hr⟩
    obtain ⟨w, hw, hbw⟩ := hcut.mem hr hb
    exact nulFree_writes hcs w hw b hbw
  have hws : ∀ w ∈ writes cs, IsMessage w := by
    intro w hw
    obtain ⟨c, hc, hcw⟩ := List.mem_filterMap.mp hw
    obtain ⟨w', hw', hmsg⟩ := Click.isMessage (hcs c hc) (hp c hc)
    cases hcw.symm.trans hw'
    exact hmsg
  exact eq_of_ops_eq hreads hws hcut.flatten_eq heq

/-- A loop that starts in the lobby. -/
def ChatState.lobby : ChatState := ⟨List.replicate bufSize 0, 0⟩

/-- A user changes into room 3 and writes `hi`, in two reads. -/
theorem segmentation_iff_two :
    ops .lobby [utf8 "/join 3", utf8 "hi"] = [.setRoom 3, .broadcast 3 (utf8 "hi")] := by
  have hcut : Cuts 1023 [utf8 "/join 3", utf8 "hi"] (writes [.room 3, .send (utf8 "hi")]) :=
    ⟨by decide, by decide, by decide⟩
  obtain ⟨hint, hiff⟩ := (segmentation_iff .lobby (by decide +kernel) hcut).2 (by decide)
  rw [hiff.mpr (by decide), hint]
  rfl

/-- Two texts that arrive in one read are broadcast as one. -/
theorem segmentation_matters :
    (∀ c ∈ [Click.send (utf8 "a"), .send (utf8 "b")], c.Ok) ∧
    Cuts 1023 [utf8 "ab"] (writes [.send (utf8 "a"), .send (utf8 "b")]) ∧
    ops .lobby [utf8 "ab"] ≠ ops .lobby (writes [.send (utf8 "a"), .send (utf8 "b")]) :=
  ⟨by decide +kernel, ⟨by decide, by decide, by decide⟩,
    by decide⟩

end PosixLab.Chat
