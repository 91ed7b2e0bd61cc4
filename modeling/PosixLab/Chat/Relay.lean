/-
# What the room sees of a text, and of a file

A text and the announcement of a file go the same way: one `write` of the client, one `read` in
the sender's handler, one call of `send_msg`, and one `read` of `recv_msg` in each client of the
room.  What tells them apart is the prefix `[FILE]`, and it is looked at twice: `send_msg` tests
what the sender wrote, and `recv_msg` tests what `send_msg` made of it.

`Broadcast` is that way through a run of the server, with the other threads doing whatever they
like in between, and `Broadcast.bytes` is what arrives.  From it come the exact conditions under
which a text is shown as `[name] text` (`chat_text_iff`) and under which a file is saved under
its name (`announcement_iff`).
-/
import PosixLab.Chat.Broadcast
import PosixLab.Chat.Receive
import PosixLab.Chat.Segments

namespace PosixLab.Chat

open PosixLab

/-! ## 1. A text in a run of the server -/

/-- A call of `send_msg` by the handler of `c` starts. -/
def Event.startedBy (c : Addr) : Event → Bool
  | .enterSend _ c' _ _ => c' == c
  | _ => false

/-- In a run with the given log the handler of `c` reads `text`, in one read and while its name
is `name`, and the next call of `send_msg` it makes is call `k`. -/
def Broadcast (users : Option Bytes) (c : Addr) (name text : Bytes) (k : Nat)
    (log : List Event) : Prop :=
  ∃ log₁ s s₁ log₂ s₂ entries bs, Runs serverStep anyStep (.init users) log₁ s ∧
    s.nameOf c = name ∧ serverStep s (.handler c (.chat (.data text))) = some (s₁, []) ∧
    Runs serverStep anyStep s₁ log₂ s₂ ∧
    log₂.find? (Event.startedBy c) = some (.enterSend k c entries bs) ∧ log = log₁ ++ log₂

/-- A call is started by a step of its sender. -/
theorem StepOf.startedBy {s s' : Server} {a : Action} {ev : List Event} (hs : StepOf s a s' ev)
    {c : Addr} {x : Event} (hx : x ∈ ev) (hc : x.startedBy c = true) :
    ∃ y, a = .handler c y := by
  cases hs with
  | main hm he => cases hx
  | handler hh hm he =>
    rename_i d y f f' e s₁
    refine ⟨y, ?_⟩
    cases hm with
    | sendLock hpc =>
      rw [List.mem_singleton.mp hx] at hc
      rw [beq_iff_eq.mp hc]
    | sendNext i e hpc hi he =>
      rcases List.mem_cons.mp hx with rfl | hx
      · cases hc
      · split at hx
        · rw [List.mem_singleton.mp hx] at hc
          cases hc
        · cases hx
    | _ =>
      first
        | (rw [List.mem_singleton.mp hx] at hc; cases hc)
        | cases hx

/-- Between the read and the call the handler waits for the mutex with the text in its buffer,
and its name stays. -/
def Waiting (c : Addr) (name bs : Bytes) (g : Handler) (log : List Event) (s : Server) : Prop :=
  match log.find? (Event.startedBy c) with
  | none => s.handlers c = some g ∧ s.nameOf c = name
  | some x => ∃ k entries, x = .enterSend k c entries bs

theorem Waiting.step {c : Addr} {name : Bytes} {g : Handler} {log ev : List Event}
    {s s' : Server} {a : Action} (hpc : g.pc = .sendLock) (hal : Alive s)
    (h : Waiting c name (payload name g.msg g.strLen) g log s) (hs : StepOf s a s' ev) :
    Waiting c name (payload name g.msg g.strLen) g (log ++ ev) s' := by
  unfold Waiting at h ⊢
  rw [List.find?_append]
  cases hlog : log.find? (Event.startedBy c) with
  | some x =>
    rw [hlog] at h
    exact h
  | none =>
    rw [hlog] at h
    obtain ⟨hg, hname⟩ := h
    rw [Option.none_or]
    obtain ⟨g', hg'⟩ := Option.isSome_iff_exists.mp (hs.handlers_isSome (d := c) (by simp [hg]))
    rcases hs.frame hal hg' with ⟨hsame, hne⟩ | ⟨hnone, -⟩ | ⟨f, x, e, rfl, hf, hm⟩
    · -- another thread makes the step
      have hev : ev.find? (Event.startedBy c) = none := by
        rw [List.find?_eq_none]
        intro x hx hc
        obtain ⟨y, rfl⟩ := hs.startedBy hx hc
        exact hne y rfl
      rw [hev]
      refine ⟨hg'.trans (hsame.symm.trans hg), ?_⟩
      rcases hs.nameOf c with h | ⟨-, -, -, hnext, -⟩ | ⟨f, rfl, -⟩
      · exact h.trans hname
      · exact absurd (hal.lt hg) (by rw [hnext]; exact Nat.lt_irrefl _)
      · exact absurd rfl (hne .go)
    · rw [hg] at hnone
      cases hnone
    · obtain rfl : g = f := Option.some.inj (hg.symm.trans hf)
      cases hm with
      | sendLock hpc =>
        simp only [List.find?_cons, Event.startedBy, beq_self_eq_true]
        exact ⟨_, _, by rw [Server.payloadOf, hname]⟩
      | _ => rw [hpc] at *; simp_all

section

variable {users : Option Bytes} {c : Addr} {name text : Bytes} {k : Nat} {log : List Event}

theorem said_bytes (name : Bytes) (hn : NulFree text) :
    (ServerMsg.said name text).bytes =
      if isFile text then text else utf8 "[" ++ name ++ utf8 "] " ++ text :=
  payload_receive name [] hn

/-- What a call writes is what the sender said. -/
theorem Broadcast.bytes (h : Broadcast users c name text k log) (hn : NulFree text)
    (hne : text ≠ []) (hslash : text.head? ≠ some 47) :
    delivered k log = ((examined k log).filter Exam.matches).map fun x =>
      (x.entry, (ServerMsg.said name text).bytes) := by
  obtain ⟨log₁, s, s₁, log₂, s₂, entries, bs, hrun₁, hname, hread, hrun₂, hfind, rfl⟩ := h
  have hrun := (hrun₁.snoc trivial hread).trans hrun₂
  rw [List.append_nil] at hrun
  -- the read leaves the text in the buffer
  obtain ⟨f, hf, hpc, hs₁⟩ : ∃ f, s.handlers c = some f ∧ f.pc = .chatRead ∧ s₁ = { s with
      handlers := Function.update s.handlers c
        (some ⟨.sendLock, f.fields, store f.msg (text ++ [0]), text.length⟩) } := by
    cases hf : s.handlers c with
    | none => simp [serverStep, hf] at hread
    | some f =>
      cases hpc : f.pc with
      | chatRead =>
        by_cases hcan : s.CanRead c bufSize (.data text)
        · refine ⟨f, rfl, hpc, ?_⟩
          have hhead := head?_receive f.msg hne
          simp only [serverStep, hf, handlerStep, hpc, if_pos hcan, receive, dispatch, hhead,
            if_neg hslash, Server.apply, Option.map_some, Option.some.injEq, Prod.mk.injEq]
            at hread
          exact hread.1.symm
        · simp [serverStep, hf, handlerStep, hpc, if_neg hcan] at hread
      | _ => simp [serverStep, hf, handlerStep, hpc] at hread
  obtain ⟨g, hg⟩ : ∃ g : Handler,
    g = ⟨.sendLock, f.fields, store f.msg (text ++ [0]), text.length⟩ := ⟨_, rfl⟩
  have hpay : payload name g.msg g.strLen = (ServerMsg.said name text).bytes := by
    rw [hg, said_bytes name hn]
    exact payload_receive name f.msg hn
  have hwait : Waiting c name (payload name g.msg g.strLen) g log₂ s₂ := by
    refine hrun₂.invariant (I := Waiting c name (payload name g.msg g.strLen) g) ?_ ?_
    · refine ⟨?_, ?_⟩
      · rw [hs₁, hg]
        exact Function.update_self ..
      · rw [hs₁]
        exact hname
    · intro l s a s' ev hr ih _ hs
      have hrun' := (hrun₁.snoc trivial hread).trans hr
      exact ih.step (by rw [hg]) (sound_of_runs hrun').alive (serverStep_stepOf hs)
  unfold Waiting at hwait
  rw [hfind] at hwait
  obtain ⟨k', entries', heq⟩ := hwait
  cases heq
  -- the calls of the run are in order, and this is call `k`
  have hmem : (⟨c, entries, payload name g.msg g.strLen⟩ : Call) ∈ started k (log₁ ++ log₂) := by
    refine List.mem_filterMap.mpr ⟨_, List.mem_append_right _ (List.mem_of_find?_eq_some hfind), ?_⟩
    simp [Event.started]
  rcases (orderly_of_runs hrun).calls k with ⟨hnil, -⟩ | ⟨call, hst, hcall⟩
  · rw [hnil] at hmem
    cases hmem
  · rw [hst, List.mem_singleton] at hmem
    rw [hcall.scope, ← hmem, hpay]

theorem mem_delivered {e : Addr} {conn : Option Addr} {bs : Bytes}
    (h : .deliver k e conn bs ∈ log) : (e, bs) ∈ delivered k log :=
  List.mem_filterMap.mpr ⟨_, h, by simp [Event.delivered]⟩

/-- Each entry that is written to gets what the sender said. -/
theorem Broadcast.bytes_eq (h : Broadcast users c name text k log) (hn : NulFree text)
    (hne : text ≠ []) (hslash : text.head? ≠ some 47) {e : Addr} {conn : Option Addr}
    {bs : Bytes} (hd : .deliver k e conn bs ∈ log) : bs = (ServerMsg.said name text).bytes := by
  have hmem := mem_delivered hd
  rw [h.bytes hn hne hslash] at hmem
  obtain ⟨x, -, hx⟩ := List.mem_map.mp hmem
  cases hx
  rfl

end

/-! ## 2. Chat texts -/

/-- The entry for a text. -/
def textEntry (name text : Bytes) : Bytes := utf8 "[" ++ name ++ utf8 "] " ++ text

/-- The bracket that `send_msg` puts in front, and a name, make up the prefix of an
announcement. -/
def NamedFile (name : Bytes) : Prop := name = utf8 "FILE" ∨ utf8 "FILE]" <+: name

instance (name : Bytes) : Decidable (NamedFile name) := inferInstanceAs (Decidable (_ ∨ _))

theorem isFile_textEntry (name text : Bytes) : isFile (textEntry name text) ↔ NamedFile name := by
  have hfile : utf8 "[FILE]" = [91, 70, 73, 76, 69, 93] := by decide
  have hname : utf8 "FILE" = [70, 73, 76, 69] := by decide
  have hname' : utf8 "FILE]" = [70, 73, 76, 69, 93] := by decide
  have hopen : utf8 "[" = [91] := by decide
  have hclose : utf8 "] " = [93, 32] := by decide
  rw [isFile, textEntry, NamedFile, hfile, hname, hname', hopen, hclose]
  -- a name of up to three bytes is followed by the closing bracket too early
  rcases name with _ | ⟨a, _ | ⟨b, _ | ⟨c, _ | ⟨d, _ | ⟨e, name⟩⟩⟩⟩⟩ <;>
    simp [List.cons_prefix_cons]
  all_goals grind

theorem head?_textEntry (name text : Bytes) : (textEntry name text).head? = some 91 := by
  have hopen : utf8 "[" = [91] := by decide
  rw [textEntry, hopen]
  rfl

theorem head?_savedText (filename : Bytes) : (savedText filename).head? = some 62 := by
  have h : (utf8 ">>> 파일 저장됨: ").head? = some 62 := by decide
  rw [savedText, List.head?_append, h]
  rfl

theorem nulFree_textEntry {name text : Bytes} (hname : NulFree name) (htext : NulFree text) :
    NulFree (textEntry name text) :=
  ((NulFree.append (.of_notMem (by decide)) hname).append
    (.of_notMem (by decide))).append htext

/-- One read of `recv_msg` is shown as it is, or taken for the announcement of a file, whose
entry starts with `>>>`. -/
theorem recvMsg_one_iff {bs entry : Bytes} (hn : NulFree bs) (hhead : entry.head? ≠ some 62)
    (msg filename : Bytes) (opens : Bool) :
    recvMsg msg [⟨bs, filename, opens⟩] = [entry] ↔ ¬ isFile bs ∧ bs = entry := by
  obtain ⟨r, hr⟩ : ∃ r : Reading, r = ⟨bs, filename, opens⟩ := ⟨_, rfl⟩
  have hbs : r.bs = bs := by rw [hr]
  replace hn : NulFree r.bs := hbs ▸ hn
  rw [← hr, recvMsg_eq (by simpa using hn), ← hbs]
  by_cases hfile : isFile r.bs
  · refine iff_of_false (fun h => ?_) fun h => h.1 hfile
    have hentry := entryOf_file hn hfile
    cases he : r.entry with
    | none => simp [he] at h
    | some x =>
      rw [List.filterMap_cons_some he, List.filterMap_nil, List.singleton_inj] at h
      subst h
      rw [he] at hentry
      split at hentry
      · rw [Option.some.inj hentry, head?_savedText] at hhead
        exact hhead rfl
      · cases hentry
  · rw [List.filterMap_cons_some (entryOf_text hn hfile), List.filterMap_nil,
      List.singleton_inj]
    exact (and_iff_right hfile).symm

/-- What the sender said is shown as a text exactly when neither of the two tests takes it for
the announcement of a file. -/
theorem recvMsg_said_iff {name text : Bytes} (hname : NulFree name) (htext : NulFree text)
    (msg filename : Bytes) (opens : Bool) :
    recvMsg msg [⟨(ServerMsg.said name text).bytes, filename, opens⟩] = [textEntry name text] ↔
      ¬ isFile text ∧ ¬ NamedFile name := by
  have hhead : (textEntry name text).head? ≠ some 62 := by
    rw [head?_textEntry]
    decide
  rw [said_bytes name htext]
  by_cases hfile : isFile text
  · rw [if_pos hfile, recvMsg_one_iff htext hhead]
    exact iff_of_false (fun h => h.1 hfile) fun h => h.1 hfile
  · rw [if_neg hfile]
    change recvMsg msg [⟨textEntry name text, filename, opens⟩] = [textEntry name text] ↔ _
    rw [recvMsg_one_iff (nulFree_textEntry hname htext) hhead, isFile_textEntry]
    simp [hfile]

/-- In every run of the server in which the handler of `c`, whose name is `name`, reads a text
of 1 to 1000 bytes that is no command: the next call of `send_msg` writes to the entries of the
table, once each, that have a name and the sender's room when it looks at them, and each of
these clients reads what is written at once and shows it as `[name] text`, if and only if the
text does not start with `[FILE]` and the name is not `FILE` and does not start with `FILE]`. -/
theorem chat_text_iff {users : Option Bytes} {c : Addr} {name text : Bytes} {k : Nat}
    {log : List Event} (h : Broadcast users c name text k log) (hname : name.length ≤ 19)
    (hnul : NulFree text) (hne : text ≠ []) (hlen : text.length ≤ 1000)
    (hslash : text.head? ≠ some 47) :
    (delivered k log).map Prod.fst = ((examined k log).filter Exam.matches).map Exam.entry ∧
    ∀ e conn bs, .deliver k e conn bs ∈ log → bs.length ≤ bufSize - 1 ∧
      ∀ msg filename opens, recvMsg msg [⟨bs, filename, opens⟩] = [textEntry name text] ↔
        ¬ isFile text ∧ ¬ NamedFile name := by
  refine ⟨?_, fun e conn bs hd => ?_⟩
  · rw [h.bytes hnul hne hslash, List.map_map]
    rfl
  · have hname' : NulFree name := by
      obtain ⟨-, s, -, -, -, -, -, -, rfl, -⟩ := h
      exact nulFree_cstr _
    rw [h.bytes_eq hnul hne hslash hd]
    refine ⟨?_, fun msg filename opens => recvMsg_said_iff hname' hnul msg filename opens⟩
    have hopen : (utf8 "[").length = 1 := by decide
    have hclose : (utf8 "] ").length = 2 := by decide
    rw [said_bytes name hnul]
    split
    · simp only [bufSize]
      omega
    · simp only [List.length_append, hopen, hclose, bufSize]
      omega

/-- Execute actions up to the read, the read, and what comes behind it: the name of the sender
at the read and the two logs. -/
def readsText (users : Option Bytes) (as : List Action) (c : Addr) (text : Bytes)
    (as' : List Action) : Option (Bytes × List Event × List Event) :=
  (exec serverStep anyStep (.init users) as).bind fun r =>
    (serverStep r.2 (.handler c (.chat (.data text)))).bind fun r₁ =>
      if r₁.2 = [] then
        (exec serverStep anyStep r₁.1 as').map fun r₂ => (r.2.nameOf c, r.1, r₂.1)
      else none

theorem exists_broadcast {users : Option Bytes} {c : Addr} {name text : Bytes} {k : Nat}
    (as as' : List Action) (p : List Event → Bool)
    (h : (readsText users as c text as').any (fun r => r.1 == name &&
      ((r.2.2.find? (Event.startedBy c)).any (fun x => x.call == some k) &&
        p (r.2.1 ++ r.2.2))) = true) :
    ∃ log, Broadcast users c name text k log ∧ p log = true := by
  obtain ⟨⟨name', log₁, log₂⟩, hr, hp⟩ : ∃ r, readsText users as c text as' = some r ∧ _ :=
    Option.any_eq_true .. |>.mp h
  simp only [Bool.and_eq_true, beq_iff_eq] at hp
  obtain ⟨rfl, hfind, hlog⟩ := hp
  obtain ⟨⟨l₁, s⟩, hexec, hr⟩ := Option.bind_eq_some_iff.mp hr
  obtain ⟨⟨s₁, ev⟩, hread, hr⟩ := Option.bind_eq_some_iff.mp hr
  split at hr
  · rename_i hev
    subst hev
    obtain ⟨⟨l₂, s₂⟩, hexec', hr⟩ := Option.map_eq_some_iff.mp hr
    obtain ⟨x, hx, hk⟩ : ∃ x, log₂.find? (Event.startedBy c) = some x ∧ _ :=
      Option.any_eq_true .. |>.mp hfind
    cases hr
    have hc : x.startedBy c = true := List.find?_some hx
    cases x with
    | enterSend k' c' entries bs =>
      obtain rfl : c' = c := beq_iff_eq.mp hc
      obtain rfl : k' = k := by simpa [Event.call] using hk
      exact ⟨_, ⟨_, s, s₁, _, s₂, entries, bs, runs_of_exec hexec, rfl, hread,
        runs_of_exec hexec', hx, rfl⟩, hlog⟩
    | _ => cases hc
  · cases hr

/-- The user logs in and enters the chat. -/
def entersAs (text : String) (n : Nat) : List Action :=
  connects 4 (List.replicate 20 0) ++ logsIn 0 text n ++ goesOn 0 4

theorem chat_text_iff_kim : ∃ log,
    Broadcast (some (utf8 "kim 1\n")) 0 (utf8 "kim") (utf8 "hi") 1 log ∧
    .deliver 1 0 (some 0) (utf8 "[kim] hi") ∈ log ∧
    (recvMsg [] [⟨utf8 "[kim] hi", [], true⟩] = [textEntry (utf8 "kim") (utf8 "hi")] ↔
      ¬ isFile (utf8 "hi") ∧ ¬ NamedFile (utf8 "kim")) := by
  obtain ⟨log, hb, hp⟩ := @exists_broadcast (some (utf8 "kim 1\n")) 0 (utf8 "kim") (utf8 "hi") 1
    (entersAs "LOGIN kim 1" 7) (goesOn 0 3)
    (fun log => log.contains (.deliver 1 0 (some 0) (utf8 "[kim] hi"))) (by decide +kernel)
  have hmem : Event.deliver 1 0 (some 0) (utf8 "[kim] hi") ∈ log := by simpa using hp
  obtain ⟨-, hall⟩ := chat_text_iff hb (by decide) (by decide +kernel) (by decide)
    (by decide) (by decide)
  exact ⟨log, hb, hmem, (hall 0 (some 0) _ hmem).2 [] [] true⟩

/-- A user whose name is `FILE` says something, and it is saved as a file. -/
theorem chat_text_saved : ∃ log,
    Broadcast (some (utf8 "FILE 1\n")) 0 (utf8 "FILE") (utf8 "hi") 1 log ∧
    .deliver 1 0 (some 0) (utf8 "[FILE] hi") ∈ log ∧
    recvMsg [] [⟨utf8 "[FILE] hi", [], true⟩] = [utf8 ">>> 파일 저장됨: recv_hi"] ∧
    textEntry (utf8 "FILE") (utf8 "hi") ≠ utf8 ">>> 파일 저장됨: recv_hi" := by
  obtain ⟨log, hb, hp⟩ := @exists_broadcast (some (utf8 "FILE 1\n")) 0 (utf8 "FILE") (utf8 "hi") 1
    (entersAs "LOGIN FILE 1" 7) (goesOn 0 3)
    (fun log => log.contains (.deliver 1 0 (some 0) (utf8 "[FILE] hi"))) (by decide +kernel)
  exact ⟨log, hb, by simpa using hp, by decide, by decide⟩

/-! ## 3. Files -/

/-- What `on_file_clicked` writes for the file that was chosen. -/
def onFileClicked (baseName : Bytes) : Bytes := utf8 "[FILE] " ++ baseName

/-- The name under which `recv_msg` saves what was announced; `filename` is what its array held
before. -/
def saveName (msg filename : Bytes) : Bytes := utf8 "recv_" ++ scanFilename msg filename

/-- The strings that an announcement puts into arrays, each with the size of its array: the
header and the entry of the sender, `msg` of the server and of the client, and then `filename`,
`save_name` and the entry of the receiver. -/
def announcementArrays (baseName bs filename : Bytes) : List (Bytes × Nat) :=
  [(onFileClicked baseName, bufSize), (utf8 ">>> 파일 전송 중: " ++ baseName, bufSize),
    (onFileClicked baseName, bufSize), (bs, bufSize), (scanFilename bs filename, 100),
    (saveName bs filename, 120), (savedText (scanFilename bs filename), bufSize)]

/-- Each string fits its array, with the NUL behind it. -/
def Fits (arrays : List (Bytes × Nat)) : Prop := ∀ a ∈ arrays, a.1.length + 1 ≤ a.2

instance (arrays : List (Bytes × Nat)) : Decidable (Fits arrays) :=
  inferInstanceAs (Decidable (∀ a ∈ arrays, _))

/-- The base name is one word, and short enough for `filename`. -/
def PlainName (baseName : Bytes) : Prop := IsWord baseName ∧ baseName.length ≤ 99

instance (baseName : Bytes) : Decidable (PlainName baseName) :=
  inferInstanceAs (Decidable (_ ∧ _))

theorem drop_onFileClicked (baseName : Bytes) :
    (onFileClicked baseName).drop 6 = 32 :: baseName := by
  have h : utf8 "[FILE] " = [91, 70, 73, 76, 69, 93, 32] := by decide
  rw [onFileClicked, h]
  rfl

/-- The scan reads the first word of the base name. -/
theorem scanFilename_onFileClicked (baseName filename : Bytes) :
    scanFilename (onFileClicked baseName) filename = converted filename (words baseName) 0 := by
  rw [scanFilename, drop_onFileClicked, words_cons_space (by decide)]

/-- Whatever the array held before, the announcement is saved under its name and fits all
arrays, exactly when the base name is one short word. -/
theorem saved_iff {baseName : Bytes} (hne : baseName ≠ []) (hlen : baseName.length ≤ 255) :
    (∀ filename, saveName (onFileClicked baseName) filename = utf8 "recv_" ++ baseName ∧
      Fits (announcementArrays baseName (onFileClicked baseName) filename)) ↔
      PlainName baseName := by
  have hscan : ∀ filename, scanFilename (onFileClicked baseName) filename =
      converted filename (words baseName) 0 := scanFilename_onFileClicked baseName
  constructor
  · intro h
    obtain ⟨hsave, hfits⟩ := h []
    have hname : converted [] (words baseName) 0 = baseName := by
      rw [← hscan]
      exact List.append_cancel_left hsave
    -- the array holds a word of the base name, so there is one
    have hword : (words baseName)[0]? = some baseName := by
      cases hw : (words baseName)[0]? with
      | none =>
        rw [converted, hw] at hname
        exact absurd hname.symm hne
      | some w =>
        rw [converted, hw] at hname
        exact congrArg some hname
    refine ⟨isWord_of_mem_words (List.mem_of_getElem? hword), ?_⟩
    have hfit := hfits (scanFilename (onFileClicked baseName) [], 100)
      (by simp [announcementArrays])
    rw [hscan, hname] at hfit
    exact Nat.le_of_succ_le_succ hfit
  · rintro ⟨hword, hshort⟩ filename
    have hname : scanFilename (onFileClicked baseName) filename = baseName := by
      rw [hscan, words_word hword]
      rfl
    have hheader : (utf8 "[FILE] ").length = 7 := by decide
    have hsending : (utf8 ">>> 파일 전송 중: ").length ≤ 30 := by decide
    have hrecv : (utf8 "recv_").length = 5 := by decide
    have hsaved : (utf8 ">>> 파일 저장됨: ").length ≤ 30 := by decide
    refine ⟨by rw [saveName, hname], fun a ha => ?_⟩
    simp only [announcementArrays, saveName, savedText, hname, List.mem_cons, List.not_mem_nil,
      or_false] at ha
    rcases ha with rfl | rfl | rfl | rfl | rfl | rfl | rfl <;>
      simp only [onFileClicked, bufSize, List.length_append] <;> omega

/-- In every run of the server in which the handler of `c` reads the announcement of a file with
a base name of 1 to 255 bytes: the next call of `send_msg` passes it on unchanged to the entries
of the table that have a name and the sender's room, and each of these clients, whatever its
array `filename` held, saves under `recv_` and the base name, and no array on the way is written
past its end, if and only if the base name has no blanks and at most 99 bytes. -/
theorem announcement_iff {users : Option Bytes} {c : Addr} {name baseName : Bytes} {k : Nat}
    {log : List Event} (h : Broadcast users c name (onFileClicked baseName) k log)
    (hnul : NulFree baseName) (hne : baseName ≠ []) (hlen : baseName.length ≤ 255) :
    (delivered k log).map Prod.fst = ((examined k log).filter Exam.matches).map Exam.entry ∧
    ∀ e conn bs, .deliver k e conn bs ∈ log → bs = onFileClicked baseName ∧
      ((∀ filename, saveName bs filename = utf8 "recv_" ++ baseName ∧
        Fits (announcementArrays baseName bs filename)) ↔ PlainName baseName) := by
  have hnul' : NulFree (onFileClicked baseName) :=
    NulFree.append (.of_notMem (by decide)) hnul
  have hne' : onFileClicked baseName ≠ [] := by
    rw [onFileClicked]
    exact List.append_ne_nil_of_left_ne_nil (by decide) _
  have hhead : (onFileClicked baseName).head? ≠ some 47 := by
    have h91 : (utf8 "[FILE] ").head? = some 91 := by decide
    rw [onFileClicked, List.head?_append, h91, Option.some_or]
    decide
  have hfile : isFile (onFileClicked baseName) := by
    have hsplit : utf8 "[FILE] " = utf8 "[FILE]" ++ [32] := by decide
    rw [isFile, onFileClicked, hsplit, List.append_assoc]
    exact List.prefix_append _ _
  refine ⟨?_, fun e conn bs hd => ?_⟩
  · rw [h.bytes hnul' hne' hhead, List.map_map]
    rfl
  · have hbs : bs = onFileClicked baseName := by
      rw [h.bytes_eq hnul' hne' hhead hd, said_bytes name hnul', if_pos hfile]
    subst hbs
    exact ⟨rfl, saved_iff hne hlen⟩

theorem announcement_iff_txt : ∃ log,
    Broadcast (some (utf8 "kim 1\n")) 0 (utf8 "kim") (onFileClicked (utf8 "a.txt")) 1 log ∧
    .deliver 1 0 (some 0) (utf8 "[FILE] a.txt") ∈ log ∧
    ((∀ filename, saveName (utf8 "[FILE] a.txt") filename = utf8 "recv_" ++ utf8 "a.txt" ∧
      Fits (announcementArrays (utf8 "a.txt") (utf8 "[FILE] a.txt") filename)) ↔
        PlainName (utf8 "a.txt")) := by
  obtain ⟨log, hb, hp⟩ := @exists_broadcast (some (utf8 "kim 1\n")) 0 (utf8 "kim")
    (onFileClicked (utf8 "a.txt")) 1
    (entersAs "LOGIN kim 1" 7) (goesOn 0 3)
    (fun log => log.contains (.deliver 1 0 (some 0) (utf8 "[FILE] a.txt"))) (by decide +kernel)
  have hmem : Event.deliver 1 0 (some 0) (utf8 "[FILE] a.txt") ∈ log := by simpa using hp
  obtain ⟨-, hall⟩ := announcement_iff hb (by decide +kernel) (by decide)
    (by decide)
  exact ⟨log, hb, hmem, (hall 0 (some 0) _ hmem).2⟩

/-- A file whose name has a blank is saved under the first word of it. -/
theorem announcement_cut : ∃ log,
    Broadcast (some (utf8 "kim 1\n")) 0 (utf8 "kim") (onFileClicked (utf8 "my file.txt")) 1
      log ∧
    .deliver 1 0 (some 0) (utf8 "[FILE] my file.txt") ∈ log ∧
    saveName (utf8 "[FILE] my file.txt") [] = utf8 "recv_my" ∧
    utf8 "recv_my" ≠ utf8 "recv_" ++ utf8 "my file.txt" := by
  obtain ⟨log, hb, hp⟩ := @exists_broadcast (some (utf8 "kim 1\n")) 0 (utf8 "kim")
    (onFileClicked (utf8 "my file.txt")) 1
    (entersAs "LOGIN kim 1" 7) (goesOn 0 3)
    (fun log => log.contains (.deliver 1 0 (some 0) (utf8 "[FILE] my file.txt")))
    (by decide +kernel)
  exact ⟨log, hb, by simpa using hp, by decide, by decide⟩

end PosixLab.Chat
