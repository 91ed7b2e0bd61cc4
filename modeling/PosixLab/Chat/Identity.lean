/-
# Whose name stands in front of a message

A broadcast is labelled with the name in the sender's record, which `handle_clnt` copies from the
id of a login when `process_auth` has returned 0.  `no_impersonation` follows that id back through
the whole server: whatever the interleaving, a text that is delivered goes back to a call of
`send_msg`, and the connection that made the call has asked to log in with the id in the label and
a password, and they are the id and the password of a user that the file had from the start or of
an earlier registration.  A `[FILE]` announcement goes out as it came and names nobody.

It takes three words in every request: with fewer of them `sscanf` leaves in `id` and `pw` what the
stack held, which may be what somebody else has sent before.  And it takes a record without a name,
as for `authentication_gate`.  The order in which clients leave does not matter here.
-/
import PosixLab.Chat.Refinement

namespace PosixLab.Chat

open PosixLab

/-! ## 1. What a label has to go back to -/

/-- The connection of `c` has sent a request that starts with these words. -/
def Requested (log : List Event) (c : Addr) (mode id pw : Bytes) : Prop :=
  ∃ bs rest, words (cstr bs) = mode :: id :: pw :: rest ∧ Event.request c bs ∈ log

/-- The password belongs to the id from the start, or somebody has asked to register them. -/
def Known (m₀ : UserMap) (log : List Event) (id pw : Bytes) : Prop :=
  m₀ id = some pw ∨ ∃ d, Requested log d REGISTER id pw

/-- The connection of `c` has asked to log in under the name, with the password of it. -/
def Identified (m₀ : UserMap) (log : List Event) (c : Addr) (name : Bytes) : Prop :=
  ∃ pw, Requested log c LOGIN name pw ∧ Known m₀ log name pw

/-- A text has the name in front of it, or names nobody: an announcement, or nothing at all, which
is what a failed read behind an announcement comes to. -/
def Labelled (name bs : Bytes) : Prop :=
  utf8 "[" ++ name ++ utf8 "] " <+: bs ∨ utf8 "[FILE]" <+: bs ∨ bs = []

/-- The connection of `c` has identified itself with the name that the text is labelled with. -/
def Signed (m₀ : UserMap) (log : List Event) (c : Addr) (bs : Bytes) : Prop :=
  ∃ name, Identified m₀ log c name ∧ Labelled name bs

/-- What a call of `send_msg` needs before it, and what it writes: that is the text of the call. -/
def NeedsIdentity (m₀ : UserMap) : Event → List Event → Prop
  | .enterSend _ c _ bs, log => Signed m₀ log c bs
  | .deliver k _ _ bs, log => ∃ c entries, Event.enterSend k c entries bs ∈ log ∧ Signed m₀ log c bs
  | _, _ => True

/-- The condition on a step: a new record has no name in it, and a request has three words that
fit the arrays. -/
def WholeStep (_ : Server) : Action → Prop
  | .main (.accept _ name) => cstr name = []
  | .handler _ (.request (some bs) old) => (decode bs old).Fits ∧ 3 ≤ (words (cstr bs)).length
  | _ => True

instance (s : Server) : (a : Action) → Decidable (WholeStep s a)
  | .main (.accept _ name) => inferInstanceAs (Decidable (cstr name = []))
  | .main .go | .main (.stack _) => inferInstanceAs (Decidable True)
  | .handler _ (.request (some _) _) => inferInstanceAs (Decidable (_ ∧ _))
  | .handler _ .go | .handler _ (.request none _) | .handler _ (.arrays _ _)
  | .handler _ (.chat _) => inferInstanceAs (Decidable True)

section

variable {m₀ m m' : UserMap} {log : List Event} {c : Addr} {mode id pw name : Bytes}

theorem Requested.append (h : Requested log c mode id pw) (ev : List Event) :
    Requested (log ++ ev) c mode id pw := by
  obtain ⟨bs, rest, hw, hmem⟩ := h
  exact ⟨bs, rest, hw, List.mem_append_left _ hmem⟩

theorem Known.append (h : Known m₀ log id pw) (ev : List Event) : Known m₀ (log ++ ev) id pw :=
  h.imp_right fun ⟨d, hd⟩ => ⟨d, hd.append ev⟩

theorem Identified.append (h : Identified m₀ log c name) (ev : List Event) :
    Identified m₀ (log ++ ev) c name := by
  obtain ⟨pw, hreq, hknown⟩ := h
  exact ⟨pw, hreq.append ev, hknown.append ev⟩

theorem Signed.append {bs : Bytes} (h : Signed m₀ log c bs) (ev : List Event) :
    Signed m₀ (log ++ ev) c bs := by
  obtain ⟨name, hid, hlabel⟩ := h
  exact ⟨name, hid.append ev, hlabel⟩

theorem NeedsIdentity.append {x : Event} (h : NeedsIdentity m₀ x log) (ev : List Event) :
    NeedsIdentity m₀ x (log ++ ev) := by
  cases x with
  | enterSend k c entries bs => exact Signed.append h ev
  | deliver k e conn bs =>
    obtain ⟨c, entries, hmem, hsigned⟩ := h
    exact ⟨c, entries, List.mem_append_left _ hmem, hsigned.append ev⟩
  | _ => trivial

/-- A start of a call stands in the log. -/
theorem mem_of_started {k : Nat} {call : Call} (h : call ∈ started k log) :
    Event.enterSend k call.sender call.entries call.bs ∈ log := by
  obtain ⟨x, hx, heq⟩ := List.mem_filterMap.mp h
  cases x with
  | enterSend k' c entries bs =>
    obtain ⟨rfl, hcall⟩ := Option.ite_none_right_eq_some.mp heq
    cases hcall
    exact hx
  | _ => cases heq

/-- A request of three words is decoded into them, whatever the arrays held. -/
theorem decode_whole {bs : Bytes} (old : AuthFields) (h : 3 ≤ (words (cstr bs)).length) :
    (∃ rest, words (cstr bs) =
      (decode bs old).mode :: (decode bs old).id :: (decode bs old).pw :: rest) ∧
      IsField (decode bs old).id ∧ IsField (decode bs old).pw := by
  obtain ⟨w₀, w₁, w₂, rest, hw⟩ : ∃ w₀ w₁ w₂ rest, words (cstr bs) = w₀ :: w₁ :: w₂ :: rest := by
    match hws : words (cstr bs), h with
    | w₀ :: w₁ :: w₂ :: rest, _ => exact ⟨w₀, w₁, w₂, rest, rfl⟩
  have hfield : ∀ w ∈ words (cstr bs), IsField w := fun w hmem =>
    ⟨isWord_of_mem_words hmem, fun b hb => nulFree_cstr bs b (mem_of_mem_words hmem hb)⟩
  have hdec : decode bs old = ⟨w₀, w₁, w₂⟩ := by
    rw [decode_eq, hw]
    rfl
  rw [hdec]
  exact ⟨⟨rest, hw⟩, hfield w₁ (by simp [hw]), hfield w₂ (by simp [hw])⟩

/-! ## 2. What the statements know -/

/-- The bindings of `m` are bindings of `m'`. -/
def UserMap.Le (m m' : UserMap) : Prop := ∀ id pw, m id = some pw → m' id = some pw

/-- A login that is answered with 0 has the password of its id. -/
def Backed (m : UserMap) (ph : Phase UserOp Int) : Prop :=
  ∀ id pw, ph = .answered (.login id pw) 0 → m id = some pw

/-- A call of `process_auth` works on the fields of its handler. -/
structure InCall (content : Bytes) (m : UserMap) (x : AuthFields) (f : AuthFrame) : Prop where
  id : f.id = x.id
  pw : f.pw = x.pw
  op : f.op = opOf x.mode x.id x.pw
  progress : ∃ ph, Progress content m f ph ∧ Backed m ph

/-- The fields are the words of a request. -/
structure Claims (log : List Event) (c : Addr) (x : AuthFields) : Prop where
  id : IsField x.id
  pw : IsField x.pw
  requested : Requested log c x.mode x.id x.pw

/-- The string in `msg` is in the last read, unless that has failed. -/
def Handler.Filled (h : Handler) : Prop :=
  h.strLen.toNat = 0 ∨ cstr h.msg <+: h.msg.take h.strLen.toNat

/-- What the handler of `c` knows at each of its statements; `name` is the one in its record. -/
def Knows (content : Bytes) (m : UserMap) (log : List Event) (c : Addr) (name : Bytes)
    (h : Handler) : Prop :=
  match h.pc with
  | .dupLock | .dupCheck | .dupUnlock _ | .call => Claims log c h.fields
  | .auth f => Claims log c h.fields ∧ InCall content m h.fields f
  | .reply r => Claims log c h.fields ∧
    (r = 0 → h.fields.mode = LOGIN → m h.fields.id = some h.fields.pw)
  | .setName => Claims log c h.fields ∧ h.fields.mode = LOGIN ∧ m h.fields.id = some h.fields.pw
  | .chatRead | .joinRoom _ | .joinAck _ => name ≠ []
  | .sendLock | .sendLoop _ => name ≠ [] ∧ h.Filled
  | _ => True

variable {content content' : Bytes} {h h' : Handler} {ev : List Event}

/-- What `receive` puts into `msg`. -/
theorem filled_of_receive {old msg : Bytes} {r : ReadResult} {strLen : Int}
    (h : receive old r = some (msg, strLen)) (pc : HandlerPc) (x : AuthFields) :
    Handler.Filled ⟨pc, x, msg, strLen⟩ := by
  cases r with
  | eof => cases h
  | error =>
    cases h
    exact .inl rfl
  | data bs =>
    cases h
    right
    have hcstr : cstr (store old (bs ++ [0])) = cstr bs := by
      rw [store, List.append_assoc]
      exact cstr_append_nul bs _
    rw [hcstr, Int.toNat_natCast, take_receive]
    exact List.takeWhile_prefix _

/-- What a handler writes for a text that it has read. -/
theorem Handler.Filled.labelled {g : Handler} (hg : g.Filled) (name : Bytes) :
    Labelled name (payload name g.msg g.strLen) := by
  unfold payload
  split
  · rename_i hfile
    rcases hg with hzero | hpre
    · rw [hzero]
      exact .inr (.inr rfl)
    · exact .inr (.inl (hfile.trans hpre))
  · exact .inl (List.prefix_append _ _)

theorem Claims.append {x : AuthFields} (hc : Claims log c x) (ev : List Event) :
    Claims (log ++ ev) c x :=
  ⟨hc.id, hc.pw, hc.requested.append ev⟩

/-- The frame rule: what a handler knows outlasts a step of somebody else, who may bind more ids,
and changes the file only while the handler does not have the mutex. -/
theorem Knows.frame (hk : Knows content m log c name h) (hle : m.Le m')
    (hdata : h.pc.holds = true → content' = content ∧ m' = m) (ev : List Event) :
    Knows content' m' (log ++ ev) c name h := by
  unfold Knows at hk ⊢
  cases hpc : h.pc with
  | auth f =>
    simp only [hpc] at hk hdata ⊢
    obtain ⟨hclaims, hcall⟩ := hk
    obtain ⟨ph, hprog, hback⟩ := hcall.progress
    refine ⟨hclaims.append ev, hcall.id, hcall.pw, hcall.op, ph, ?_, fun i p hph => ?_⟩
    · cases hholds : f.pc.holds with
      | false => exact hprog.of_not_holds hholds
      | true =>
        obtain ⟨rfl, rfl⟩ := hdata hholds
        exact hprog
    · exact hle i p (hback i p hph)
  | reply r =>
    simp only [hpc] at hk ⊢
    exact ⟨hk.1.append ev, fun hr hmode => hle _ _ (hk.2 hr hmode)⟩
  | setName =>
    simp only [hpc] at hk ⊢
    exact ⟨hk.1.append ev, hk.2.1, hle _ _ hk.2.2⟩
  | dupLock | dupCheck | dupUnlock _ | call =>
    simp only [hpc] at hk ⊢
    exact hk.append ev
  | chatRead | joinRoom _ | joinAck _ | sendLock | sendLoop _ =>
    simp only [hpc] at hk ⊢
    exact hk
  | _ => simp only

/-- What a step makes of the file and the map: bindings stay, new ones are registrations of the
request, and nothing changes without the mutex. -/
structure Grown (log : List Event) (c : Addr) (holds : Bool) (content : Bytes) (m : UserMap)
    (content' : Bytes) (m' : UserMap) : Prop where
  represents : Represents content' m'
  le : m.Le m'
  new : ∀ id pw, m' id = some pw → m id = some pw ∨ Requested log c REGISTER id pw
  same : (content' = content ∧ m' = m) ∨ holds = true

theorem Grown.refl (hrep : Represents content m) (c : Addr) (holds : Bool) :
    Grown log c holds content m content m :=
  ⟨hrep, fun _ _ h => h, fun _ _ h => .inl h, .inl ⟨rfl, rfl⟩⟩

/-- A statement of a call. -/
theorem InCall.step {x : AuthFields} {f : AuthFrame} (hcall : InCall content m x f)
    (hclaims : Claims log c x) (hrep : Represents content m) :
    ∃ content' m', (authStep (some content) f).2.file (some content) = some content' ∧
      Grown log c f.pc.holds content m content' m' ∧
      match (authStep (some content) f).1 with
      | .inl f' => InCall content' m' x f'
      | .inr r => r = 0 → x.mode = LOGIN → m' x.id = some x.pw := by
  obtain ⟨ph, hprog, hback⟩ := hcall.progress
  have hi : IsField f.id := hcall.id ▸ hclaims.id
  have hp : IsField f.pw := hcall.pw ▸ hclaims.pw
  obtain ⟨-, hadv⟩ := hprog.next hi hp hrep
  cases hres : (authStep (some content) f).1 with
  | inr r =>
    rw [hres] at hadv
    obtain ⟨rfl, hfile, -⟩ := hadv
    refine ⟨content, m, hfile, .refl hrep c _, fun hr hmode => hback _ _ ?_⟩
    rw [hr, hcall.op, hmode, opOf_login LOGIN_ne_REGISTER]
  | inl f' =>
    rw [hres] at hadv
    obtain ⟨hop, hid, hpw, -, ⟨hfile, hprog'⟩ | ⟨rfl, hholds, content', hfile, hrep', hprog'⟩⟩ :=
      hadv
    · exact ⟨content, m, hfile, .refl hrep c _, hid.trans hcall.id, hpw.trans hcall.pw,
        hop.trans hcall.op, ph, hprog', hback⟩
    · refine ⟨content', _, hfile, ⟨hrep', fun i p hip => UserMap.apply_of_bound hip f.op,
        fun i p hip => ?_, .inr hholds⟩, hid.trans hcall.id, hpw.trans hcall.pw,
        hop.trans hcall.op, _, hprog', fun i p hph => ?_⟩
      · refine (UserMap.bound_of_apply hip).imp_right fun hreg => ?_
        have hmode : x.mode = REGISTER := by
          by_contra hne
          rw [hcall.op, opOf_login hne] at hreg
          cases hreg.1
        rw [hcall.op, hmode, opOf_register] at hreg
        cases hreg.1
        exact hmode ▸ hclaims.requested
      · obtain ⟨hlogin, hzero⟩ := (Phase.answered.injEq _ _ _ _).mp hph
        rw [hlogin, UserMap.apply_login_eq_zero] at hzero
        rw [hlogin]
        exact UserMap.apply_of_bound hzero _

variable {s : Server} {x : Input} {e : Effect}

/-- A step of the handler itself: what it knows afterwards; `name` is the name in the record
then. -/
theorem Knows.move (hk : Knows content m log c (s.nameOf c) h) (husers : s.users = some content)
    (hrep : Represents content m) (hm : Move s c h x h' e ev) (hok : WholeStep s (.handler c x))
    (hname : name = s.nameOf c ∨ h.pc = .setName) :
    ∃ content' m', e.users s = some content' ∧ Grown log c h.pc.holds content m content' m' ∧
      Knows content' m' (log ++ ev) c name h' := by
  have hquiet : e.users s = s.users → Knows content m (log ++ ev) c name h' →
      ∃ content' m', e.users s = some content' ∧ Grown log c h.pc.holds content m content' m' ∧
        Knows content' m' (log ++ ev) c name h' :=
    fun he hk' => ⟨content, m, he.trans husers, .refl hrep c _, hk'⟩
  have hsync : ∀ y : Sync, (Effect.sync y).users s = y.file (some content) := by
    intro y
    rw [← husers]
    cases y <;> rfl
  cases hm with
  | read bs old hpc hread hold =>
    obtain ⟨⟨rest, hw⟩, hi, hp⟩ := decode_whole old hok.2
    have hclaims : Claims (log ++ [.request c bs]) c (decode bs old) :=
      ⟨hi, hp, bs, rest, hw, List.mem_append_right _ (List.mem_singleton_self _)⟩
    refine hquiet rfl ?_
    unfold Knows
    by_cases hlogin : (decode bs old).mode = LOGIN
    · simp only [if_pos hlogin]
      exact hclaims
    · simp only [if_neg hlogin]
      exact hclaims
  | dupLock hpc | dupCheck hpc =>
    refine hquiet rfl ?_
    simp only [Knows, hpc] at hk ⊢
    exact hk.append _
  | dupUnlock b hpc =>
    refine hquiet rfl ?_
    simp only [Knows, hpc] at hk ⊢
    cases b
    · exact hk.append _
    · trivial
  | call fileId filePw hpc =>
    refine hquiet rfl ?_
    simp only [Knows, hpc] at hk ⊢
    refine ⟨hk.append _, rfl, rfl, rfl, _, ⟨rfl, rfl⟩, fun i p hph => ?_⟩
    cases hph
  | auth f f' y hpc hstep =>
    simp only [Knows, hpc] at hk
    obtain ⟨content', m', hfile, hgrown, hres⟩ := hk.2.step hk.1 hrep
    rw [← husers, hstep] at hfile hres
    refine ⟨content', m', ?_, by rw [hpc]; exact hgrown, hk.1.append _, hres⟩
    rw [hsync, ← husers]
    exact hfile
  | authReturn f r y hpc hstep =>
    simp only [Knows, hpc] at hk
    obtain ⟨content', m', hfile, hgrown, hres⟩ := hk.2.step hk.1 hrep
    rw [← husers, hstep] at hfile hres
    refine ⟨content', m', ?_, by rw [hpc]; exact hgrown, hk.1.append _, hres⟩
    rw [hsync, ← husers]
    exact hfile
  | replyOk hpc =>
    refine hquiet rfl ?_
    simp only [Knows, hpc] at hk
    unfold Knows
    by_cases hlogin : h.fields.mode = LOGIN
    · simp only [if_pos hlogin]
      exact ⟨hk.1.append _, hlogin, hk.2 trivial hlogin⟩
    · simp only [if_neg hlogin]
  | gateOpen hpc hne =>
    refine hquiet rfl ?_
    rcases hname with rfl | hset
    · exact hne
    · rw [hpc] at hset
      cases hset
  | chatText r msg strLen hpc hread =>
    refine hquiet rfl ?_
    rcases hname with rfl | hset
    · simp only [Knows, hpc] at hk ⊢
      exact ⟨hk, filled_of_receive hread _ _⟩
    · rw [hpc] at hset
      cases hset
  | sendEnd _ hpc _ =>
    refine hquiet rfl ?_
    rcases hname with rfl | hset
    · simp only [Knows, hpc] at hk ⊢
      exact hk.1
    · rw [hpc] at hset
      cases hset
  | chatIgnore _ _ _ hpc | chatJoin _ _ _ _ hpc | joinRoom _ hpc | joinAck _ hpc | sendLock hpc
  | sendNext _ _ hpc _ _ =>
    refine hquiet rfl ?_
    rcases hname with rfl | hset
    · simp only [Knows, hpc] at hk ⊢
      exact hk
    · rw [hpc] at hset
      cases hset
  | _ => exact hquiet rfl trivial

/-! ## 3. The invariant -/

/-- What holds along a run: the file represents a map whose bindings are accounted for, the
handlers know what they should, and so do the names. -/
structure Traced (m₀ : UserMap) (log : List Event) (s : Server) (content : Bytes) (m : UserMap) :
    Prop where
  users : s.users = some content
  represents : Represents content m
  known : ∀ id pw, m id = some pw → Known m₀ log id pw
  knows : ∀ c h, s.handlers c = some h → Knows content m log c (s.nameOf c) h
  named : ∀ c, s.nameOf c ≠ [] → ∃ pw, Requested log c LOGIN (s.nameOf c) pw ∧
    m (s.nameOf c) = some pw

theorem traced_init (hrep : Represents content m₀) :
    Traced m₀ [] (.init (some content)) content m₀ :=
  ⟨rfl, hrep, fun _ _ h => .inl h, fun c h hh => (by cases hh), fun c hne => (absurd rfl hne)⟩

theorem Traced.identified (ht : Traced m₀ log s content m) (hne : s.nameOf c ≠ []) :
    Identified m₀ log c (s.nameOf c) := by
  obtain ⟨pw, hreq, hbound⟩ := ht.named c hne
  exact ⟨pw, hreq, ht.known _ _ hbound⟩

/-- What a handler says is labelled with its name, and what it writes is what it says. -/
theorem Traced.needs (ht : Traced m₀ log s content m) (ho : Orderly log s)
    (hh : s.handlers c = some h) (hm : Move s c h x h' e ev) :
    ∀ y ∈ ev, NeedsIdentity m₀ y log := by
  have hk := ht.knows c h hh
  intro y hy
  cases hm with
  | sendLock hpc =>
    simp only [Knows, hpc] at hk
    cases List.mem_singleton.mp hy
    exact ⟨_, ht.identified hk.1, hk.2.labelled _⟩
  | sendNext i d hpc hi hd =>
    simp only [Knows, hpc] at hk
    rcases List.mem_cons.mp hy with rfl | hy
    · trivial
    · split at hy
      · cases List.mem_singleton.mp hy
        obtain ⟨hstart, -, -⟩ := ho.current ⟨hh, hpc⟩
        have hmem : (⟨c, s.reg.live, s.payloadOf c h⟩ : Call) ∈ started s.sends log := by
          rw [hstart]
          exact List.mem_singleton_self _
        exact ⟨c, _, mem_of_started hmem, _, ht.identified hk.1, hk.2.labelled _⟩
      · cases hy
  | read _ _ _ _ _ | dupFail _ | replyOk _ | replyFail _ _ _ | setName _ | welcome _ | joinAck _ _
  | gateOpen _ _ | sendEnd _ _ _ | discRemove _ =>
    cases List.mem_singleton.mp hy
    trivial
  | _ => cases hy

theorem Traced.step {s' : Server} {a : Action} (ht : Traced m₀ log s content m) (hsd : Sound s)
    (hok : WholeStep s a) (hs : StepOf s a s' ev) :
    ∃ content' m', Traced m₀ (log ++ ev) s' content' m' := by
  have hnames := hs.nameOf
  cases hs with
  | main hm he =>
    have ha := Server.applied he
    refine ⟨content, m, ?_, ht.represents, fun id pw hid => (ht.known id pw hid).append [],
      fun d g hg => ?_, fun d hne => ?_⟩
    · refine ha.users.trans (Eq.trans ?_ ht.users)
      cases hm <;> rfl
    · simp only [ha.handlers] at hg
      rcases hm.handlers hsd.alive d with hc | ⟨-, msg, hc⟩
      · rw [hc] at hg
        rcases hnames d with heq | ⟨sock, name, -, hnext, -⟩ | ⟨g, hact, -⟩
        · rw [heq]
          exact (ht.knows d g hg).frame (fun _ _ h => h) (fun _ => ⟨rfl, rfl⟩) []
        · exact absurd hnext (Nat.ne_of_lt (hsd.alive.lt hg))
        · cases hact
      · rw [hc] at hg
        cases hg
        trivial
    · rcases hnames d with heq | ⟨sock, name, hact, -, heq⟩ | ⟨g, hact, -⟩
      · rw [heq] at hne ⊢
        obtain ⟨pw, hreq, hbound⟩ := ht.named d hne
        exact ⟨pw, hreq.append [], hbound⟩
      · cases hact
        rw [heq] at hne
        exact absurd hok hne
      · cases hact
  | handler hh hm he =>
    rename_i c x f f' e s₁
    have ha := Server.applied he
    have hhandlers : s₁.handlers = s.handlers :=
      ha.handlers.trans (Effect.handlers_of_handler hm.ofMain)
    have hk := ht.knows c f hh
    have hname : Server.nameOf { s₁ with handlers := Function.update s₁.handlers c (some f') } c =
        s.nameOf c ∨ f.pc = .setName := by
      rcases hnames c with heq | ⟨sock, name, hact, -, -⟩ | ⟨g, -, hg, hpc, -, -⟩
      · exact .inl heq
      · cases hact
      · exact .inr (by rw [hh] at hg; cases hg; exact hpc)
    obtain ⟨content', m', husers, hgrown, hk'⟩ := hk.move ht.users ht.represents hm hok hname
    refine ⟨content', m', ha.users.trans husers, hgrown.represents, ?_, ?_, ?_⟩
    · intro id pw hid
      rcases hgrown.new id pw hid with hold | hreq
      · exact (ht.known id pw hold).append ev
      · exact .inr ⟨c, hreq.append ev⟩
    · intro d g hg
      by_cases hd : d = c
      · subst hd
        simp only [Function.update_self, Option.some.injEq] at hg
        exact hg ▸ hk'
      · simp only [Function.update_of_ne hd, hhandlers] at hg
        have hsame : Server.nameOf { s₁ with
            handlers := Function.update s₁.handlers c (some f') } d = s.nameOf d := by
          rcases hnames d with heq | ⟨sock, name, hact, -, -⟩ | ⟨g, hact, -⟩
          · exact heq
          · cases hact
          · cases hact
            exact absurd rfl hd
        rw [hsame]
        refine (ht.knows d g hg).frame hgrown.le (fun hholds => ?_) ev
        refine hgrown.same.resolve_right fun hmine => hd ?_
        have hboth : Tid.handler d = .handler c :=
          hsd.locked.unique (by simp [Server.holds, hg, hholds])
            (by simp [Server.holds, hh, hmine])
        exact Tid.handler.inj hboth
    · intro d hne
      rcases hnames d with heq | ⟨sock, name, hact, -, -⟩ | ⟨g, hact, hg, hpc, -, heq⟩
      · rw [heq] at hne ⊢
        obtain ⟨pw, hreq, hbound⟩ := ht.named d hne
        exact ⟨pw, hreq.append ev, hgrown.le _ _ hbound⟩
      · cases hact
      · have hset := ht.knows d g hg
        simp only [Knows, hpc] at hset
        obtain ⟨hclaims, hmode, hbound⟩ := hset
        rw [heq, cstr_strcpy _ hclaims.id.nulFree]
        exact ⟨g.fields.pw, (hmode ▸ hclaims.requested).append ev, hgrown.le _ _ hbound⟩

/-- In every run of the server from a file that represents `m₀`, whose steps meet the condition:
the text of each call of `send_msg` is labelled with the name under which the sender has asked to
log in, with a password that the name had in `m₀` or that somebody has asked to register with it
before, or names nobody; and what is delivered is the text of the call. -/
theorem no_impersonation {content₀ : Bytes} (hrep : Represents content₀ m₀)
    (h : Runs serverStep WholeStep (.init (some content₀)) log s) :
    Guarded (NeedsIdentity m₀) log := by
  obtain ⟨-, hg⟩ : (∃ content m, Traced m₀ log s content m) ∧ Guarded (NeedsIdentity m₀) log := by
    refine h.invariant (I := fun log s => (∃ content m, Traced m₀ log s content m) ∧
      Guarded (NeedsIdentity m₀) log) ⟨⟨_, _, traced_init hrep⟩, guarded_nil⟩ ?_
    rintro log s a s' ev hrun ⟨⟨content, m, ht⟩, hg⟩ hok hs
    have hstep := serverStep_stepOf hs
    refine ⟨ht.step (sound_of_runs hrun) hok hstep, hg.append (fun _ _ l' hx => hx.append l') ?_⟩
    cases hstep with
    | main hm he => exact fun y hy => (by cases hy)
    | handler hh hm he => exact ht.needs (orderly_of_runs hrun) hh hm
  exact hg

end

/-- One user registers and another connection logs in as that user and says something. -/
def registersAndSays : List Action :=
  connects 4 (List.replicate 20 0) ++
    .handler 0 (.request (some (utf8 "REGISTER kim 1")) ⟨[], [], []⟩) ::
      .handler 0 (.arrays [] []) :: goesOn 0 14 ++ connects 5 (List.replicate 20 0) ++
    logsIn 1 "LOGIN kim 1" 7 ++ goesOn 1 4 ++ hears 1 "hi" 2

theorem no_impersonation_kim : ∃ log s,
    Runs serverStep WholeStep (.init (some [])) log s ∧
    (∃ entries, Event.enterSend 1 1 entries (utf8 "[kim] hi") ∈ log) ∧
    Guarded (NeedsIdentity .empty) log := by
  obtain ⟨log, s, hrun, hp⟩ : ∃ log s, Runs serverStep WholeStep (.init (some [])) log s ∧
      (log.contains (.enterSend 1 1 [1] (utf8 "[kim] hi"))) = true :=
    exists_runs_of_exec registersAndSays _ (by decide +kernel)
  exact ⟨log, s, hrun, ⟨_, by simpa using hp⟩, no_impersonation represents_empty hrun⟩

end PosixLab.Chat
