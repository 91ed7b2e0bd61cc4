/-
# One session for each name

`handle_clnt` refuses a login when the table has a client with that name already.  But it looks
in one critical section, has the password checked in a second one, and stores the name after
both, so two logins with one id can pass the search together; and it looks in the table, which
loses clients when others leave (`Chat.Registry`).

`no_double_login` shows that there is nothing else: in every run in which no search comes
between another search for the same id and the `strcpy` that follows it, and in which clients
leave from the last slot, no two clients are logged in with the same name.
-/
import PosixLab.Chat.Gate

namespace PosixLab.Chat

open PosixLab

/-! ## 1. Sessions -/

/-- The client is past a successful login and has not disconnected. -/
def Online (c : Addr) (log : List Event) : Prop := .login c ∈ log ∧ .disconnect c ∉ log

instance (c : Addr) (log : List Event) : Decidable (Online c log) :=
  inferInstanceAs (Decidable (_ ∧ _))

/-- No two clients that are logged in have the same name. -/
def NoDouble (log : List Event) (s : Server) : Prop :=
  ∀ c d, c ≠ d → Online c log → Online d log → s.nameOf c ≠ s.nameOf d

/-- A login that has passed the search for a second one and has not stored its name, and may
still do so. -/
def Handler.entering (h : Handler) : Bool :=
  match h.pc with
  | .dupUnlock b => !b
  | .call | .auth _ => h.fields.mode == LOGIN
  | .reply r => r == 0 && h.fields.mode == LOGIN
  | .setName => true
  | _ => false

/-- The handler of `c` is entering with the name `id`. -/
def Server.claims (s : Server) (c : Addr) (id : Bytes) : Bool :=
  (s.handlers c).any fun h => h.entering && h.fields.id == id

/-- The handler of `c` is about to search for a second login with its `id`, and another one is
entering with that name. -/
def Server.contested (s : Server) (c : Addr) : Bool :=
  (s.handlers c).any fun h =>
    match h.pc with
    | .dupCheck => (List.range s.next).any fun d => d != c && s.claims d h.fields.id
    | _ => false

/-- A new record has no name in it, and the words of a request fit the arrays. -/
def EmptyNames (_ : Server) : Action → Prop
  | .main (.accept _ name) => cstr name = []
  | .handler _ (.request (some bs) old) => (decode bs old).Fits
  | _ => True

instance (s : Server) : (a : Action) → Decidable (EmptyNames s a)
  | .main (.accept _ name) => inferInstanceAs (Decidable (cstr name = []))
  | .handler _ (.request (some bs) old) => inferInstanceAs (Decidable (decode bs old).Fits)
  | .main .go | .main (.stack _) => inferInstanceAs (Decidable True)
  | .handler _ (.request none _) | .handler _ (.arrays _ _) | .handler _ (.chat _)
  | .handler _ .go => inferInstanceAs (Decidable True)

/-- A search does not come while another handler is entering with the same name, and clients
leave the table from its last slot. -/
def Uncontested (s : Server) : Action → Prop
  | .handler c .go => s.contested c = false ∧ (s.leaving c = true → s.Last c)
  | _ => True

instance (s : Server) : (a : Action) → Decidable (Uncontested s a)
  | .handler c .go => inferInstanceAs (Decidable (_ ∧ (s.leaving c = true → s.Last c)))
  | .main _ | .handler _ (.request _ _) | .handler _ (.arrays _ _) | .handler _ (.chat _) =>
    inferInstanceAs (Decidable True)

/-- The condition on a step. -/
def LoginStep (s : Server) (a : Action) : Prop := EmptyNames s a ∧ Uncontested s a

instance (s : Server) (a : Action) : Decidable (LoginStep s a) :=
  inferInstanceAs (Decidable (_ ∧ _))

/-! ## 2. Names that are claimed -/

/-- A handler enters at the search, if nothing is found. -/
theorem Move.entering {s : Server} {c : Addr} {h h' : Handler} {x : Input} {e : Effect}
    {ev : List Event} (hm : Move s c h x h' e ev) (hc : h'.entering = true) :
    h'.fields = h.fields ∧
      (h.entering = true ∨ (x = .go ∧ h.pc = .dupCheck ∧ ev = [] ∧
        s.alreadyLoggedIn c h.fields.id = false)) := by
  cases hm with
  | dupCheck hpc =>
    refine ⟨rfl, Or.inr ⟨rfl, hpc, rfl, ?_⟩⟩
    simpa [Handler.entering] using hc
  | dupUnlock b hpc =>
    refine ⟨rfl, Or.inl ?_⟩
    cases b with
    | false => simp [Handler.entering, hpc]
    | true => simp [Handler.entering] at hc
  | call fileId filePw hpc =>
    refine ⟨rfl, Or.inl ?_⟩
    simpa [Handler.entering, hpc] using hc
  | auth f f' y hpc hstep =>
    refine ⟨rfl, Or.inl ?_⟩
    simpa [Handler.entering, hpc] using hc
  | authReturn f r y hpc hstep =>
    refine ⟨rfl, Or.inl ?_⟩
    simp only [Handler.entering, Bool.and_eq_true] at hc
    simp only [Handler.entering, hpc, hc.2]
  | replyOk hpc =>
    refine ⟨rfl, Or.inl ?_⟩
    by_cases hmode : h.fields.mode = LOGIN
    · simp [Handler.entering, hpc, hmode]
    · simp [Handler.entering, hmode] at hc
  | read bs old hpc hread hold =>
    by_cases hmode : (decode bs old).mode = LOGIN
    · simp [Handler.entering, hmode] at hc
    · simp [Handler.entering, hmode] at hc
  | _ => simp [Handler.entering] at hc

theorem Server.claims_iff {s : Server} {c : Addr} {id : Bytes} :
    s.claims c id = true ↔
      ∃ h, s.handlers c = some h ∧ h.entering = true ∧ h.fields.id = id := by
  simp [Server.claims, Option.any_eq_true]

/-- Whoever has a claim after a step had it before, or has just made the search. -/
theorem StepOf.claims {s s' : Server} {a : Action} {ev : List Event} (hs : StepOf s a s' ev)
    (hal : Alive s) {c : Addr} {id : Bytes} (hc : s'.claims c id = true) :
    s.claims c id = true ∨ (a = .handler c .go ∧ ev = [] ∧ ∃ h, s.handlers c = some h ∧
      h.pc = .dupCheck ∧ h.fields.id = id ∧ s.alreadyLoggedIn c id = false) := by
  obtain ⟨g, hg, hent, rfl⟩ := Server.claims_iff.mp hc
  rcases hs.frame hal hg with ⟨hf, -⟩ | ⟨-, msg, rfl⟩ | ⟨f, x, e, rfl, hf, hm⟩
  · exact Or.inl (Server.claims_iff.mpr ⟨g, hf, hent, rfl⟩)
  · cases hent
  · obtain ⟨hfields, hwas | ⟨rfl, hpc, rfl, hnot⟩⟩ := hm.entering hent
    · exact Or.inl (Server.claims_iff.mpr ⟨f, hf, hwas, by rw [hfields]⟩)
    · exact Or.inr ⟨rfl, rfl, f, hf, hpc, by rw [hfields], by rw [hfields]; exact hnot⟩

/-- Who logs in stores the name it has claimed. -/
theorem StepOf.login {s s' : Server} {a : Action} {ev : List Event} (hs : StepOf s a s' ev)
    {c : Addr} (hc : .login c ∈ ev) :
    a = .handler c .go ∧ ev = [.login c] ∧ ∃ h, s.handlers c = some h ∧ h.pc = .setName ∧
      s'.nameOf c = cstr (strcpy (s.heap c).name h.fields.id) := by
  cases hs with
  | main hm he => cases hc
  | handler hh hm he =>
    rename_i d x f f' e s₁
    have hheap := (Server.applied he).heap
    cases hm with
    | setName hpc =>
      cases List.mem_singleton.mp hc
      refine ⟨rfl, rfl, f, hh, hpc, ?_⟩
      simp [Server.nameOf, hheap, Effect.heap]
    | sendNext i entry hpc hi hentry =>
      rcases List.mem_cons.mp hc with hc | hc
      · cases hc
      · split at hc
        · cases List.mem_singleton.mp hc
        · cases hc
    | read _ _ _ _ _ | dupFail _ | replyOk _ | replyFail _ _ _ | gateOpen _ _ | welcome _
    | sendLock _ | joinAck _ _ | sendEnd _ _ _ | discRemove _ =>
      cases List.mem_singleton.mp hc
    | _ => cases hc

/-! ## 3. The invariant -/

/-- Behind the `strcpy` of the name. -/
def HandlerPc.late : HandlerPc → Bool
  | .read | .dupLock | .dupCheck | .dupUnlock _ | .dupFail | .call | .auth _ | .reply _
  | .setName => false
  | _ => true

theorem Move.late {s : Server} {c : Addr} {h h' : Handler} {x : Input} {e : Effect}
    {ev : List Event} (hm : Move s c h x h' e ev) (hl : h.pc.late = true ∨ h.pc = .setName) :
    h'.pc.late = true := by
  cases hm with
  | read _ _ hpc _ _ | dupLock hpc | dupCheck hpc | dupUnlock _ hpc | call _ _ hpc
  | auth _ _ _ hpc _ | authReturn _ _ _ hpc _ | replyOk hpc => simp [hpc, HandlerPc.late] at hl
  | _ => rfl

/-- The names of those that are logged in, and the names claimed by those that are entering,
are all different. -/
structure Distinct (log : List Event) (s : Server) : Prop where
  strings : ∀ c h, s.handlers c = some h → h.fields.Strings
  connected : ∀ c h, s.handlers c = some h → h.pc.asking = true → 0 ≤ s.sockOf c
  late : ∀ c, .login c ∈ log → ∃ h, s.handlers c = some h ∧ h.pc.late = true
  left : ∀ c h, s.handlers c = some h → h.pc.inTable = false → .disconnect c ∈ log
  claims : ∀ c d id, c ≠ d → s.claims c id = true → ¬ s.claims d id = true
  online : ∀ c d id, c ≠ d → s.claims c id = true → Online d log → s.nameOf d ≠ id
  noDouble : NoDouble log s

theorem distinct_init (users : Option Bytes) : Distinct [] (.init users) := by
  constructor
  · intro c h hc
    cases hc
  · intro c h hc
    cases hc
  · intro c hc
    cases hc
  · intro c h hc
    cases hc
  · intro c d id hne hc
    cases hc
  · intro c d id hne hc
    cases hc
  · intro c d hne hc
    cases hc.1

section

variable {log ev : List Event} {s s' : Server} {a : Action}

theorem Online.of_append {c : Addr} (h : Online c (log ++ ev)) :
    Online c log ∨ .login c ∈ ev := by
  obtain ⟨hin, hout⟩ := h
  rcases List.mem_append.mp hin with hin | hin
  · exact Or.inl ⟨hin, fun hl => hout (List.mem_append_left _ hl)⟩
  · exact Or.inr hin

/-- Who is logged in is in the table. -/
theorem Distinct.inTable (h : Distinct log s) {d : Addr} (hd : Online d log) :
    s.inTable d = true := by
  obtain ⟨f, hf, -⟩ := h.late d hd.1
  simp only [Server.inTable, hf]
  cases hin : f.pc.inTable with
  | true => rfl
  | false => exact absurd (h.left d f hf hin) hd.2

/-- A name that has been stored stays. -/
theorem Distinct.nameOf_eq (h : Distinct log s) (hal : Alive s) (hs : StepOf s a s' ev)
    {d : Addr} (hd : .login d ∈ log) : s'.nameOf d = s.nameOf d := by
  obtain ⟨f, hf, hlate⟩ := h.late d hd
  rcases hs.nameOf d with heq | ⟨-, -, -, rfl, -⟩ | ⟨g, -, hg, hpc, -, -⟩
  · exact heq
  · exact absurd (hal.lt hf) (Nat.lt_irrefl _)
  · cases hf.symm.trans hg
    rw [hpc] at hlate
    cases hlate

/-- The search of `c` finds everybody who is logged in with its id. -/
theorem Distinct.search (h : Distinct log s) (hw : Wired s) (hp : Present s) {c d : Addr}
    {f : Handler} (hf : s.handlers c = some f) (hpc : f.pc = .dupCheck) (hd : Online d log)
    (hne : c ≠ d) {id : Bytes} (hnot : s.alreadyLoggedIn c id = false) : s.nameOf d ≠ id := by
  have hin := h.inTable hd
  have h0 : 0 ≤ s.sockOf c := h.connected c f hf (by rw [hpc]; rfl)
  have hopen : s.isOpen c = true := by
    simp [Server.isOpen, hf, hpc, HandlerPc.isOpen]
  have hsock : s.sockOf d ≠ s.sockOf c := by
    intro heq
    have hfd := hw.fd_of_open c hopen h0
    rw [← heq] at hfd
    exact hne (hw.eq_of_inTable hin hfd)
  simp only [Server.alreadyLoggedIn, List.any_eq_false, Bool.and_eq_true, bne_iff_ne,
    beq_iff_eq, not_and] at hnot
  exact hnot d ((hp d).mpr hin) hsock

/-- Nobody else claims the id that `c` searches for. -/
theorem Uncontested.claims {c d : Addr} {f : Handler} (h : Uncontested s (.handler c .go))
    (hal : Alive s) (hf : s.handlers c = some f) (hpc : f.pc = .dupCheck) (hne : d ≠ c) :
    ¬ s.claims d f.fields.id = true := by
  intro hd
  obtain ⟨g, hg, -, -⟩ := Server.claims_iff.mp hd
  have hcon := h.1
  simp only [Server.contested, hf, hpc, Option.any_some, List.any_eq_false, List.mem_range,
    Bool.and_eq_true, bne_iff_ne, not_and] at hcon
  exact hcon d (hal.lt hg) hne hd

/-- The name a login stores is the one that was claimed. -/
theorem Distinct.login (h : Distinct log s) (hs : StepOf s a s' ev) {c : Addr}
    (hc : .login c ∈ ev) :
    a = .handler c .go ∧ s.claims c (s'.nameOf c) = true := by
  obtain ⟨rfl, -, f, hf, hpc, hname⟩ := hs.login hc
  rw [cstr_strcpy _ (h.strings c f hf).2.1] at hname
  exact ⟨rfl, Server.claims_iff.mpr ⟨f, hf, by simp [Handler.entering, hpc], hname.symm⟩⟩

/-- Claims stay different. -/
theorem Distinct.claims_step (h : Distinct log s) (hal : Alive s) (hok : Uncontested s a)
    (hs : StepOf s a s' ev) {c d : Addr} {id : Bytes} (hne : c ≠ d)
    (hc : s'.claims c id = true) : ¬ s'.claims d id = true := by
  intro hd
  rcases hs.claims hal hc with hc | ⟨rfl, -, f, hf, hpc, rfl, -⟩
  · rcases hs.claims hal hd with hd | ⟨rfl, -, f, hf, hpc, rfl, -⟩
    · exact h.claims c d id hne hc hd
    · exact hok.claims hal hf hpc hne hc
  · rcases hs.claims hal hd with hd | ⟨heq, -⟩
    · exact hok.claims hal hf hpc hne.symm hd
    · cases heq
      exact hne rfl

/-- What is claimed stays different from the names of those that are logged in. -/
theorem Distinct.online_step (h : Distinct log s) (hsd : Sound s) (hp : Present s)
    (hs : StepOf s a s' ev) {c d : Addr} {id : Bytes} (hne : c ≠ d)
    (hc : s'.claims c id = true) (hd : Online d (log ++ ev)) : s'.nameOf d ≠ id := by
  rcases hd.of_append with hd | hd
  · rw [h.nameOf_eq hsd.alive hs hd.1]
    rcases hs.claims hsd.alive hc with hc | ⟨rfl, -, f, hf, hpc, -, hnot⟩
    · exact h.online c d id hne hc hd
    · exact h.search hsd.wired hp hf hpc hd hne hnot
  · obtain ⟨rfl, hclaim⟩ := h.login hs hd
    rcases hs.claims hsd.alive hc with hc | ⟨heq, -⟩
    · rintro rfl
      exact h.claims c d _ hne hc hclaim
    · cases heq
      exact absurd rfl hne

/-- A login with the name it claimed meets nobody of that name. -/
theorem Distinct.noDouble_step (h : Distinct log s) (hsd : Sound s) (hs : StepOf s a s' ev) :
    NoDouble (log ++ ev) s' := by
  -- the new login is that of `c`
  have hnew : ∀ {c d}, c ≠ d → .login c ∈ ev → Online d (log ++ ev) →
      s'.nameOf c ≠ s'.nameOf d := by
    intro c d hne hc hd
    obtain ⟨rfl, hclaim⟩ := h.login hs hc
    rcases hd.of_append with hd | hd
    · rw [h.nameOf_eq hsd.alive hs hd.1]
      exact (h.online c d _ hne hclaim hd).symm
    · obtain ⟨heq, -⟩ := h.login hs hd
      cases heq
      exact absurd rfl hne
  intro c d hne hc hd
  rcases hc.of_append with hc' | hc'
  · rcases hd.of_append with hd' | hd'
    · rw [h.nameOf_eq hsd.alive hs hc'.1, h.nameOf_eq hsd.alive hs hd'.1]
      exact h.noDouble c d hne hc' hd'
    · exact (hnew hne.symm hd' hc).symm
  · exact hnew hne hc' hd

/-- Every step that meets the condition keeps the names different. -/
theorem Distinct.step (h : Distinct log s) (hsd : Sound s) (hp : Present s)
    (hok : LoginStep s a) (hs : StepOf s a s' ev) : Distinct (log ++ ev) s' := by
  constructor
  · intro c g hg
    rcases hs.frame hsd.alive hg with ⟨hf, -⟩ | ⟨-, msg, rfl⟩ | ⟨f, x, e, rfl, hf, hm⟩
    · exact h.strings c g hf
    · exact (by decide +kernel : AuthFields.Strings ⟨[], [], []⟩)
    · rcases hm.fields with ⟨hfields, -⟩ | ⟨bs, old, -, -, -, hold, hfields, -⟩
      · exact hfields ▸ h.strings c f hf
      · exact hfields ▸ decode_strings hold bs
  · intro c g hg hask
    rcases hs.frame hsd.alive hg with ⟨hf, -⟩ | ⟨-, msg, rfl⟩ | ⟨f, x, e, rfl, hf, hm⟩
    · rw [hs.sockOf (hsd.alive.lt hf)]
      exact h.connected c g hf hask
    · cases hask
    · rw [hs.sockOf (hsd.alive.lt hf)]
      rcases hm.fields with ⟨-, hwas⟩ | ⟨bs, old, -, -, h0, -, -, -⟩
      · exact h.connected c f hf (hwas hask)
      · exact h0
  · intro c hc
    have hold : ∃ f, s.handlers c = some f ∧ (f.pc.late = true ∨ f.pc = .setName) := by
      rcases List.mem_append.mp hc with hc | hc
      · obtain ⟨f, hf, hl⟩ := h.late c hc
        exact ⟨f, hf, Or.inl hl⟩
      · obtain ⟨-, -, f, hf, hpc, -⟩ := hs.login hc
        exact ⟨f, hf, Or.inr hpc⟩
    obtain ⟨f, hf, hl⟩ := hold
    obtain ⟨g, hg⟩ := Option.isSome_iff_exists.mp (hs.handlers_isSome (by rw [hf]; rfl))
    refine ⟨g, hg, ?_⟩
    rcases hs.frame hsd.alive hg with ⟨hf', hne⟩ | ⟨hnone, -⟩ | ⟨f', x, e, -, hf', hm⟩
    · cases hf.symm.trans hf'
      rcases List.mem_append.mp hc with hc | hc
      · obtain ⟨f', hf', hl'⟩ := h.late c hc
        cases hf.symm.trans hf'
        exact hl'
      · exact absurd (hs.login hc).1 (hne _)
    · rw [hnone] at hf
      cases hf
    · cases hf.symm.trans hf'
      exact hm.late hl
  · intro c g hg hout
    rcases hs.frame hsd.alive hg with ⟨hf, -⟩ | ⟨-, msg, rfl⟩ | ⟨f, x, e, rfl, hf, hm⟩
    · exact List.mem_append_left _ (h.left c g hf hout)
    · cases hout
    · rcases hm.inTable with ⟨-, -, rfl, -, -⟩ | ⟨-, hin⟩
      · exact List.mem_append_right _ (List.mem_singleton_self _)
      · exact List.mem_append_left _ (h.left c f hf (hin ▸ hout))
  · intro c d id hne hc
    exact h.claims_step hsd.alive hok.2 hs hne hc
  · intro c d id hne hc hd
    exact h.online_step hsd hp hs hne hc hd
  · exact h.noDouble_step hsd hs

end

/-! ## 4. The result -/

/-- In every run of the server whose steps meet the condition, no two clients that are past a
successful login and have not disconnected have the same name. -/
theorem no_double_login {users : Option Bytes} {log : List Event} {s : Server}
    (h : Runs serverStep LoginStep (.init users) log s) : NoDouble log s := by
  have hd : Distinct log s := by
    refine h.invariant (I := Distinct) (distinct_init users) ?_
    intro log s a s' ev hrun ih ha hs
    exact ih.step (sound_of_runs hrun) (present_of_runs (fun _ _ hl => hl.2.2) hrun) ha
      (serverStep_stepOf hs)
  exact hd.noDouble

/-- Two users log in, one after the other. -/
def twoLogins : List Action :=
  connects 4 (List.replicate 20 0) ++ logsIn 0 "LOGIN kim 1" 7 ++ goesOn 0 4 ++
    connects 5 (List.replicate 20 0) ++ logsIn 1 "LOGIN lee 2" 8 ++ goesOn 1 4

theorem no_double_login_two : ∃ log s,
    Runs serverStep LoginStep (.init (some (utf8 "kim 1\nlee 2\n"))) log s ∧
    Online 0 log ∧ Online 1 log ∧ s.nameOf 0 ≠ s.nameOf 1 := by
  obtain ⟨log, s, hrun, hp⟩ : ∃ log s,
      Runs serverStep LoginStep (.init (some (utf8 "kim 1\nlee 2\n"))) log s ∧
      decide (Online 0 log ∧ Online 1 log) = true :=
    exists_runs_of_exec twoLogins _ (by decide +kernel)
  obtain ⟨h0, h1⟩ := of_decide_eq_true hp
  exact ⟨log, s, hrun, h0, h1, no_double_login hrun 0 1 (by decide) h0 h1⟩

/-- Two connections ask for `kim`, and both search before either of them stores the name. -/
def twiceAtOnce : List Action :=
  connects 4 (List.replicate 20 0) ++ connects 5 (List.replicate 20 0) ++
    .handler 0 (.request (some (utf8 "LOGIN kim 1")) ⟨[], [], []⟩) :: goesOn 0 3 ++
    logsIn 1 "LOGIN kim 1" 7 ++ goesOn 1 4 ++
    .handler 0 (.arrays [] []) :: goesOn 0 11

/-- The two are logged in as `kim`. -/
theorem double_login : ∃ log s,
    Runs serverStep EmptyNames (.init (some (utf8 "kim 1\n"))) log s ∧ ¬ NoDouble log s := by
  obtain ⟨log, s, hrun, hp⟩ : ∃ log s,
      Runs serverStep EmptyNames (.init (some (utf8 "kim 1\n"))) log s ∧
      decide (Online 0 log ∧ Online 1 log ∧ s.nameOf 0 = s.nameOf 1) = true :=
    exists_runs_of_exec twiceAtOnce _ (by decide +kernel)
  obtain ⟨h0, h1, heq⟩ := of_decide_eq_true hp
  exact ⟨log, s, hrun, fun h => h 0 1 (by decide) h0 h1 heq⟩

end PosixLab.Chat
