/-
# Everybody hears the same

What a client has been shown is the start of what the others have said while it was there, each
chunk behind the label of its sender, in the one order in which the server has read the chunks
(`conversation_shared`).  Three invariants carry this along the runs: whose connection a descriptor
is (`Linked`), what is on its way in the two streams of a connection (`Streams`), and what is still
to be written of what is due (`Told`).
-/
import PosixLab.Select.Session
import PosixLab.Basis.Progress

namespace PosixLab.Select

open PosixLab

variable {κ : Type*} [DecidableEq κ]

/-! ## 1. What is said, and what is due -/

def ChatEvent.saidBy (c : κ) : ChatEvent κ → Option Bytes
  | .said d text => if d = c then some text else none
  | _ => none

def ChatEvent.typedBy (c : κ) : ChatEvent κ → Option Bytes
  | .typed d line => if d = c then some line else none
  | _ => none

def ChatEvent.heardBy (c : κ) : ChatEvent κ → Option Bytes
  | .heard d _ bs => if d = c then some bs else none
  | _ => none

def ChatEvent.toldTo (c : κ) : ChatEvent κ → Option Bytes
  | .told d text => if d = c then some text else none
  | _ => none

def ChatEvent.gotBy (c : κ) : ChatEvent κ → Option Bytes
  | .got d bs => if d = c then some bs else none
  | _ => none

/-- The lines that a client has been given, but for those that end it. -/
def typedOf (c : κ) (log : List (ChatEvent κ)) : List Bytes := log.filterMap (ChatEvent.typedBy c)

/-- What a client has written to its connection. -/
def saidOf (c : κ) (log : List (ChatEvent κ)) : List Bytes := log.filterMap (ChatEvent.saidBy c)

/-- What the server has read from it. -/
def heardOf (c : κ) (log : List (ChatEvent κ)) : List Bytes := log.filterMap (ChatEvent.heardBy c)

/-- What the server has written to it. -/
def toldOf (c : κ) (log : List (ChatEvent κ)) : List Bytes := log.filterMap (ChatEvent.toldTo c)

/-- What the client has read. -/
def gotOf (c : κ) (log : List (ChatEvent κ)) : List Bytes := log.filterMap (ChatEvent.gotBy c)

/-- What a client prints of a read, behind whose bytes a terminator is stored. -/
def ChatEvent.shownBy (c : κ) : ChatEvent κ → Option Bytes
  | .got d bs => if d = c then some (cstr bs) else none
  | _ => none

/-- What the client has printed of its reads. -/
def shownOf (c : κ) (log : List (ChatEvent κ)) : List Bytes := log.filterMap (ChatEvent.shownBy c)

theorem shownOf_eq (c : κ) (log : List (ChatEvent κ)) : shownOf c log = (gotOf c log).map cstr := by
  rw [shownOf, gotOf, List.map_filterMap]
  refine List.filterMap_congr fun e _ => ?_
  cases e with
  | got d bs => simp only [ChatEvent.shownBy, ChatEvent.gotBy, apply_ite (Option.map cstr)]; rfl
  | _ => rfl

/-- Whether the client is there, and the texts that are due to it: what the server reads from the
others between the two, behind the label of the one it comes from. -/
def due (c : κ) : Bool × List Bytes → ChatEvent κ → Bool × List Bytes
  | p, .joined d _ => if d = c then (true, p.2) else p
  | p, .left d => if d = c then (false, p.2) else p
  | p, .heard d fd bs => if d ≠ c ∧ p.1 = true then (p.1, p.2 ++ [clientPrefix fd ++ bs]) else p
  | p, _ => p

def present (c : κ) (log : List (ChatEvent κ)) : Bool := (log.foldl (due c) (false, [])).1

def dueTo (c : κ) (log : List (ChatEvent κ)) : List Bytes := (log.foldl (due c) (false, [])).2

section

variable {s s' : Session κ} {a : SessionAction κ} {ev log : List (ChatEvent κ)} {c : κ}

theorem typedOf_snoc (c : κ) (log : List (ChatEvent κ)) (e : ChatEvent κ) :
    typedOf c (log ++ [e]) = typedOf c log ++ (e.typedBy c).toList := filterMap_snoc _ _ _

theorem saidOf_snoc (c : κ) (log : List (ChatEvent κ)) (e : ChatEvent κ) :
    saidOf c (log ++ [e]) = saidOf c log ++ (e.saidBy c).toList := filterMap_snoc _ _ _

theorem heardOf_snoc (c : κ) (log : List (ChatEvent κ)) (e : ChatEvent κ) :
    heardOf c (log ++ [e]) = heardOf c log ++ (e.heardBy c).toList := filterMap_snoc _ _ _

theorem toldOf_snoc (c : κ) (log : List (ChatEvent κ)) (e : ChatEvent κ) :
    toldOf c (log ++ [e]) = toldOf c log ++ (e.toldTo c).toList := filterMap_snoc _ _ _

theorem gotOf_snoc (c : κ) (log : List (ChatEvent κ)) (e : ChatEvent κ) :
    gotOf c (log ++ [e]) = gotOf c log ++ (e.gotBy c).toList := filterMap_snoc _ _ _

/-- The receivers of a broadcast are connected. -/
theorem connected_of_mem_broadcast {s : SelectServer} (h : Kept s) {msg : Bytes}
    {p : Int × Bytes} (hp : p ∈ s.broadcast msg) : p.1 ∈ s.connected := by
  obtain ⟨j, -, hj⟩ := List.mem_filterMap.mp hp
  obtain ⟨⟨hmem, hne, -⟩, heq⟩ := Option.ite_none_right_eq_some.mp hj
  cases heq
  rw [h.exact.1, Finset.mem_insert] at hmem
  exact hmem.resolve_left hne

/-! ## 2. Whose connection is whose -/

/-- The connected clients are those whose connection has been accepted, each of them once, and
the writes that are still to be made are to connections. -/
structure Linked (s : Session κ) : Prop where
  kept : Kept s.server
  owned : ∀ fd, fd ∈ s.server.connected ↔ ∃ c, s.owner fd = some c
  inj : ∀ {fd fd' c}, s.owner fd = some c → s.owner fd' = some c → fd = fd'
  waiting : s.backlog.Nodup
  alone : ∀ c ∈ s.backlog, ∀ fd, s.owner fd ≠ some c
  begun : ∀ c, (s.clients c).pc = .connect → c ∉ s.backlog ∧ ∀ fd, s.owner fd ≠ some c
  out : ∀ p ∈ s.out, ∃ c, s.owner p.1 = some c

omit [DecidableEq κ] in
theorem linked_init {inherited : Finset Int} {servSock : Int} (buf : Bytes)
    (h : LowestFree inherited servSock) (hfit : servSock < fdSetSize) :
    Linked (.init inherited servSock buf : Session κ) where
  kept := kept_init buf h hfit
  owned fd := by simp [Session.init, SelectServer.init]
  inj h := by cases h
  waiting := List.nodup_nil
  alone c hc := by cases hc
  begun c _ := ⟨List.not_mem_nil, fun fd h => by cases h⟩
  out p hp := by cases hp

omit [DecidableEq κ] in
/-- A new descriptor is nobody's. -/
theorem Linked.fresh (h : Linked s) {fd : Int} (hp : Possible s.server (.accept fd))
    (hfd : fd ≠ -1) : ∀ c, s.owner fd ≠ some c := by
  intro c hc
  have hmem : fd ∈ s.server.connected := (h.owned fd).mpr ⟨c, hc⟩
  have hread : fd ∈ s.server.reads := by
    rw [h.kept.exact.1]
    exact Finset.mem_insert_of_mem hmem
  obtain ⟨hr, -, hret⟩ := hp
  exact (hret.resolve_left hfd).2.1 (h.kept.opens (by simp [hr.1]) hread)

omit [DecidableEq κ] in
theorem ClientMove.pc_ne {stopped : Bool} {x x' : ChatClient} {b : ClientAction}
    {ev : List (ChatEvent κ)} (h : ClientMove stopped c x b x' ev) :
    x'.pc ≠ .connect ∧ (b = .connect true → x.pc = .connect) := by
  cases h with
  | connect taken hpc htaken => exact ⟨by cases taken <;> simp, fun _ => hpc⟩
  | goes a pc ha hpc htext hfrom => exact ⟨hpc, fun h => absurd h (ha true)⟩
  | got bs input hpc hne hbs hlen => exact ⟨by cases input <;> simp, fun h => by cases h⟩
  | typed line hpc => exact ⟨by simp, fun h => by cases h⟩
  | said text hpc => exact ⟨by simp, fun h => by cases h⟩

theorem Linked.step (h : Linked s) (hs : Smooth s a) (hm : SessionMove s a s' ev) :
    Linked s' := by
  cases hm with
  | quiet b hout hp hq hconn =>
    refine ⟨h.kept.step hp hs.1, fun fd => ?_, h.inj, h.waiting, h.alone, h.begun, ?_⟩
    · simpa only [Session.next, hconn] using h.owned fd
    · simp [Session.next, hq]
  | joined c backlog fd hout hp hfd hback =>
    have hc : c ∈ s.backlog := by rw [hback]; exact List.mem_cons_self
    have hnd := h.waiting
    rw [hback, List.nodup_cons] at hnd
    refine ⟨h.kept.step hp hs.1, fun e => ?_, ?_, hnd.2, fun d hd e => ?_, fun d hd => ?_,
      ?_⟩
    · have hnext : (selectNext s.server (.accept fd)).connected =
          insert fd s.server.connected := by
        simp [selectNext, selectStep, hfd]
      simp only [Session.next, hnext, Finset.mem_insert, h.owned]
      by_cases he : e = fd
      · subst he
        simp
      · simp [he]
    · intro e e' d he he'
      simp only [Function.update_apply] at he he'
      split at he <;> split at he'
      · rename_i h₁ h₂
        rw [h₁, h₂]
      · cases he
        exact absurd he' (h.alone c hc e')
      · cases he'
        exact absurd he (h.alone c hc e)
      · exact h.inj he he'
    · have hmem : d ∈ s.backlog := by rw [hback]; exact List.mem_cons_of_mem _ hd
      simp only [Function.update_apply]
      split
      · rintro heq
        cases heq
        exact hnd.1 hd
      · exact h.alone d hmem e
    · obtain ⟨hnot, howner⟩ := h.begun d hd
      refine ⟨fun hmem => hnot (by rw [hback]; exact List.mem_cons_of_mem _ hmem), fun e => ?_⟩
      simp only [Function.update_apply]
      split
      · rintro heq
        cases heq
        exact hnot hc
      · exact howner e
    · simp [Session.next, selectStep]
  | left c hout hp hown =>
    have hless : ∀ {e d}, Function.update s.owner s.server.i none e = some d →
        s.owner e = some d := by
      intro e d he
      simp only [Function.update_apply] at he
      split at he
      · cases he
      · exact he
    refine ⟨h.kept.step hp hs.1, fun e => ?_, fun he he' => h.inj (hless he) (hless he'),
      h.waiting, fun d hd e he => h.alone d hd e (hless he), fun d hd => ?_, ?_⟩
    · have hnext : (selectNext s.server (.read .eof)).connected =
          s.server.connected.erase s.server.i := rfl
      simp only [Session.next, hnext, Finset.mem_erase, h.owned]
      by_cases he : e = s.server.i
      · subst he
        simp
      · simp [he]
    · exact ⟨(h.begun d hd).1, fun e he => (h.begun d hd).2 e (hless he)⟩
    · simp [Session.next, selectStep, SelectServer.read]
  | failed hout hp => exact hs.1.elim
  | heard c bs hout hp hown hbs =>
    refine ⟨h.kept.step hp hs.1, h.owned, h.inj, h.waiting, h.alone, fun d hd => ?_,
      fun p hmem => ?_⟩
    · refine h.begun d ?_
      by_cases hdc : d = c
      · subst hdc
        simpa using hd
      · simpa [hdc] using hd
    · exact (h.owned p.1).mp (connected_of_mem_broadcast h.kept hmem)
  | told c fd msg out hout hown =>
    refine ⟨h.kept, h.owned, h.inj, h.waiting, h.alone, fun d hd => ?_, fun p hmem => ?_⟩
    · refine h.begun d ?_
      by_cases hdc : d = c
      · subst hdc
        simpa using hd
      · simpa [hdc] using hd
    · exact h.out p (by rw [hout]; exact List.mem_cons_of_mem _ hmem)
  | lost fd msg out hout hown =>
    refine ⟨h.kept, h.owned, h.inj, h.waiting, h.alone, h.begun, fun p hmem => ?_⟩
    exact h.out p (by rw [hout]; exact List.mem_cons_of_mem _ hmem)
  | kill =>
    refine ⟨⟨h.kept.exact, h.kept.listening, fun hpc => absurd rfl hpc, fun hpc => by cases hpc⟩,
      h.owned, h.inj, h.waiting, h.alone, h.begun, h.out⟩
  | client c b x ev hx =>
    obtain ⟨hne, hfresh⟩ := hx.pc_ne
    have hold : ∀ d, (Function.update s.clients c x d).pc = .connect →
        d ≠ c ∧ (s.clients d).pc = .connect := by
      intro d hd
      by_cases hdc : d = c
      · subst hdc
        rw [Function.update_self] at hd
        exact absurd hd hne
      · rw [Function.update_of_ne hdc] at hd
        exact ⟨hdc, hd⟩
    refine ⟨h.kept, h.owned, h.inj, ?_, fun d hd => ?_, fun d hd => ?_, h.out⟩
    · simp only
      split
      · rename_i hb
        have hnot := (h.begun c (hfresh hb)).1
        exact List.Nodup.append h.waiting (List.nodup_singleton c)
          (List.disjoint_singleton.mpr hnot)
      · exact h.waiting
    · simp only at hd
      split at hd
      · rename_i hb
        rcases List.mem_append.mp hd with hd | hd
        · exact h.alone d hd
        · rw [List.mem_singleton.mp hd]
          exact (h.begun c (hfresh hb)).2
      · exact h.alone d hd
    · obtain ⟨hdc, hpc⟩ := hold d hd
      refine ⟨?_, (h.begun d hpc).2⟩
      simp only
      split
      · simpa [hdc] using (h.begun d hpc).1
      · exact (h.begun d hpc).1

/-! ## 3. The two streams of a connection -/

/-- What has been read of a connection, and what has still to be read, is what has been written. -/
structure Streams (log : List (ChatEvent κ)) (s : Session κ) (c : κ) : Prop where
  up : (saidOf c log).flatten = (heardOf c log).flatten ++ (s.clients c).toServer
  down : (toldOf c log).flatten = (gotOf c log).flatten ++ (s.clients c).toClient
  spoken : (s.clients c).pc ≠ .ended →
    (typedOf c log).map cstr = saidOf c log ++ (s.clients c).pc.pending
  started : saidOf c log <+: (typedOf c log).map cstr
  sizes : ∀ bs ∈ gotOf c log, bs ≠ [] ∧ bs.length < bufSize

/-- A step that changes neither stream. -/
theorem Streams.quiet {x' : ChatClient} {e : ChatEvent κ} (h : Streams log s c)
    (hx' : s'.clients c = x') (hup : x'.toServer = (s.clients c).toServer)
    (hdown : x'.toClient = (s.clients c).toClient)
    (hpc : x'.pc ≠ .ended → (s.clients c).pc ≠ .ended ∧
      x'.pc.pending = (s.clients c).pc.pending)
    (htyped : e.typedBy c = none) (hsaid : e.saidBy c = none) (hheard : e.heardBy c = none)
    (htold : e.toldTo c = none) (hgot : e.gotBy c = none) : Streams (log ++ [e]) s' c := by
  subst hx'
  refine ⟨?_, ?_, fun hne => ?_, ?_, ?_⟩
  · simpa [saidOf_snoc, heardOf_snoc, hsaid, hheard, hup] using h.up
  · simpa [toldOf_snoc, gotOf_snoc, htold, hgot, hdown] using h.down
  · obtain ⟨halive, hpending⟩ := hpc hne
    simpa [typedOf_snoc, saidOf_snoc, htyped, hsaid, hpending] using h.spoken halive
  · simpa [typedOf_snoc, saidOf_snoc, htyped, hsaid] using h.started
  · simpa [gotOf_snoc, hgot] using h.sizes

/-- Taking a chunk off a stream. -/
theorem flatten_concat_drop {α : Type*} {written : List α} {reads : List (List α)}
    {inFlight bs : List α} (h : written = reads.flatten ++ inFlight) (hbs : bs <+: inFlight) :
    written = (reads ++ [bs]).flatten ++ inFlight.drop bs.length := by
  obtain ⟨rest, rfl⟩ := hbs
  simp [h]

/-- What a client does to its own streams. -/
theorem Streams.own {b : ClientAction} {x : ChatClient} (h : Streams log s c)
    (hx : ClientMove s.stopped c (s.clients c) b x ev) (hx' : s'.clients c = x) :
    Streams (log ++ ev) s' c := by
  cases hx with
  | connect taken hpc htaken =>
    refine h.quiet hx' rfl rfl (fun _ => ⟨by simp [hpc], ?_⟩) rfl rfl rfl rfl rfl
    cases taken <;> simp [ClientPc.pending, hpc]
  | goes b pc hb hpc htext hfrom =>
    refine h.quiet hx' rfl rfl (fun hne => ?_) rfl rfl rfl rfl rfl
    obtain ⟨halive, hnone⟩ := hfrom.resolve_left hne
    exact ⟨halive, htext.trans hnone.symm⟩
  | got bs input hpc hne hbs hlen =>
    refine ⟨?_, ?_, fun _ => ?_, ?_, ?_⟩
    · simpa [hx', saidOf_snoc, heardOf_snoc, ChatEvent.saidBy, ChatEvent.heardBy] using h.up
    · simpa [hx', toldOf_snoc, gotOf_snoc, ChatEvent.toldTo, ChatEvent.gotBy]
        using flatten_concat_drop h.down hbs
    · have hs := h.spoken (by simp [hpc])
      cases input <;> simpa [hx', typedOf_snoc, saidOf_snoc, ChatEvent.typedBy,
        ChatEvent.saidBy, hpc, ClientPc.pending] using hs
    · simpa [typedOf_snoc, saidOf_snoc, ChatEvent.typedBy, ChatEvent.saidBy] using h.started
    · simp only [gotOf_snoc, ChatEvent.gotBy, if_true, Option.toList_some]
      intro r hr
      rcases List.mem_append.mp hr with hr | hr
      · exact h.sizes r hr
      · rw [List.mem_singleton.mp hr]
        exact ⟨hne, hlen⟩
  | typed line hpc =>
    have hs := h.spoken (by simp [hpc])
    have hsaid : (typedOf c (log ++ [.typed c line])).map cstr =
        saidOf c (log ++ [.typed c line]) ++ [cstr line] := by
      simpa [typedOf_snoc, saidOf_snoc, ChatEvent.typedBy, ChatEvent.saidBy, hpc,
        ClientPc.pending] using hs
    refine ⟨?_, ?_, fun _ => ?_, ?_, ?_⟩
    · simpa [hx', saidOf_snoc, heardOf_snoc, ChatEvent.saidBy, ChatEvent.heardBy] using h.up
    · simpa [hx', toldOf_snoc, gotOf_snoc, ChatEvent.toldTo, ChatEvent.gotBy] using h.down
    · rw [hsaid, hx']
      rfl
    · rw [hsaid]
      exact List.prefix_append _ _
    · simpa [gotOf_snoc, ChatEvent.gotBy] using h.sizes
  | said text hpc =>
    have hs := h.spoken (by simp [hpc])
    have hsaid : (typedOf c (log ++ [.said c text])).map cstr =
        saidOf c (log ++ [.said c text]) := by
      simpa [typedOf_snoc, saidOf_snoc, ChatEvent.typedBy, ChatEvent.saidBy, hpc,
        ClientPc.pending] using hs
    refine ⟨?_, ?_, fun _ => ?_, ?_, ?_⟩
    · simp [hx', saidOf_snoc, heardOf_snoc, ChatEvent.saidBy, ChatEvent.heardBy, h.up]
    · simpa [hx', toldOf_snoc, gotOf_snoc, ChatEvent.toldTo, ChatEvent.gotBy] using h.down
    · rw [hsaid, hx']
      simp [ClientPc.pending]
    · rw [hsaid]
    · simpa [gotOf_snoc, ChatEvent.gotBy] using h.sizes

/-- Each client goes on as it is, or it is the one that the step is about. -/
theorem Streams.step (h : ∀ c, Streams log s c) (hm : SessionMove s a s' ev) :
    ∀ c, Streams (log ++ ev) s' c := by
  intro c
  have hc := h c
  have hsame : ∀ {t : Session κ} {e : ChatEvent κ}, t.clients c = s.clients c →
      e.typedBy c = none → e.saidBy c = none → e.heardBy c = none → e.toldTo c = none →
      e.gotBy c = none → Streams (log ++ [e]) t c :=
    fun ht => hc.quiet ht rfl rfl fun hne => ⟨hne, rfl⟩
  cases hm with
  | quiet b hout hp hq hconn => exact hsame rfl rfl rfl rfl rfl rfl
  | joined d backlog fd hout hp hfd hback => exact hsame rfl rfl rfl rfl rfl rfl
  | left d hout hp hown => exact hsame rfl rfl rfl rfl rfl rfl
  | failed hout hp => exact hsame rfl rfl rfl rfl rfl rfl
  | lost fd msg out hout hown => exact hsame rfl rfl rfl rfl rfl rfl
  | kill => exact hsame rfl rfl rfl rfl rfl rfl
  | heard d bs hout hp hown hbs =>
    by_cases hd : d = c
    · subst hd
      refine ⟨?_, ?_, fun hne => ?_, ?_, ?_⟩
      · simpa [saidOf_snoc, heardOf_snoc, ChatEvent.saidBy, ChatEvent.heardBy]
          using flatten_concat_drop hc.up hbs
      · simpa [toldOf_snoc, gotOf_snoc, ChatEvent.toldTo, ChatEvent.gotBy] using hc.down
      · simpa [typedOf_snoc, saidOf_snoc, ChatEvent.typedBy, ChatEvent.saidBy]
          using hc.spoken (by simpa using hne)
      · simpa [typedOf_snoc, saidOf_snoc, ChatEvent.typedBy, ChatEvent.saidBy] using hc.started
      · simpa [gotOf_snoc, ChatEvent.gotBy] using hc.sizes
    · exact hsame (by simp [Ne.symm hd]) rfl rfl (by simp [ChatEvent.heardBy, hd]) rfl rfl
  | told d fd msg out hout hown =>
    by_cases hd : d = c
    · subst hd
      refine ⟨?_, ?_, fun hne => ?_, ?_, ?_⟩
      · simpa [saidOf_snoc, heardOf_snoc, ChatEvent.saidBy, ChatEvent.heardBy] using hc.up
      · simp [toldOf_snoc, gotOf_snoc, ChatEvent.toldTo, ChatEvent.gotBy, hc.down]
      · simpa [typedOf_snoc, saidOf_snoc, ChatEvent.typedBy, ChatEvent.saidBy]
          using hc.spoken (by simpa using hne)
      · simpa [typedOf_snoc, saidOf_snoc, ChatEvent.typedBy, ChatEvent.saidBy] using hc.started
      · simpa [gotOf_snoc, ChatEvent.gotBy] using hc.sizes
    · exact hsame (by simp [Ne.symm hd]) rfl rfl rfl (by simp [ChatEvent.toldTo, hd]) rfl
  | client d b x ev hx =>
    by_cases hd : d = c
    · subst hd
      exact hc.own hx (Function.update_self ..)
    · have hother : (Function.update s.clients d x) c = s.clients c :=
        Function.update_of_ne (Ne.symm hd) _ _
      cases hx with
      | connect _ _ _ | goes _ _ _ _ _ _ => exact hsame hother rfl rfl rfl rfl rfl
      | got bs input hpc hne hbs hlen =>
        exact hsame hother rfl rfl rfl rfl (by simp [ChatEvent.gotBy, hd])
      | typed line hpc => exact hsame hother (by simp [ChatEvent.typedBy, hd]) rfl rfl rfl rfl
      | said text hpc => exact hsame hother rfl (by simp [ChatEvent.saidBy, hd]) rfl rfl rfl

/-- No NUL is ever written to a connection by a client. -/
theorem Streams.clean (h : Streams log s c) : ∀ text ∈ saidOf c log, NulFree text := by
  intro text htext
  obtain ⟨line, -, rfl⟩ := List.mem_map.mp (h.started.subset htext)
  exact nulFree_cstr line

/-! ## 4. What is due has been told -/

/-- The texts that are due to a client are those that it has been told, and then those that are
still to be written to it. -/
structure Told (log : List (ChatEvent κ)) (s : Session κ) (c : κ) : Prop where
  there : present c log = true ↔ ∃ fd, s.owner fd = some c
  here : ∀ fd, s.owner fd = some c → toldOf c log ++ writtenTo fd s.out = dueTo c log
  away : (∀ fd, s.owner fd ≠ some c) → toldOf c log = dueTo c log
  clean : ∀ text ∈ dueTo c log, NulFree text

theorem present_snoc (c : κ) (log : List (ChatEvent κ)) (e : ChatEvent κ) :
    present c (log ++ [e]) = (due c (present c log, dueTo c log) e).1 := by
  rw [present, List.foldl_concat]
  rfl

theorem dueTo_snoc (c : κ) (log : List (ChatEvent κ)) (e : ChatEvent κ) :
    dueTo c (log ++ [e]) = (due c (present c log, dueTo c log) e).2 := by
  rw [dueTo, List.foldl_concat]
  rfl

theorem nulFree_clientPrefix (fd : Int) : NulFree (clientPrefix fd) :=
  .append (.append (.of_notMem (by decide)) (nulFree_decimal fd)) (.of_notMem (by decide))

/-- An event that is not about what is due, and a step that writes nothing to the client. -/
theorem Told.quiet {e : ChatEvent κ} (h : Told log s c) (howner : s'.owner = s.owner)
    (hout : ∀ fd, s.owner fd = some c → writtenTo fd s'.out = writtenTo fd s.out)
    (htold : e.toldTo c = none) (hdue : ∀ p, due c p e = p) : Told (log ++ [e]) s' c := by
  refine ⟨?_, fun fd hfd => ?_, fun hno => ?_, ?_⟩
  · rw [present_snoc, hdue, howner]
    exact h.there
  · rw [howner] at hfd
    rw [dueTo_snoc, hdue, hout fd hfd, toldOf_snoc, htold]
    simpa using h.here fd hfd
  · rw [howner] at hno
    rw [dueTo_snoc, hdue, toldOf_snoc, htold]
    simpa using h.away hno
  · rw [dueTo_snoc, hdue]
    exact h.clean

/-- When nothing is to be written, what is due has been told. -/
theorem Told.all (h : Told log s c) (hout : s.out = []) : toldOf c log = dueTo c log := by
  by_cases hown : ∃ fd, s.owner fd = some c
  · obtain ⟨fd, hfd⟩ := hown
    simpa [hout, writtenTo] using h.here fd hfd
  · exact h.away fun fd hfd => hown ⟨fd, hfd⟩

theorem Told.joined {d : κ} {backlog : List κ} {fd : Int} (h : Told log s c) (hl : Linked s)
    (hout : s.out = []) (hp : Possible s.server (.accept fd)) (hfd : fd ≠ -1) :
    Told (log ++ [.joined d fd]) { s.next (.accept fd) with
      backlog
      owner := Function.update s.owner fd (some d) } c := by
  have hfree := hl.fresh hp hfd
  have htold : toldOf c (log ++ [.joined d fd]) = dueTo c (log ++ [.joined d fd]) := by
    simpa [toldOf_snoc, dueTo_snoc, ChatEvent.toldTo, due, apply_ite] using h.all hout
  refine ⟨?_, fun e he => ?_, fun _ => htold, ?_⟩
  · by_cases hd : d = c
    · subst hd
      simp only [present_snoc, due, if_true, true_iff]
      exact ⟨fd, Function.update_self ..⟩
    · simp only [present_snoc, due, if_neg hd, h.there]
      refine ⟨fun ⟨e, he⟩ => ⟨e, ?_⟩, fun ⟨e, he⟩ => ⟨e, ?_⟩⟩
      · rw [Function.update_of_ne]
        · exact he
        · rintro rfl
          exact hfree c he
      · by_cases hefd : e = fd
        · subst hefd
          rw [Function.update_self] at he
          exact absurd (Option.some.inj he) hd
        · rwa [Function.update_of_ne hefd] at he
  · rw [← htold]
    simp [Session.next, selectStep, writtenTo]
  · simpa [dueTo_snoc, due, apply_ite] using h.clean

theorem Told.left {d : κ} (h : Told log s c) (hl : Linked s) (hout : s.out = [])
    (hown : s.owner s.server.i = some d) :
    Told (log ++ [.left d])
      { s.next (.read .eof) with owner := Function.update s.owner s.server.i none } c := by
  have htold : toldOf c (log ++ [.left d]) = dueTo c (log ++ [.left d]) := by
    simpa [toldOf_snoc, dueTo_snoc, ChatEvent.toldTo, due, apply_ite] using h.all hout
  refine ⟨?_, fun e he => ?_, fun _ => htold, ?_⟩
  · by_cases hd : d = c
    · subst hd
      simp only [present_snoc, due, if_true, Bool.false_eq_true, false_iff]
      rintro ⟨e, he⟩
      by_cases hei : e = s.server.i
      · subst hei
        simp at he
      · rw [Function.update_of_ne hei] at he
        exact hei (hl.inj he hown)
    · simp only [present_snoc, due, if_neg hd, h.there]
      refine ⟨fun ⟨e, he⟩ => ⟨e, ?_⟩, fun ⟨e, he⟩ => ⟨e, ?_⟩⟩
      · rw [Function.update_of_ne]
        · exact he
        · rintro rfl
          rw [hown] at he
          exact hd (Option.some.inj he)
      · by_cases hei : e = s.server.i
        · subst hei
          simp at he
        · rwa [Function.update_of_ne hei] at he
  · rw [← htold]
    simp [Session.next, selectStep, SelectServer.read, writtenTo]
  · simpa [dueTo_snoc, due, apply_ite] using h.clean

/-- A chunk is written to the clients that are there, but for the one it comes from. -/
theorem Told.heard {d : κ} {bs : Bytes} (h : Told log s c) (hl : Linked s) (hout : s.out = [])
    (hown : s.owner s.server.i = some d) (hbs : NulFree bs) {clients : κ → ChatClient} :
    Told (log ++ [.heard d s.server.i bs]) { s.next (.read (.data bs)) with clients } c := by
  have htext : toldOf c (log ++ [.heard d s.server.i bs]) = toldOf c log := by
    simp [toldOf_snoc, ChatEvent.toldTo]
  have hpresent : present c (log ++ [.heard d s.server.i bs]) = present c log := by
    simp only [present_snoc, due]
    split <;> rfl
  refine ⟨by rw [hpresent]; exact h.there, fun e he => ?_, fun hno => ?_, ?_⟩
  · replace he : s.owner e = some c := he
    have hthere : present c log = true := h.there.mpr ⟨e, he⟩
    have hconn : e ∈ s.server.connected := (hl.owned e).mpr ⟨c, he⟩
    have hsame : e ≠ s.server.i ↔ d ≠ c := by
      constructor
      · rintro hne rfl
        exact hne (hl.inj he hown)
      · rintro hne rfl
        rw [hown] at he
        exact hne (Option.some.inj he)
    have hwritten := writtenTo_read hl.kept.exact hl.kept.listening bs e
    rw [cstr_eq_self_iff.mpr fun h0 => hbs 0 h0 rfl] at hwritten
    rw [htext, h.all hout, dueTo_snoc]
    simp only [Session.next, hwritten, hconn, hsame, true_and, due, hthere, and_true]
    split <;> simp
  · have haway : present c log = false := by
      rw [Bool.eq_false_iff]
      intro hthere
      obtain ⟨e, he⟩ := h.there.mp hthere
      exact hno e he
    rw [htext, h.all hout, dueTo_snoc]
    simp [due, haway]
  · simp only [dueTo_snoc, due]
    intro text hmem
    split at hmem
    · rcases List.mem_append.mp hmem with hmem | hmem
      · exact h.clean text hmem
      · rw [List.mem_singleton.mp hmem]
        exact (nulFree_clientPrefix _).append hbs
    · exact h.clean text hmem

theorem Told.told {d : κ} {fd : Int} {msg : Bytes} {out : List (Int × Bytes)} (h : Told log s c)
    (hl : Linked s) (hout : s.out = (fd, msg) :: out) (hown : s.owner fd = some d)
    {clients : κ → ChatClient} : Told (log ++ [.told d msg]) { s with out, clients } c := by
  have hwritten : ∀ e, writtenTo e s.out = if fd = e then msg :: writtenTo e out
      else writtenTo e out := by
    intro e
    rw [hout, writtenTo, List.filter_cons]
    by_cases he : fd = e <;> simp [he, writtenTo]
  refine ⟨?_, fun e he => ?_, fun hno => ?_, ?_⟩
  · simpa only [present_snoc, due] using h.there
  · have hdue := h.here e he
    rw [hwritten] at hdue
    by_cases hd : d = c
    · subst hd
      rw [if_pos (hl.inj hown he)] at hdue
      simp [toldOf_snoc, ChatEvent.toldTo, dueTo_snoc, due, ← hdue]
    · have hne : fd ≠ e := by
        rintro rfl
        rw [hown] at he
        exact hd (Option.some.inj he)
      rw [if_neg hne] at hdue
      simpa [toldOf_snoc, ChatEvent.toldTo, hd, dueTo_snoc, due] using hdue
  · have hd : d ≠ c := by
      rintro rfl
      exact hno fd hown
    simpa [toldOf_snoc, ChatEvent.toldTo, hd, dueTo_snoc, due] using h.away hno
  · simpa only [dueTo_snoc, due] using h.clean

theorem Told.step (h : Told log s c) (hl : Linked s) (hst : ∀ c, Streams log s c)
    (hs : Smooth s a) (hm : SessionMove s a s' ev) : Told (log ++ ev) s' c := by
  cases hm with
  | quiet b hout hp hq hconn =>
    exact h.quiet rfl (fun fd _ => by simp [Session.next, hq, hout]) rfl fun _ => rfl
  | failed hout hp => exact hs.1.elim
  | lost fd msg out hout hown =>
    obtain ⟨d, hd⟩ := hl.out (fd, msg) (by rw [hout]; exact List.mem_cons_self)
    rw [hown] at hd
    cases hd
  | kill => exact h.quiet rfl (fun _ _ => rfl) rfl fun _ => rfl
  | joined d backlog fd hout hp hfd hback => exact h.joined hl hout hp hfd
  | left d hout hp hown => exact h.left hl hout hown
  | heard d bs hout hp hown hbs =>
    refine h.heard hl hout hown fun b hb => ?_
    -- the chunk is part of what its sender has written
    have hmem : b ∈ (saidOf d log).flatten := by
      rw [(hst d).up]
      exact List.mem_append_right _ (hbs.subset hb)
    obtain ⟨text, htext, hb'⟩ := List.mem_flatten.mp hmem
    exact (hst d).clean text htext b hb'
  | told d fd msg out hout hown => exact h.told hl hout hown
  | client d b x ev hx =>
    have hnone : ∀ {log : List (ChatEvent κ)} {e : ChatEvent κ}, Told log s c →
        e.toldTo c = none → (∀ p, due c p e = p) → Told (log ++ [e]) { s with
          clients := Function.update s.clients d x
          backlog := if b = .connect true then s.backlog ++ [d] else s.backlog } c :=
      fun ht => ht.quiet rfl fun _ _ => rfl
    cases hx with
    | connect taken hpc htaken => exact hnone h rfl fun _ => rfl
    | goes b pc hb hpc htext hfrom => exact hnone h rfl fun _ => rfl
    | got bs input hpc hne hbs hlen => exact hnone h rfl fun _ => rfl
    | typed line hpc => exact hnone h rfl fun _ => rfl
    | said text hpc => exact hnone h rfl fun _ => rfl

/-! ## 5. Along the runs -/

variable {inherited : Finset Int} {servSock : Int} {buf : Bytes}

theorem linked_of_runs (h : Runs sessionStep Smooth (.init inherited servSock buf) log s)
    (hlow : LowestFree inherited servSock) (hfit : servSock < fdSetSize) : Linked s := by
  refine h.invariant (I := fun _ s => Linked s) (linked_init buf hlow hfit) ?_
  intro log s a s' ev _ ih hs hstep
  exact ih.step hs (sessionStep_move hstep)

theorem streams_of_runs (h : Runs sessionStep Smooth (.init inherited servSock buf) log s)
    (c : κ) : Streams log s c := by
  refine h.invariant (I := fun log s => ∀ c, Streams log s c) (fun c => ?_) ?_ c
  · exact ⟨rfl, rfl, fun _ => rfl, List.nil_prefix, fun _ h => (by cases h)⟩
  · intro log s a s' ev _ ih _ hstep
    exact Streams.step ih (sessionStep_move hstep)

theorem told_of_runs (h : Runs sessionStep Smooth (.init inherited servSock buf) log s)
    (hlow : LowestFree inherited servSock) (hfit : servSock < fdSetSize) (c : κ) :
    Told log s c := by
  refine h.invariant (I := fun log s => Told log s c) ?_ ?_
  · exact ⟨by simp [present, Session.init], fun _ h => (by cases h), fun _ => rfl,
      fun _ h => (by cases h)⟩
  · intro log s a s' ev hrun ih hs hstep
    exact ih.step (linked_of_runs hrun hlow hfit) (streams_of_runs hrun) hs (sessionStep_move hstep)

end

/-- The server takes two connections, and reads what the first one says in two pieces. -/
def serverTakes : List SelectAction :=
  [.select (some {3}), .skip, .skip, .skip, .accept 4, .skip, .skip,
    .select (some {3}), .skip, .skip, .skip, .accept 5, .skip, .skip, .skip]

def serverReads (bs : Bytes) : List SelectAction :=
  [.select (some {4}), .skip, .skip, .skip, .skip, .read (.data bs)]

/-- Two clients come, the first one says something, and the other one reads it. -/
def twoTalk : List (SessionAction Bool) := List.flatten
  [[.client true (.connect true), .client false (.connect true)],
    serverTakes.map .server,
    [.client true (.select false true), .client true (.fgets (some (utf8 "hi\n"))),
      .client true .write],
    (serverReads (utf8 "h")).map .server,
    [.write, .server .skip, .server .skip],
    (serverReads (utf8 "i\n")).map .server,
    [.client false (.select true false), .client false (.read (utf8 "[Client 4]: h")), .write,
      .client false (.select true false), .client false (.read (utf8 "[Client 4]: i\n"))]]

end PosixLab.Select
