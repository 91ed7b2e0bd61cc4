/-
# Calls that fail

`producer` and `consumer` call `insert_item` and `remove_item` in a loop, and do not look at what
these return.  Each of the library calls inside may fail.

A call that fails before the buffer is touched makes the operation return with nothing done, but
`pthread_cond_signal` and the last `pthread_mutex_unlock` come behind: when one of these fails, the
operation reports a failure and the item is in the buffer, or out of it.  And a consumer goes on
with its variable `item` in any case, which an operation that failed early has not set.

`failed_calls_harmless` says that these are the only ways to go wrong.
-/
import PosixLab.Monitor.Wakeups

namespace PosixLab.Monitor

open PosixLab

variable {τ : Type*} [DecidableEq τ]

/-! ## 1. The loops -/

/-- The buffer and its calls, the variable `item` of each consumer, `none` until it is set, and the
consumers that are back from `remove_item`. -/
structure LoopSys (τ : Type*) where
  sys : BufferSys τ
  item : τ → Option Int
  consuming : τ → Bool

/-- All threads before their first round, with any buffer. -/
def LoopSys.start (bb : BufferT) : LoopSys τ :=
  ⟨⟨bb, none, fun _ => none⟩, fun _ => none, fun _ => false⟩

/-- A step of an operation, or a call of `consume_item`. -/
inductive LoopAction (τ : Type*)
  | buffer (a : BufferAction τ)
  | consume (t : τ)

/-- What an operation does, and a value that is consumed; `none` is whatever the variable holds
before it is set. -/
inductive LoopEvent (τ : Type*)
  | buffer (e : BufferEvent τ)
  | consume (t : τ) (item : Option Int)
deriving DecidableEq

/-- A thread calls the operation of its role, a consumer when it has consumed what it had. -/
def LoopSys.mayCall (role : τ → Role) (s : LoopSys τ) : BufferAction τ → Bool
  | .call t op => op.role = role t && !s.consuming t
  | _ => true

/-- `*item = ..`, and the way back into the loop of a consumer. -/
def LoopSys.note (s : LoopSys τ) : BufferEvent τ → LoopSys τ
  | .remove t item => { s with item := Function.update s.item t (some item) }
  | .ret t .remove _ => { s with consuming := Function.update s.consuming t true }
  | _ => s

/-- One step. -/
def loopStep (role : τ → Role) (s : LoopSys τ) :
    LoopAction τ → Option (LoopSys τ × List (LoopEvent τ))
  | .buffer a =>
    if s.mayCall role a = true then
      (bufferStep s.sys a).map fun r =>
        (r.2.foldl LoopSys.note { s with sys := r.1 }, r.2.map .buffer)
    else none
  | .consume t =>
    if s.consuming t = true then
      some ({ s with consuming := Function.update s.consuming t false },
        [.consume t (s.item t)])
    else none

/-! ## 2. What a failure may do -/

/-- What a log says of one thread: what its latest operation has put in or taken out so far, and
the item of its latest `remove_item` that returned 0. -/
structure Record where
  moved : Option Int
  obtained : Option Int
deriving DecidableEq

def Record.add (t : τ) (r : Record) : LoopEvent τ → Record
  | .buffer (.call u _) => if u = t then { r with moved := none } else r
  | .buffer (.insert u item) | .buffer (.remove u item) =>
    if u = t then { r with moved := some item } else r
  | .buffer (.ret u op status) =>
    if u = t ∧ op = .remove ∧ status = 0 then { r with obtained := r.moved } else r
  | .consume _ _ => r

def record (t : τ) (log : List (LoopEvent τ)) : Record :=
  log.foldl (Record.add t) ⟨none, none⟩

/-- An operation that fails has moved nothing, and what is consumed is the item of the latest
`remove_item` of the thread that returned 0. -/
def Harmless : LoopEvent τ → List (LoopEvent τ) → Prop
  | .buffer (.ret t _ status), log => status ≠ 0 → (record t log).moved = none
  | .consume t item, log => item ≠ none ∧ item = (record t log).obtained
  | _, _ => True

/-- The thread is in `remove_item`, and has not obtained anything so far. -/
def LoopSys.emptyHanded (s : LoopSys τ) (t : τ) : Bool :=
  (s.sys.frames t).any (·.op == .remove) && s.item t == none

/-- No library call fails behind the update, and a consumer obtains an item before one of its
calls fails. -/
def FailsEarly (s : LoopSys τ) : LoopAction τ → Prop
  | .buffer (.signal _ status _) => status = 0
  | .buffer (.unlock t status) =>
    (s.sys.frames t).any (fun f => f.pc == .unlock) = true → status = 0
  | .buffer (.lock t status) | .buffer (.wait t status) | .buffer (.resume t status) =>
    s.emptyHanded t = true → status = 0
  | _ => True

/-! ## 3. What the threads keep -/

/-- Between the update and the return, with no failure so far. -/
def BufferPc.late : BufferPc → Bool
  | .signal | .unlock => true
  | _ => false

/-- What a thread knows where its frame stands. -/
def FrameOk (r : Record) (item : Option Int) : Option BufferFrame → Prop
  | none => item = r.obtained
  | some f =>
    if f.pc.late = true then r.moved ≠ none ∧ item = if f.op = .remove then r.moved else r.obtained
    else r.moved = none ∧ item = r.obtained ∧ (f.pc = .bail → f.status ≠ 0) ∧
      (f.op = .remove → f.status ≠ 0 → item ≠ none)

/-- What the threads keep as long as calls fail early only. -/
structure Kept (log : List (LoopEvent τ)) (s : LoopSys τ) : Prop where
  guarded : Guarded Harmless log
  frame : ∀ t, FrameOk (record t log) (s.item t) (s.sys.frames t)
  consuming : ∀ t, s.consuming t = true → s.item t ≠ none ∧ s.sys.frames t = none

def BufferEvent.thread : BufferEvent τ → τ
  | .call t _ | .insert t _ | .remove t _ | .ret t _ _ => t

section

variable {log : List (LoopEvent τ)} {s : LoopSys τ} {t u : τ} {e : BufferEvent τ}
  {f : Option BufferFrame}

theorem frameOk_early {r : Record} {item : Option Int} {pc : BufferPc} {op : BufferOp} {st : Int}
    (hpc : pc.late = false) :
    FrameOk r item (some ⟨pc, op, st⟩) ↔
      r.moved = none ∧ item = r.obtained ∧ (pc = .bail → st ≠ 0) ∧
        (op = .remove → st ≠ 0 → item ≠ none) := by
  simp [FrameOk, hpc]

theorem frameOk_late {r : Record} {item : Option Int} {pc : BufferPc} {op : BufferOp} {st : Int}
    (hpc : pc.late = true) :
    FrameOk r item (some ⟨pc, op, st⟩) ↔
      r.moved ≠ none ∧ item = if op = .remove then r.moved else r.obtained := by
  simp [FrameOk, hpc]

/-- Before the update, with no call that has failed. -/
theorem FrameOk.go {r : Record} {item : Option Int} {pc pc' : BufferPc} {op : BufferOp} {st : Int}
    (h : FrameOk r item (some ⟨pc, op, st⟩)) (hpc : pc.late = false) (hpc' : pc'.late = false)
    (hbail : pc' ≠ .bail) : FrameOk r item (some ⟨pc', op, 0⟩) := by
  obtain ⟨hmoved, hitem, -, -⟩ := (frameOk_early hpc).mp h
  exact (frameOk_early hpc').mpr ⟨hmoved, hitem, fun h => absurd h hbail, fun _ h => absurd rfl h⟩

/-- Before the update, with a call that has failed. -/
theorem FrameOk.fail {r : Record} {item : Option Int} {pc pc' : BufferPc} {op : BufferOp}
    {st status : Int} (h : FrameOk r item (some ⟨pc, op, st⟩)) (hpc : pc.late = false)
    (hpc' : pc'.late = false) (hst : status ≠ 0) (hitem : op = .remove → item ≠ none) :
    FrameOk r item (some ⟨pc', op, status⟩) := by
  obtain ⟨hmoved, hobtained, -, -⟩ := (frameOk_early hpc).mp h
  exact (frameOk_early hpc').mpr ⟨hmoved, hobtained, fun _ => hst, fun hop _ => hitem hop⟩

@[simp] theorem LoopSys.note_sys : (s.note e).sys = s.sys := by
  unfold LoopSys.note
  split <;> rfl

/-- An event concerns its own thread only. -/
theorem LoopSys.note_of_ne (h : u ≠ e.thread) :
    (s.note e).item u = s.item u ∧ (s.note e).consuming u = s.consuming u := by
  cases e with
  | remove t item => exact ⟨Function.update_of_ne h _ _, rfl⟩
  | ret t op status =>
    cases op with
    | remove => exact ⟨rfl, Function.update_of_ne h _ _⟩
    | insert item => exact ⟨rfl, rfl⟩
  | call t op | insert t item => exact ⟨rfl, rfl⟩

theorem record_concat (x : LoopEvent τ) : record t (log ++ [x]) = (record t log).add t x := by
  simp [record]

theorem Record.add_of_ne (h : u ≠ e.thread) (r : Record) : r.add u (.buffer e) = r := by
  cases e with
  | call t op | insert t item | remove t item | ret t op status =>
    have htu : t ≠ u := Ne.symm h
    simp [Record.add, htu]

theorem kept_start (bb : BufferT) : Kept [] (.start bb : LoopSys τ) := by
  refine ⟨guarded_nil, fun t => ?_, fun t h => ?_⟩
  · rfl
  · cases h

/-- A thread goes on and nothing is to be seen. -/
theorem Kept.quiet (h : Kept log s) {sys₁ : BufferSys τ} (hframes : sys₁.frames = s.sys.frames)
    (hf : FrameOk (record t log) (s.item t) f) (hc : s.consuming t = true → f = none) :
    Kept log { s with sys := sys₁.set t f } := by
  refine ⟨h.guarded, fun u => ?_, fun u hu => ?_⟩
  · by_cases hut : u = t
    · subst hut
      simpa using hf
    · rw [BufferSys.frames_set_of_ne hut, hframes]
      exact h.frame u
  · by_cases hut : u = t
    · subst hut
      exact ⟨(h.consuming u hu).1, by simpa using hc hu⟩
    · rw [BufferSys.frames_set_of_ne hut, hframes]
      exact h.consuming u hu

/-- A thread goes on with an event. -/
theorem Kept.emit (h : Kept log s) {sys₁ : BufferSys τ} (hframes : sys₁.frames = s.sys.frames)
    (hharm : Harmless (.buffer e) log)
    (hf : FrameOk ((record e.thread log).add e.thread (.buffer e)) ((s.note e).item e.thread) f)
    (hc : (s.note e).consuming e.thread = true → (s.note e).item e.thread ≠ none ∧ f = none) :
    Kept (log ++ [.buffer e])
      (LoopSys.note { s with sys := sys₁.set e.thread f } e) := by
  have hitem : (LoopSys.note { s with sys := sys₁.set e.thread f } e).item = (s.note e).item := by
    unfold LoopSys.note
    split <;> rfl
  have hcons :
      (LoopSys.note { s with sys := sys₁.set e.thread f } e).consuming = (s.note e).consuming := by
    unfold LoopSys.note
    split <;> rfl
  refine ⟨h.guarded.concat hharm, fun u => ?_, fun u hu => ?_⟩
  · rw [record_concat, hitem, LoopSys.note_sys]
    by_cases hut : u = e.thread
    · subst hut
      simpa using hf
    · rw [Record.add_of_ne hut, (LoopSys.note_of_ne hut).1]
      show FrameOk _ _ ((sys₁.set e.thread f).frames u)
      rw [BufferSys.frames_set_of_ne hut, hframes]
      exact h.frame u
  · rw [hcons] at hu
    rw [hitem, LoopSys.note_sys]
    by_cases hut : u = e.thread
    · subst hut
      simpa using hc hu
    · rw [(LoopSys.note_of_ne hut).1]
      rw [(LoopSys.note_of_ne hut).2] at hu
      show _ ∧ (sys₁.set e.thread f).frames u = none
      rw [BufferSys.frames_set_of_ne hut, hframes]
      exact h.consuming u hu

/-- An operation returns. -/
theorem Kept.ret (h : Kept log s) (sys₁ : BufferSys τ) (hframes : sys₁.frames = s.sys.frames)
    {op : BufferOp} {status : Int} (hharm : status ≠ 0 → (record t log).moved = none)
    (hitem : s.item t =
      if op = .remove ∧ status = 0 then (record t log).moved else (record t log).obtained)
    (hset : op = .remove → s.item t ≠ none) (hcons : s.consuming t ≠ true) :
    Kept (log ++ [.buffer (.ret t op status)])
      (LoopSys.note { s with sys := sys₁.set t none } (.ret t op status)) := by
  have hnote : (s.note (.ret t op status)).item = s.item := by
    cases op <;> rfl
  refine h.emit (e := .ret t op status) hframes hharm ?_ fun hc => ⟨?_, rfl⟩
  · rw [hnote]
    show s.item t = _
    rw [hitem]
    by_cases hop : op = .remove ∧ status = 0
    · simp [Record.add, BufferEvent.thread, hop]
    · simp only [Record.add, BufferEvent.thread, true_and, if_neg hop]
  · rw [hnote]
    cases op with
    | remove => exact hset rfl
    | insert item => exact absurd hc hcons

/-- A thread that is woken knows what it knew before. -/
theorem Kept.wakeUp (h : Kept log s) {c : Cond} {woken : Option τ} {sys₁ : BufferSys τ}
    (hw : s.sys.wakeUp c woken = some sys₁) : Kept log { s with sys := sys₁ } := by
  rcases BufferSys.wakeUp_cases hw with rfl | ⟨u, f, hu, hpc, -, rfl⟩
  · exact h
  · obtain ⟨pc, op, st⟩ := f
    obtain rfl : pc = .blocked false := hpc
    have hold := h.frame u
    rw [hu, frameOk_early rfl] at hold
    refine h.quiet rfl ((frameOk_early rfl).mpr ⟨hold.1, hold.2.1, ?_, hold.2.2.2⟩) fun hc => ?_
    · intro hbail
      cases hbail
    · have hnone := (h.consuming u hc).2
      rw [hu] at hnone
      cases hnone

variable {a : BufferAction τ} {s' : BufferSys τ} {ev : List (BufferEvent τ)} {role : τ → Role}

/-- A step of an operation that does not fail late. -/
theorem Kept.buffer (h : Kept log s) (hcall : s.mayCall role a = true)
    (hok : FailsEarly s (.buffer a)) (hm : BufferMove s.sys a s' ev) :
    Kept (log ++ ev.map .buffer) (ev.foldl LoopSys.note { s with sys := s' }) := by
  have hframe : ∀ {t f}, s.sys.frames t = some f →
      FrameOk (record t log) (s.item t) (some f) := fun hf => hf ▸ h.frame _
  have hcons : ∀ {t f}, s.sys.frames t = some f → s.consuming t ≠ true := by
    intro t f hf hc
    have hnone := (h.consuming t hc).2
    rw [hf] at hnone
    cases hnone
  have hquiet : ∀ {t f g} {sys₁ : BufferSys τ}, sys₁.frames = s.sys.frames →
      s.sys.frames t = some f → FrameOk (record t log) (s.item t) g →
      Kept (log ++ []) { s with sys := sys₁.set t g } := by
    intro t f g sys₁ hframes hf hg
    rw [List.append_nil]
    exact h.quiet hframes hg fun hc => absurd hc (hcons hf)
  -- a call that fails before the update finds the variable set
  have hset : ∀ {t f} {status : Int}, s.sys.frames t = some f → status ≠ 0 →
      (s.emptyHanded t = true → status = 0) → f.op = .remove → s.item t ≠ none := by
    intro t f status hf hst hok hop hnone
    exact hst (hok (by simp [LoopSys.emptyHanded, hf, hop, hnone]))
  cases hm with
  | call t op hf =>
    have hnot : s.consuming t = false := by
      simp only [LoopSys.mayCall, Bool.and_eq_true, Bool.not_eq_true'] at hcall
      exact hcall.2
    have hitem : s.item t = (record t log).obtained := by
      have hold := h.frame t
      rwa [hf] at hold
    refine h.emit (e := .call t op) rfl trivial ((frameOk_early rfl).mpr ⟨?_, ?_, ?_, ?_⟩) ?_
    · simp [Record.add, BufferEvent.thread]
    · simpa [Record.add, BufferEvent.thread, LoopSys.note] using hitem
    · intro hbail
      cases hbail
    · exact fun _ hst => absurd rfl hst
    · intro hc
      exact absurd hc (by simp [LoopSys.note, BufferEvent.thread, hnot])
  | lock t op st hf hfree => exact hquiet rfl hf ((hframe hf).go rfl rfl (by decide))
  | lockFails t op st status hf hst =>
    obtain ⟨hmoved, hitem, -, -⟩ := (frameOk_early rfl).mp (hframe hf)
    have hearly : s.emptyHanded t = true → status = 0 := hok
    refine h.ret s.sys rfl (fun _ => hmoved) ?_ (hset hf hst hearly) (hcons hf)
    rw [if_neg fun hop => hst hop.2, hitem]
  | testWait t op hf hwait => exact hquiet rfl hf ((hframe hf).go rfl rfl (by decide))
  | testFails t op status hf hst =>
    have hitem := ((frameOk_early rfl).mp (hframe hf)).2.2.2
    exact hquiet rfl hf ((hframe hf).fail rfl rfl hst fun hop => hitem hop hst)
  | testGo t op hf hgo => exact hquiet rfl hf ((hframe hf).go rfl rfl (by decide))
  | wait t op st hf => exact hquiet rfl hf ((hframe hf).go rfl rfl (by decide))
  | waitFails t op st status hf hst =>
    have hearly : s.emptyHanded t = true → status = 0 := hok
    exact hquiet rfl hf ((hframe hf).fail rfl rfl hst (hset hf hst hearly))
  | wake t op st hf =>
    have hold := (frameOk_early rfl).mp (hframe hf)
    refine hquiet rfl hf ((frameOk_early rfl).mpr ⟨hold.1, hold.2.1, ?_, hold.2.2.2⟩)
    intro hbail
    cases hbail
  | resume t op st status hf hfree =>
    by_cases hst : status = 0
    · subst hst
      exact hquiet rfl hf ((hframe hf).go rfl rfl (by decide))
    · have hearly : s.emptyHanded t = true → status = 0 := hok
      exact hquiet rfl hf ((hframe hf).fail rfl rfl hst (hset hf hst hearly))
  | update t op st hf =>
    obtain ⟨-, hitem, -, -⟩ := (frameOk_early rfl).mp (hframe hf)
    cases op with
    | insert item =>
      refine h.emit (e := .insert t item) rfl trivial ((frameOk_late rfl).mpr ⟨?_, ?_⟩) fun hc => ?_
      · simp [Record.add, BufferEvent.thread]
      · simpa [Record.add, BufferEvent.thread, LoopSys.note] using hitem
      · exact absurd hc (hcons hf)
    | remove =>
      refine h.emit (e := .remove t s.sys.bb.remove.2) rfl trivial
        ((frameOk_late rfl).mpr ⟨?_, ?_⟩) fun hc => ?_
      · simp [Record.add, BufferEvent.thread]
      · simp [Record.add, BufferEvent.thread, LoopSys.note]
      · exact absurd hc (hcons hf)
  | signal t op st woken s₁ hf hw =>
    have hold := (frameOk_late rfl).mp (hframe hf)
    rw [List.map_nil, List.append_nil]
    exact (h.wakeUp hw).quiet rfl ((frameOk_late rfl).mpr hold) fun hc => absurd hc (hcons hf)
  | signalFails t op st status woken hf hst => exact absurd hok hst
  | unlock t op st status hf =>
    obtain rfl : status = 0 := by
      have hlate : (s.sys.frames t).any (fun f => f.pc == .unlock) = true → status = 0 := hok
      exact hlate (by simp [hf])
    obtain ⟨hmoved, hitem⟩ := (frameOk_late rfl).mp (hframe hf)
    refine h.ret { s.sys with owner := none } rfl (fun hst => absurd rfl hst)
      (by simpa using hitem) (fun hop => ?_) (hcons hf)
    rw [hitem, if_pos hop]
    exact hmoved
  | bail t op st status hf =>
    obtain ⟨hmoved, hitem, hst, hset⟩ := (frameOk_early rfl).mp (hframe hf)
    refine h.ret { s.sys with owner := if status = 0 then none else s.sys.owner } rfl
      (fun _ => hmoved) ?_ (fun hop => hset hop (hst rfl)) (hcons hf)
    rw [if_neg fun hop => hst rfl hop.2, hitem]

/-- The consumer consumes what its last `remove_item` has obtained. -/
theorem Kept.consume (h : Kept log s) (ht : s.consuming t = true) :
    Kept (log ++ [.consume t (s.item t)])
      { s with consuming := Function.update s.consuming t false } := by
  obtain ⟨hitem, hnone⟩ := h.consuming t ht
  have hobtained : s.item t = (record t log).obtained := by
    have hframe := h.frame t
    rwa [hnone] at hframe
  refine ⟨h.guarded.concat ⟨hitem, hobtained⟩, fun u => ?_, fun u hu => ?_⟩
  · rw [record_concat]
    exact h.frame u
  · by_cases hut : u = t
    · subst hut
      simp at hu
    · exact h.consuming u (by simpa [hut] using hu)

/-- A step is one of an operation, or a `consume_item`. -/
theorem loopStep_cases {b : LoopAction τ} {s₁ : LoopSys τ} {ev₁ : List (LoopEvent τ)}
    (h : loopStep role s b = some (s₁, ev₁)) :
    (∃ a s' ev, b = .buffer a ∧ s.mayCall role a = true ∧ bufferStep s.sys a = some (s', ev) ∧
      s₁ = ev.foldl LoopSys.note { s with sys := s' } ∧ ev₁ = ev.map .buffer) ∨
    (∃ t, b = .consume t ∧ s.consuming t = true ∧
      s₁ = { s with consuming := Function.update s.consuming t false } ∧
      ev₁ = [.consume t (s.item t)]) := by
  cases b with
  | buffer a =>
    simp only [loopStep] at h
    split at h
    · rename_i hcall
      obtain ⟨⟨s', ev⟩, hs, h⟩ := Option.map_eq_some_iff.mp h
      cases h
      exact .inl ⟨a, s', ev, rfl, hcall, hs, rfl, rfl⟩
    · cases h
  | consume t =>
    simp only [loopStep] at h
    split at h
    · rename_i ht
      cases h
      exact .inr ⟨t, rfl, ht, rfl, rfl⟩
    · cases h

theorem kept_of_runs {bb : BufferT} (h : Runs (loopStep role) FailsEarly (.start bb) log s) :
    Kept log s := by
  refine h.invariant (I := Kept) (kept_start bb) ?_
  intro log s b s₁ ev₁ _ ih hok hs
  rcases loopStep_cases hs with ⟨a, s', ev, rfl, hcall, hstep, rfl, rfl⟩ | ⟨t, rfl, ht, rfl, rfl⟩
  · exact ih.buffer hcall hok (bufferStep_move hstep)
  · exact ih.consume ht

/-! ## 4. The other failures -/

/-- A consumer that is back consumes what its variable holds. -/
theorem runs_consume (role : τ → Role) (ht : s.consuming t = true) :
    ∃ s', Runs (loopStep role) FailsEarly s [.consume t (s.item t)] s' := by
  have hok : FailsEarly s (.consume t) := trivial
  exact ⟨_, .one hok (if_pos ht)⟩

/-- An operation that has failed returns. -/
theorem runs_bail (role : τ → Role) {op : BufferOp} {st : Int}
    (hf : s.sys.frames t = some ⟨.bail, op, st⟩) :
    ∃ s', Runs (loopStep role) FailsEarly s [.buffer (.ret t op st)] s' ∧ s'.item = s.item ∧
      (op = .remove → s'.consuming t = true) := by
  have hok : FailsEarly s (.buffer (.unlock t 0)) := by
    intro hpc
    simp [hf] at hpc
  have hstep : loopStep role s (.buffer (.unlock t 0)) =
      some (LoopSys.note { s with sys := { s.sys with owner := none }.set t none } (.ret t op st),
        [.buffer (.ret t op st)]) := by
    simp [loopStep, LoopSys.mayCall, bufferStep, hf]
  refine ⟨_, .one hok hstep, ?_, fun hop => ?_⟩
  · cases op <;> rfl
  · subst hop
    simp [LoopSys.note]

/-- A value that was not obtained is consumed. -/
theorem not_guarded_consume (t : τ) (pre : List (LoopEvent τ)) :
    ¬Guarded Harmless (pre ++ [LoopEvent.consume t none]) :=
  fun hguard => (hguard pre _ [] rfl).1 rfl

/-- A `remove_item` fails early, before anything was obtained. -/
theorem runs_test (role : τ → Role) {st : Int} (hst : st ≠ 0)
    (hf : s.sys.frames t = some ⟨.test, .remove, st⟩) (hitem : s.item t = none) :
    ∃ log' s', Runs (loopStep role) FailsEarly s log' s' ∧ ¬Guarded Harmless (log ++ log') := by
  have hstep : loopStep role s (.buffer (.test t)) =
      some ({ s with sys := s.sys.set t (some ⟨.bail, .remove, st⟩) }, []) := by
    simp [loopStep, LoopSys.mayCall, bufferStep, hf, hst]
  have hok : FailsEarly s (.buffer (.test t)) := trivial
  have hone : Runs (loopStep role) FailsEarly s []
      { s with sys := s.sys.set t (some ⟨.bail, .remove, st⟩) } := .one hok hstep
  obtain ⟨s₁, hbail, hkept, hcons⟩ := runs_bail (s := { s with
    sys := s.sys.set t (some ⟨.bail, .remove, st⟩) }) role BufferSys.frames_set_self
  obtain ⟨s₂, hconsume⟩ := runs_consume role (hcons rfl)
  rw [hkept, show LoopSys.item _ t = none from hitem] at hconsume
  refine ⟨_, s₂, (hone.trans hbail).trans hconsume, ?_⟩
  rw [← List.append_assoc]
  exact not_guarded_consume t _

omit [DecidableEq τ] in
/-- The consumer of an early failure in its first `remove_item`. -/
theorem LoopSys.emptyHanded_cases (h : s.emptyHanded t = true) :
    s.item t = none ∧ ∀ pc op st, s.sys.frames t = some ⟨pc, op, st⟩ → op = .remove := by
  simp only [LoopSys.emptyHanded, Bool.and_eq_true, beq_iff_eq] at h
  refine ⟨h.2, fun pc op st hf => ?_⟩
  simpa [hf] using h.1

/-- A failure that is not early is followed by a wrong return, or by a value that was not
obtained. -/
theorem Kept.notEarly (h : Kept log s) {b : LoopAction τ} {s₁ : LoopSys τ}
    {ev₁ : List (LoopEvent τ)} (hs : loopStep role s b = some (s₁, ev₁)) (hbad : ¬FailsEarly s b) :
    ∃ log' s₂, Runs (loopStep role) FailsEarly s₁ log' s₂ ∧
      ¬Guarded Harmless (log ++ ev₁ ++ log') := by
  rcases loopStep_cases hs with ⟨a, s', ev, rfl, hcall, hstep, rfl, rfl⟩ | ⟨t, rfl, ht, rfl, rfl⟩
  · have hm := bufferStep_move hstep
    cases hm with
    | signalFails t op st status woken hf hst =>
      obtain ⟨hmoved, -⟩ := (frameOk_late rfl).mp (hf ▸ h.frame t)
      obtain ⟨s₂, hbail, -, -⟩ := runs_bail (s := { s with
        sys := s.sys.set t (some ⟨.bail, op, status⟩) }) role BufferSys.frames_set_self
      refine ⟨_, s₂, hbail, fun hguard => ?_⟩
      have hharm : Harmless (.buffer (.ret t op status)) log := hguard log _ [] (by simp)
      exact hmoved (hharm hst)
    | unlock t op st status hf =>
      obtain ⟨hmoved, -⟩ := (frameOk_late rfl).mp (hf ▸ h.frame t)
      have hst : status ≠ 0 := fun hst => hbad fun _ => hst
      refine ⟨[], _, .nil, fun hguard => ?_⟩
      have hharm : Harmless (.buffer (.ret t op status)) log := hguard log _ [] (by simp)
      exact hmoved (hharm hst)
    | bail t op st status hf => exact absurd (fun hpc => by simp [hf] at hpc) hbad
    | lockFails t op st status hf hst =>
      obtain ⟨hempty, -⟩ := Classical.not_imp.mp hbad
      obtain ⟨hitem, hop⟩ := LoopSys.emptyHanded_cases hempty
      obtain rfl := hop _ _ _ hf
      obtain ⟨s₂, hconsume⟩ := runs_consume (t := t) (s := LoopSys.note { s with
        sys := s.sys.set t none } (.ret t .remove status)) role (by simp [LoopSys.note])
      refine ⟨_, s₂, hconsume, ?_⟩
      rw [show (LoopSys.note { s with sys := s.sys.set t none } (.ret t .remove status)).item t =
        none from hitem]
      exact not_guarded_consume t _
    | waitFails t op st status hf hst =>
      obtain ⟨hempty, -⟩ := Classical.not_imp.mp hbad
      obtain ⟨hitem, hop⟩ := LoopSys.emptyHanded_cases hempty
      obtain rfl := hop _ _ _ hf
      rw [List.map_nil, List.append_nil]
      exact runs_test role hst BufferSys.frames_set_self hitem
    | resume t op st status hf hfree =>
      obtain ⟨hempty, hst⟩ := Classical.not_imp.mp hbad
      obtain ⟨hitem, hop⟩ := LoopSys.emptyHanded_cases hempty
      obtain rfl := hop _ _ _ hf
      rw [List.map_nil, List.append_nil]
      exact runs_test role hst BufferSys.frames_set_self hitem
    | call t op hf | testWait t op hf hwait | testFails t op status hf hst | testGo t op hf hgo
    | wake t op st hf | update t op st hf => exact absurd trivial hbad
    | lock t op st hf hfree | wait t op st hf => exact absurd (fun _ => rfl) hbad
    | signal t op st woken s₁ hf hw => exact absurd rfl hbad
  · exact absurd trivial hbad

end

/-- With any buffer, any number of threads in their loops, any interleaving and any results of the
library calls: as long as the failures come early, an operation that returns a failure has moved
nothing, and a consumer consumes what the latest of its `remove_item` that returned 0 has taken
out.  And a step fails early exactly if this goes on for all such steps behind it. -/
theorem failed_calls_harmless {role : τ → Role} {bb : BufferT} {log : List (LoopEvent τ)}
    {s : LoopSys τ} (h : Runs (loopStep role) FailsEarly (.start bb) log s) :
    Guarded Harmless log ∧ ∀ a s' ev, loopStep role s a = some (s', ev) →
      (FailsEarly s a ↔
        ∀ log' s'', Runs (loopStep role) FailsEarly s' log' s'' →
          Guarded Harmless (log ++ ev ++ log')) := by
  refine ⟨(kept_of_runs h).guarded, fun a s' ev hs => ⟨fun ha log' s'' hrun => ?_, fun hall => ?_⟩⟩
  · exact (kept_of_runs ((h.snoc ha hs).trans hrun)).guarded
  · by_contra ha
    obtain ⟨log', s'', hrun, hbad⟩ := (kept_of_runs h).notEarly hs ha
    exact hbad (hall log' s'' hrun)

instance (s : LoopSys τ) : (a : LoopAction τ) → Decidable (FailsEarly s a)
  | .buffer (.signal _ _ _) => inferInstanceAs (Decidable (_ = _))
  | .buffer (.unlock _ _) | .buffer (.lock _ _) | .buffer (.wait _ _) | .buffer (.resume _ _) =>
    inferInstanceAs (Decidable (_ → _))
  | .buffer (.call _ _) | .buffer (.test _) | .buffer (.wake _) | .buffer (.update _)
  | .consume _ => inferInstanceAs (Decidable True)

/-- Thread 0 produces. -/
def firstProduces (t : Nat) : Role := if t = 0 then .producer else .consumer

/-- A consumer takes out an item and consumes it, and then its lock fails. -/
def failsEarly : List (LoopAction Nat) :=
  [.buffer (.call 0 (.insert 7)), .buffer (.lock 0 0), .buffer (.test 0), .buffer (.update 0),
    .buffer (.signal 0 0 none), .buffer (.unlock 0 0), .buffer (.call 1 .remove),
    .buffer (.lock 1 0), .buffer (.test 1), .buffer (.update 1), .buffer (.signal 1 0 none),
    .buffer (.unlock 1 0), .consume 1, .buffer (.call 1 .remove), .buffer (.lock 1 22)]

theorem failed_calls_harmless_lock : ∃ log s,
    Runs (loopStep firstProduces) FailsEarly (.start .init) log s ∧
    LoopEvent.buffer (.ret 1 .remove 22) ∈ log ∧ Guarded Harmless log := by
  obtain ⟨log, s, hrun, hlog⟩ : ∃ log s,
      Runs (loopStep firstProduces) FailsEarly (.start .init) log s ∧
      decide (LoopEvent.buffer (.ret 1 .remove 22) ∈ log) = true :=
    exists_runs_of_exec failsEarly _ (by decide)
  exact ⟨log, s, hrun, of_decide_eq_true hlog, (failed_calls_harmless hrun).1⟩

/-- An item is inserted, and `pthread_cond_signal` fails. -/
theorem failed_insert_moves : ∃ log s,
    Runs (loopStep firstProduces) anyStep (.start .init) log s ∧
    log = [.buffer (.call 0 (.insert 7)), .buffer (.insert 0 7),
      .buffer (.ret 0 (.insert 7) 22)] ∧ ¬Guarded Harmless log := by
  obtain ⟨log, s, hrun, hlog⟩ : ∃ log s,
      Runs (loopStep firstProduces) anyStep (.start .init) log s ∧
      decide (log = [.buffer (.call 0 (.insert 7)), .buffer (.insert 0 7),
        .buffer (.ret 0 (.insert 7) 22)]) = true :=
    exists_runs_of_exec
      [.buffer (.call 0 (.insert 7)), .buffer (.lock 0 0), .buffer (.test 0), .buffer (.update 0),
        .buffer (.signal 0 22 none), .buffer (.unlock 0 0)] _ (by decide)
  obtain rfl := of_decide_eq_true hlog
  refine ⟨_, s, hrun, rfl, fun hguard => ?_⟩
  have hharm := hguard [.buffer (.call 0 (.insert 7)), .buffer (.insert 0 7)] _ [] rfl
  exact absurd (hharm (by decide)) (by decide)

end PosixLab.Monitor
