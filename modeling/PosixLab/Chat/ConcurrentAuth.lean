/-
# Concurrent calls of `process_auth`

Any number of handlers call `process_auth` at once.  `authSysStep` lets them take their
statements in any order over the one mutex and the one `users.txt`; a handler that wants the
mutex waits until it is free.

`Refines` relates the states of that system to those of the atomic object around the map of
users (`Basis.Atomic`).  The call with the mutex is the only one whose position in the file
counts, and nobody else can change the file under it; every other call is either before its
first or behind its last look at the file.  The instant in which a call takes effect is the
`fclose` that writes the new record out, or the release of the mutex when nothing is written.

* `process_auth_atomic`: every history of calls and returns is one of the atomic map, the file
  stores each id once, of several registrations of one id exactly one succeeds, and in every
  state that can be reached each call can be run to its return.
-/
import PosixLab.Basis.Atomic
import PosixLab.Chat.UserMap

namespace PosixLab.Chat

open PosixLab

variable {τ : Type*}

/-! ## 1. The system -/

/-- The holder of the mutex, the file, and the call each handler is in. -/
structure AuthSys (τ : Type*) where
  mutx : Option τ
  users : Option Bytes
  frames : τ → Option AuthFrame

/-- An empty `users.txt`, and no call. -/
def AuthSys.init : AuthSys τ := ⟨none, some [], fun _ => none⟩

/-- A handler calls `process_auth`, with whatever its local arrays hold; or the scheduler
gives a handler its next statement. -/
inductive AuthAction (τ : Type*)
  | call (t : τ) (mode id pw fileId filePw : Bytes)
  | step (t : τ)

/-- The effect of a statement of handler `t` on the shared state; `none` while the mutex it
wants is held. -/
def AuthSys.sync (s : AuthSys τ) (t : τ) : Sync → Option (AuthSys τ)
  | .skip => some s
  | .lock =>
    match s.mutx with
    | none => some { s with mutx := some t }
    | some _ => none
  | .unlock => some { s with mutx := none }
  | .users content => some { s with users := some content }

/-- The operation a call stands for. -/
def AuthFrame.op (f : AuthFrame) : UserOp := opOf f.mode f.id f.pw

def authSysStep [DecidableEq τ] (s : AuthSys τ) :
    AuthAction τ → Option (AuthSys τ × List (CallEvent τ UserOp Int))
  | .call t mode id pw fileId filePw =>
    match s.frames t with
    | none =>
      some ({ s with frames :=
          Function.update s.frames t (some (.call mode id pw fileId filePw)) },
        [.inv t (opOf mode id pw)])
    | some _ => none
  | .step t =>
    match s.frames t with
    | none => none
    | some f =>
      match s.sync t (authStep s.users f).2 with
      | none => none
      | some s' =>
        match (authStep s.users f).1 with
        | .inl f' => some ({ s' with frames := Function.update s'.frames t (some f') }, [])
        | .inr r =>
          some ({ s' with frames := Function.update s'.frames t none }, [.ret t f.op r])

/-- The calls in question: id and password are nonempty, without blanks and NUL bytes, and
fit the arrays `file_id` and `file_pw` they will be read back into. -/
def WellCalled (_ : AuthSys τ) : AuthAction τ → Prop
  | .call _ _ id pw _ _ =>
    (IsField id ∧ id.length ≤ 19) ∧ (IsField pw ∧ pw.length ≤ 19)
  | .step _ => True

instance (w : Bytes) : Decidable (IsField w) :=
  decidable_of_iff (IsWord w ∧ NulFree w) ⟨fun h => ⟨h.1, h.2⟩, fun h => ⟨h.word, h.nulFree⟩⟩

instance (s : AuthSys τ) : (a : AuthAction τ) → Decidable (WellCalled s a)
  | .call _ _ _ _ _ _ => inferInstanceAs (Decidable (_ ∧ _))
  | .step _ => inferInstanceAs (Decidable True)

/-! ## 2. The invariant of one call -/

/-- What the scan has found out, when it has ended. -/
def Scanned (m : UserMap) (f : AuthFrame) : Prop :=
  f.fp.out = [] ∧
    ((f.found = true ∧ m f.id = some f.filePw) ∨ (f.found = false ∧ m f.id = none))

/-- How far a call has got, statement by statement: what it knows about the file `content`,
which represents `m`, and where it stands in the atomic object. -/
def Progress (content : Bytes) (m : UserMap) (f : AuthFrame) (ph : Phase UserOp Int) : Prop :=
  match f.pc with
  | .lock => ph = .called f.op ∧ f.found = false
  | .fopen => ph = .called f.op ∧ f.found = false
  | .fscanf =>
    ph = .called f.op ∧ f.found = false ∧ f.fp.out = [] ∧
      findUser f.id (fileWords (content.drop f.fp.pos)) f.filePw = m f.id
  | .branch => ph = .called f.op ∧ Scanned m f
  | .existUnlock =>
    ph = .called f.op ∧ f.mode = REGISTER ∧ f.fp.out = [] ∧ ∃ p, m f.id = some p
  | .existClose => ph = .answered f.op (-1) ∧ f.fp.out = []
  | .fseek => ph = .called f.op ∧ f.mode = REGISTER ∧ f.fp.out = [] ∧ m f.id = none
  | .fprintf =>
    ph = .called f.op ∧ f.mode = REGISTER ∧ f.fp = ⟨content.length, []⟩ ∧ m f.id = none
  | .regClose =>
    ph = .called f.op ∧ f.mode = REGISTER ∧ f.fp = ⟨content.length, record f.id f.pw⟩ ∧
      m f.id = none
  | .regUnlock => ph = .answered f.op 0
  | .loginClose => ph = .called f.op ∧ f.mode ≠ REGISTER ∧ Scanned m f
  | .loginUnlock => ph = .called f.op ∧ f.mode ≠ REGISTER ∧ Scanned m f
  | .loginReturn => ph = .answered f.op (loginResult f)

/-- What holds of a handler: it is in no call and idle in the atomic object, or in a call that
has the mutex exactly between its `lock` and its `unlock`. -/
def ThreadOk (content : Bytes) (m : UserMap) (mutx : Option τ) (t : τ) :
    Option AuthFrame → Phase UserOp Int → Prop
  | none, ph => ph = .idle ∧ mutx ≠ some t
  | some f, ph =>
    IsField f.id ∧ IsField f.pw ∧ (mutx = some t ↔ f.pc.holds = true) ∧ Progress content m f ph

/-- A call outside its critical section knows nothing about the file. -/
theorem Progress.of_not_holds {content content' : Bytes} {m m' : UserMap} {f : AuthFrame}
    {ph : Phase UserOp Int} (hf : f.pc.holds = false) (h : Progress content m f ph) :
    Progress content' m' f ph := by
  unfold Progress at h ⊢
  cases hpc : f.pc <;> simp_all [AuthPc.holds]

/-- The frame rule: a step of another handler keeps what holds of `u`, when it leaves the mutex
to `u` if `u` has it and otherwise does not give it to `u`, and leaves the file alone while `u`
has the mutex. -/
theorem ThreadOk.frame {content content' : Bytes} {m m' : UserMap} {mutx mutx' : Option τ}
    {u : τ} {fr : Option AuthFrame} {ph : Phase UserOp Int} (h : ThreadOk content m mutx u fr ph)
    (hmutx : mutx' = some u ↔ mutx = some u)
    (hdata : mutx = some u → content' = content ∧ m' = m) :
    ThreadOk content' m' mutx' u fr ph := by
  cases fr with
  | none => exact ⟨h.1, fun e => h.2 (hmutx.mp e)⟩
  | some f =>
    obtain ⟨hi, hp, hlock, hprog⟩ := h
    refine ⟨hi, hp, hmutx.trans hlock, ?_⟩
    cases hh : f.pc.holds with
    | false => exact hprog.of_not_holds hh
    | true =>
      obtain ⟨rfl, rfl⟩ := hdata (hlock.mpr hh)
      exact hprog

/-- What a statement of a call may come to, for a call of the operation `op` that stands at
`ph`, may hold the mutex and sees a file that represents `m`. -/
def Advances (m : UserMap) (op : UserOp) (holds : Bool) (content : Bytes)
    (ph : Phase UserOp Int) (f : AuthFrame) (y : Sync) : AuthFrame ⊕ Int → Prop
  | .inl f' =>
    f'.op = op ∧ f'.id = f.id ∧ f'.pw = f.pw ∧ y.holds holds = f'.pc.holds ∧
      ((y.file (some content) = some content ∧ Progress content m f' ph) ∨
        -- the call takes effect
        (ph = .called op ∧ holds = true ∧
          ∃ content', y.file (some content) = some content' ∧
            Represents content' (m.apply op).1 ∧
            Progress content' (m.apply op).1 f' (.answered op (m.apply op).2)))
  | .inr r => ph = .answered op r ∧ y.file (some content) = some content ∧ y.holds holds = false

section
variable {content : Bytes} {m : UserMap} {f : AuthFrame} {ph : Phase UserOp Int}

/-- What the scan has found out is what a login of the map returns. -/
theorem Scanned.apply_login (h : Scanned m f) :
    m.apply (.login f.id f.pw) = (m, loginResult f) := by
  rcases h.2 with ⟨hf, hm⟩ | ⟨hf, hm⟩
  · simp [loginResult, hf, UserMap.apply, hm]
  · simp [loginResult, hf, UserMap.apply, hm]

theorem apply_op_register (hm : f.mode = REGISTER) :
    m.apply f.op = m.apply (.register f.id f.pw) := by
  rw [AuthFrame.op, hm, opOf_register]

theorem apply_op_login (hm : f.mode ≠ REGISTER) :
    m.apply f.op = m.apply (.login f.id f.pw) := by
  rw [AuthFrame.op, opOf_login hm]

/-- A call between two statements, for the statement that comes next. -/
def Next (content : Bytes) (m : UserMap) (f : AuthFrame) (ph : Phase UserOp Int) : Prop :=
  (authStep (some content) f).2.Allowed f.pc.holds ∧
    Advances m f.op f.pc.holds content ph f (authStep (some content) f).2
      (authStep (some content) f).1

/-- The scan loop finds the id. -/
theorem Progress.next_hit {p : Bytes} {pos : Nat} (hpc : f.pc = .fscanf)
    (h : Progress content m f ph)
    (he : Chat.fscanf content f.fp.pos f.filePw = some (f.id, p, pos)) (hid : m f.id = some p) :
    Next content m f ph := by
  simp only [Progress, hpc] at h
  obtain ⟨rfl, -, hout, -⟩ := h
  rw [Next, hpc, authStep_fscanf_hit (some content) hpc he]
  exact ⟨trivial, rfl, rfl, rfl, rfl, Or.inl ⟨rfl, rfl, hout, Or.inl ⟨rfl, hid⟩⟩⟩

/-- The scan loop goes on behind another record. -/
theorem Progress.next_miss {w p : Bytes} {pos : Nat} (hpc : f.pc = .fscanf)
    (h : Progress content m f ph)
    (he : Chat.fscanf content f.fp.pos f.filePw = some (w, p, pos)) (hw : w ≠ f.id)
    (hrest : findUser f.id (fileWords (content.drop pos)) p = m f.id) :
    Next content m f ph := by
  simp only [Progress, hpc] at h
  obtain ⟨rfl, hfound, hout, -⟩ := h
  rw [Next, hpc, authStep_fscanf_miss (some content) hpc he hw]
  refine ⟨trivial, rfl, rfl, rfl, by simp [hpc, Sync.holds, AuthPc.holds], Or.inl ⟨rfl, ?_⟩⟩
  simp only [Progress, hpc]
  exact ⟨rfl, hfound, hout, hrest⟩

theorem Progress.next_fscanf (hpc : f.pc = .fscanf) (h : Progress content m f ph) :
    Next content m f ph := by
  have hscan : findUser f.id (fileWords (content.drop f.fp.pos)) f.filePw = m f.id := by
    simp only [Progress, hpc] at h
    exact h.2.2.2
  rcases fscanf_cases content f.fp.pos f.filePw with
    ⟨he, hws⟩ | ⟨w, pos, he, hws, hrest⟩ | ⟨w, w', pos, he, hws⟩
  · -- end of the file
    simp only [Progress, hpc] at h
    obtain ⟨rfl, hfound, hout, -⟩ := h
    rw [Next, hpc, authStep_fscanf_eof (some content) hpc he]
    rw [hws] at hscan
    exact ⟨trivial, rfl, rfl, rfl, rfl, Or.inl ⟨rfl, rfl, hout, Or.inr ⟨hfound, hscan.symm⟩⟩⟩
  · rw [hws, findUser] at hscan
    by_cases hw : w = f.id
    · subst hw
      exact h.next_hit hpc he (by rw [← hscan, if_pos rfl])
    · refine h.next_miss hpc he hw ?_
      rw [← hscan, if_neg hw, hrest, findUser]
  · rw [hws, findUser] at hscan
    by_cases hw : w = f.id
    · subst hw
      exact h.next_hit hpc he (by rw [← hscan, if_pos rfl])
    · exact h.next_miss hpc he hw (by rw [← hscan, if_neg hw])

/-- One statement of a call. -/
theorem Progress.next (hi : IsField f.id) (hp : IsField f.pw) (hrep : Represents content m)
    (h : Progress content m f ph) : Next content m f ph := by
  cases hpc : f.pc with
  | fscanf => exact h.next_fscanf hpc
  | lock =>
    simp only [Progress, hpc] at h
    simp only [Next, authStep, hpc]
    exact ⟨rfl, rfl, rfl, rfl, rfl, Or.inl ⟨rfl, h⟩⟩
  | fopen =>
    simp only [Progress, hpc] at h
    obtain ⟨rfl, hfound⟩ := h
    simp only [Next, authStep, hpc]
    refine ⟨trivial, rfl, rfl, rfl, rfl, Or.inl ⟨rfl, rfl, hfound, rfl, ?_⟩⟩
    exact hrep.findUser f.id f.filePw
  | branch =>
    simp only [Progress, hpc] at h
    obtain ⟨rfl, hscan⟩ := h
    by_cases hm : f.mode = REGISTER
    · obtain ⟨hout, ⟨hf, hid⟩ | ⟨hf, hid⟩⟩ := hscan
      · have hs : authStep (some content) f = (.inl { f with pc := .existUnlock }, .skip) := by
          simp [authStep, hpc, hm, hf]
        rw [Next, hs, hpc]
        exact ⟨trivial, rfl, rfl, rfl, rfl, Or.inl ⟨rfl, rfl, hm, hout, _, hid⟩⟩
      · have hs : authStep (some content) f = (.inl { f with pc := .fseek }, .skip) := by
          simp [authStep, hpc, hm, hf]
        rw [Next, hs, hpc]
        exact ⟨trivial, rfl, rfl, rfl, rfl, Or.inl ⟨rfl, rfl, hm, hout, hid⟩⟩
    · have hs : authStep (some content) f = (.inl { f with pc := .loginClose }, .skip) := by
        simp [authStep, hpc, hm]
      rw [Next, hs, hpc]
      exact ⟨trivial, rfl, rfl, rfl, rfl, Or.inl ⟨rfl, rfl, hm, hscan⟩⟩
  | existUnlock =>
    simp only [Progress, hpc] at h
    obtain ⟨rfl, hm, hout, p, hid⟩ := h
    have happ : m.apply f.op = (m, -1) := by
      rw [apply_op_register hm]
      simp [UserMap.apply, hid]
    simp only [Next, authStep, hpc]
    refine ⟨rfl, rfl, rfl, rfl, rfl, Or.inr ⟨rfl, rfl, content, rfl, ?_⟩⟩
    rw [happ]
    exact ⟨hrep, rfl, hout⟩
  | existClose =>
    simp only [Progress, hpc] at h
    obtain ⟨rfl, hout⟩ := h
    simp only [Next, authStep, hpc, hout, if_true]
    exact ⟨trivial, rfl, rfl, rfl⟩
  | fseek =>
    simp only [Progress, hpc] at h
    obtain ⟨rfl, hm, hout, hid⟩ := h
    simp only [Next, authStep, hpc]
    refine ⟨trivial, rfl, rfl, rfl, rfl, Or.inl ⟨rfl, rfl, hm, ?_, hid⟩⟩
    simp [hout]
  | fprintf =>
    simp only [Progress, hpc] at h
    obtain ⟨rfl, hm, hfp, hid⟩ := h
    simp only [Next, authStep, hpc]
    refine ⟨trivial, rfl, rfl, rfl, rfl, Or.inl ⟨rfl, rfl, hm, ?_, hid⟩⟩
    simp [hfp]
  | regClose =>
    simp only [Progress, hpc] at h
    obtain ⟨rfl, hm, hfp, hid⟩ := h
    have hne : record f.id f.pw ≠ [] := by simp [record]
    have happ : m.apply f.op = (Function.update m f.id (some f.pw), 0) := by
      rw [apply_op_register hm]
      simp [UserMap.apply, hid]
    simp only [Next, authStep, hpc, hfp, hne, if_false, Option.getD_some]
    refine ⟨rfl, rfl, rfl, rfl, rfl, Or.inr ⟨rfl, rfl, _, rfl, ?_⟩⟩
    rw [happ, Stream.close_of_end content (by rfl)]
    exact ⟨hrep.append hi hp hid, rfl⟩
  | regUnlock =>
    simp only [Progress, hpc] at h
    simp only [Next, authStep, hpc]
    exact ⟨rfl, h, rfl, rfl⟩
  | loginClose =>
    simp only [Progress, hpc] at h
    obtain ⟨rfl, hm, hscan⟩ := h
    simp only [Next, authStep, hpc, hscan.1, if_true]
    exact ⟨trivial, rfl, rfl, rfl, rfl, Or.inl ⟨rfl, rfl, hm, hscan⟩⟩
  | loginUnlock =>
    simp only [Progress, hpc] at h
    obtain ⟨rfl, hm, hscan⟩ := h
    have happ : m.apply f.op = (m, loginResult f) := by
      rw [apply_op_login hm, hscan.apply_login]
    simp only [Next, authStep, hpc]
    refine ⟨rfl, rfl, rfl, rfl, rfl, Or.inr ⟨rfl, rfl, content, rfl, ?_⟩⟩
    rw [happ]
    exact ⟨hrep, rfl⟩
  | loginReturn =>
    simp only [Progress, hpc] at h
    simp only [Next, authStep, hpc]
    exact ⟨trivial, h, rfl, rfl⟩

end

/-! ## 3. The refinement -/

/-- The file represents the value of the atomic object, and every handler is where it should
be. -/
structure Refines (s : AuthSys τ) (a : AtomicState τ UserMap UserOp Int) (content : Bytes) :
    Prop where
  users : s.users = some content
  represents : Represents content a.value
  thread : ∀ t, ThreadOk content a.value s.mutx t (s.frames t) (a.phase t)

theorem refines_init : Refines (AuthSys.init : AuthSys τ) (.init .empty) [] :=
  ⟨rfl, represents_empty, fun _ => ⟨rfl, by simp [AuthSys.init]⟩⟩

variable [DecidableEq τ]

/-- One handler moves.  It may take the mutex when it is free or give it back when it has it,
and it may change the file only while it has the mutex. -/
theorem Refines.move {s : AuthSys τ} {a : AtomicState τ UserMap UserOp Int}
    {content content' : Bytes} (h : Refines s a content) {t : τ} {m' : UserMap}
    {mutx' : Option τ} {fr' : Option AuthFrame} {ph' : Phase UserOp Int}
    (hmutx : mutx' = s.mutx ∨ (s.mutx = none ∧ mutx' = some t) ∨
      (s.mutx = some t ∧ mutx' = none))
    (hdata : s.mutx = some t ∨ (content' = content ∧ m' = a.value))
    (hrep : Represents content' m')
    (hthread : ThreadOk content' m' mutx' t fr' ph') :
    Refines ⟨mutx', some content', Function.update s.frames t fr'⟩
      ⟨m', Function.update a.phase t ph'⟩ content' := by
  refine ⟨rfl, hrep, fun u => ?_⟩
  by_cases hu : u = t
  · subst hu
    simpa using hthread
  · have hne : ¬ t = u := fun e => hu e.symm
    simp only [Function.update_of_ne hu]
    refine (h.thread u).frame ?_ ?_
    · rcases hmutx with e | ⟨e, e'⟩ | ⟨e, e'⟩
      · rw [e]
      · simp [e, e', hne]
      · simp [e, e', hne]
    · intro hmu
      rcases hdata with e | e
      · rw [hmu] at e
        exact absurd (Option.some.inj e) hu
      · exact e

/-- What a step of a handler in a call is: a statement of the call whose effect the shared
state admits. -/
theorem authSysStep_step {s s' : AuthSys τ} {t : τ} {ev : List (CallEvent τ UserOp Int)}
    (h : authSysStep s (.step t) = some (s', ev)) :
    ∃ f s₁, s.frames t = some f ∧ s.sync t (authStep s.users f).2 = some s₁ ∧
      ((∃ f', (authStep s.users f).1 = .inl f' ∧ ev = [] ∧
        s' = { s₁ with frames := Function.update s₁.frames t (some f') }) ∨
      (∃ r, (authStep s.users f).1 = .inr r ∧ ev = [.ret t f.op r] ∧
        s' = { s₁ with frames := Function.update s₁.frames t none })) := by
  simp only [authSysStep] at h
  cases hf : s.frames t with
  | none => simp [hf] at h
  | some f =>
    cases hs : s.sync t (authStep s.users f).2 with
    | none => simp [hf, hs] at h
    | some s₁ =>
      refine ⟨f, s₁, rfl, hs, ?_⟩
      cases ho : (authStep s.users f).1 with
      | inl f' =>
        simp only [hf, hs, ho, Option.some.injEq, Prod.mk.injEq] at h
        exact Or.inl ⟨f', rfl, h.2.symm, h.1.symm⟩
      | inr r =>
        simp only [hf, hs, ho, Option.some.injEq, Prod.mk.injEq] at h
        exact Or.inr ⟨r, rfl, h.2.symm, h.1.symm⟩

omit [DecidableEq τ] in
/-- What an allowed effect does to the mutex and the file. -/
theorem AuthSys.sync_eq {s s₁ : AuthSys τ} {t : τ} {y : Sync} {b : Bool}
    (h : s.sync t y = some s₁) (hy : y.Allowed b) (hb : s.mutx = some t ↔ b = true) :
    s₁.frames = s.frames ∧ s₁.users = y.file s.users ∧
      (s₁.mutx = some t ↔ y.holds b = true) ∧
      (s₁.mutx = s.mutx ∨ (s.mutx = none ∧ s₁.mutx = some t) ∨
        (s.mutx = some t ∧ s₁.mutx = none)) := by
  cases y with
  | skip =>
    cases h
    exact ⟨rfl, rfl, hb, Or.inl rfl⟩
  | lock =>
    simp only [AuthSys.sync] at h
    split at h
    · rename_i hfree
      cases h
      exact ⟨rfl, rfl, by simp [Sync.holds], Or.inr (Or.inl ⟨hfree, rfl⟩)⟩
    · cases h
  | unlock =>
    cases h
    exact ⟨rfl, rfl, by simp [Sync.holds], Or.inr (Or.inr ⟨hb.mpr hy, rfl⟩)⟩
  | users content =>
    cases h
    exact ⟨rfl, rfl, hb, Or.inl rfl⟩

/-- Every step of the system is answered by the atomic object. -/
theorem Refines.step {s s' : AuthSys τ} {a : AtomicState τ UserMap UserOp Int}
    {content : Bytes} (h : Refines s a content) {act : AuthAction τ}
    (hok : WellCalled s act) {ev : List (CallEvent τ UserOp Int)}
    (hs : authSysStep s act = some (s', ev)) :
    ∃ H a' content', AtomicRuns UserMap.apply a H a' ∧ H.filterMap CallEvent.visible = ev ∧
      Refines s' a' content' := by
  cases act with
  | call t mode id pw fileId filePw =>
    simp only [authSysStep] at hs
    cases hf : s.frames t with
    | some f => simp [hf] at hs
    | none =>
      simp only [hf, Option.some.injEq, Prod.mk.injEq] at hs
      obtain ⟨rfl, rfl⟩ := hs
      obtain ⟨hidle, hmutx⟩ : a.phase t = .idle ∧ s.mutx ≠ some t := by
        have := h.thread t
        rwa [hf] at this
      refine ⟨_, _, content, AtomicRuns.inv hidle, rfl, ?_⟩
      rw [h.users]
      refine h.move (Or.inl rfl) (Or.inr ⟨rfl, rfl⟩) h.represents ?_
      exact ⟨hok.1.1, hok.2.1, by simpa [AuthFrame.call, AuthPc.holds] using hmutx, rfl, rfl⟩
  | step t =>
    obtain ⟨f, s₁, hf, hsync, hcase⟩ := authSysStep_step hs
    obtain ⟨hi, hp, hlock, hprog⟩ : ThreadOk content a.value s.mutx t (some f) (a.phase t) :=
      hf ▸ h.thread t
    have hnext : Next content a.value f (a.phase t) := hprog.next hi hp h.represents
    rw [h.users] at hsync hcase
    obtain ⟨hallow, hadv⟩ := hnext
    obtain ⟨hframes, husers, hlock', hmutx⟩ := AuthSys.sync_eq hsync hallow hlock
    rw [h.users] at husers
    rcases hcase with ⟨f', ho, rfl, rfl⟩ | ⟨r, ho, rfl, rfl⟩
    · rw [ho] at hadv
      obtain ⟨hop, hid, hpw, hh, ⟨hfile, hprog'⟩ | ⟨hph, hhold, content', hfile, hrep', hprog'⟩⟩ :=
        hadv
      · -- nothing happens to the map
        refine ⟨[], a, content, .nil, rfl, ?_⟩
        have hmove : Refines ⟨s₁.mutx, some content, Function.update s.frames t (some f')⟩
            ⟨a.value, Function.update a.phase t (a.phase t)⟩ content :=
          h.move hmutx (Or.inr ⟨rfl, rfl⟩) h.represents
            ⟨hid ▸ hi, hpw ▸ hp, hh ▸ hlock', hprog'⟩
        rw [Function.update_eq_self] at hmove
        rw [hframes, husers, hfile]
        exact hmove
      · -- the call takes effect
        refine ⟨_, _, content', AtomicRuns.lin hph, rfl, ?_⟩
        rw [hframes, husers, hfile]
        exact h.move hmutx (Or.inl (hlock.mpr hhold)) hrep'
          ⟨hid ▸ hi, hpw ▸ hp, hh ▸ hlock', hprog'⟩
    · rw [ho] at hadv
      obtain ⟨hph, hfile, hh⟩ := hadv
      refine ⟨_, _, content, AtomicRuns.ret hph, rfl, ?_⟩
      rw [hframes, husers, hfile]
      refine h.move hmutx (Or.inr ⟨rfl, rfl⟩) h.represents ⟨rfl, ?_⟩
      rw [Ne, hlock', hh]
      exact Bool.false_ne_true

/-! ## 4. One registration of an id succeeds -/

/-- The return of a successful registration of `id`. -/
def isWin (id : Bytes) : CallEvent τ UserOp Int → Bool
  | .ret _ (.register i _) r => decide (i = id ∧ r = 0)
  | _ => false

/-- A registration of `id` has succeeded and is about to return. -/
def Winner (id : Bytes) (ph : Phase UserOp Int) : Prop := ∃ pw, ph = .answered (.register id pw) 0

/-- How many registrations of an id have returned a success (`n`), and which handlers are about
to (`W`): none while the id is unbound, and one in all from then on. -/
def Tally (unbound : Prop) (n : Nat) (W : τ → Prop) : Prop :=
  (unbound ∧ n = 0 ∧ ∀ u, ¬ W u) ∨ (¬ unbound ∧ n = 0 ∧ ∃ t, ∀ u, W u ↔ u = t) ∨
    (¬ unbound ∧ n = 1 ∧ ∀ u, ¬ W u)

/-- While an id is unbound no registration of it has an answer, and the tally is kept. -/
structure OneWinner (id : Bytes) (H : List (CallEvent τ UserOp Int))
    (a : AtomicState τ UserMap UserOp Int) : Prop where
  tally : Tally (a.value id = none) (H.countP (isWin id)) fun u => Winner id (a.phase u)
  phase_bound : ∀ {u pw r}, a.phase u = .answered (.register id pw) r → a.value id ≠ none
  ret_bound : ∀ {u pw r}, .ret u (.register id pw) r ∈ H → a.value id ≠ none

/-- An operation binds an id at most once, and a registration leaves its id bound. -/
theorem UserMap.apply_cases (m : UserMap) (op : UserOp) (id : Bytes) :
    ((∃ pw, op = .register id pw) ∧ m id = none ∧ (m.apply op).1 id ≠ none ∧
      (m.apply op).2 = 0) ∨
    ((m.apply op).1 id = m id ∧
      ∀ pw, op = .register id pw → m id ≠ none ∧ (m.apply op).2 ≠ 0) := by
  cases op with
  | login i pw =>
    refine Or.inr ⟨?_, by simp⟩
    cases hi : m i <;> simp [UserMap.apply, hi]
  | register i pw =>
    by_cases hid : i = id
    · subst hid
      cases hi : m i with
      | none => exact Or.inl ⟨⟨pw, rfl⟩, rfl, by simp [UserMap.apply, hi]⟩
      | some p => exact Or.inr (by simp [UserMap.apply, hi])
    · have hne : ¬ id = i := fun e => hid e.symm
      refine Or.inr ⟨?_, by simp [hid]⟩
      cases hi : m i <;> simp [UserMap.apply, hi, hne]

theorem update_cases {α β : Type*} [DecidableEq α] {f : α → β} {t u : α} {x y : β}
    (h : Function.update f t x u = y) : (u = t ∧ x = y) ∨ (u ≠ t ∧ f u = y) := by
  by_cases hu : u = t
  · subst hu
    exact Or.inl ⟨rfl, by simpa using h⟩
  · exact Or.inr ⟨hu, by simpa [hu] using h⟩

theorem winner_update {id : Bytes} {f : τ → Phase UserOp Int} {t : τ} {x : Phase UserOp Int}
    (h : Winner id x ↔ Winner id (f t)) (u : τ) :
    Winner id (Function.update f t x u) ↔ Winner id (f u) := by
  by_cases hu : u = t
  · subst hu
    simpa using h
  · rw [Function.update_of_ne hu]

section

variable {id : Bytes} {H : List (CallEvent τ UserOp Int)} {a : AtomicState τ UserMap UserOp Int}
  {t : τ} {op : UserOp} {res : Int}

theorem not_winner_idle : ¬ Winner id .idle := by simp [Winner]

theorem not_winner_called : ¬ Winner id (.called op) := by simp [Winner]

theorem OneWinner.inv (h : OneWinner id H a) (hph : a.phase t = .idle) :
    OneWinner id (H ++ [.inv t op])
      { a with phase := Function.update a.phase t (.called op) } := by
  have hW : ∀ u, Winner id (Function.update a.phase t (.called op) u) ↔ Winner id (a.phase u) :=
    winner_update (iff_of_false not_winner_called (hph ▸ not_winner_idle))
  refine ⟨?_, ?_, ?_⟩
  · simpa [isWin, hW] using h.tally
  · intro u pw r hu
    rcases update_cases hu with ⟨-, e⟩ | ⟨-, e⟩
    · cases e
    · exact h.phase_bound e
  · intro u pw r hu
    exact h.ret_bound (by simpa using hu)

/-- The winner returns, or another call does. -/
theorem OneWinner.ret (h : OneWinner id H a) (hph : a.phase t = .answered op res) :
    OneWinner id (H ++ [.ret t op res])
      { a with phase := Function.update a.phase t .idle } := by
  refine ⟨?_, ?_, ?_⟩
  · by_cases hwin : Winner id (a.phase t)
    · obtain ⟨pw, e⟩ := hwin
      rw [hph] at e
      cases e
      rcases h.tally with ⟨-, -, hno⟩ | ⟨hb, hn, t', ht'⟩ | ⟨-, -, hno⟩
      · exact absurd ⟨pw, hph⟩ (hno t)
      · have htt : t = t' := (ht' t).mp ⟨pw, hph⟩
        refine Or.inr (Or.inr ⟨hb, by simp [isWin, hn], ?_⟩)
        rintro u ⟨pw', hu⟩
        rcases update_cases hu with ⟨-, e⟩ | ⟨hne, e⟩
        · cases e
        · exact hne (((ht' u).mp ⟨pw', e⟩).trans htt.symm)
      · exact absurd ⟨pw, hph⟩ (hno t)
    · have hW := winner_update (f := a.phase) (t := t) (iff_of_false not_winner_idle hwin)
      have hev : isWin id (.ret t op res) = false := by
        cases op with
        | login i pw => rfl
        | register i pw =>
          simp only [isWin, decide_eq_false_iff_not]
          rintro ⟨rfl, rfl⟩
          exact hwin ⟨pw, hph⟩
      simpa [hev, hW] using h.tally
  · intro u pw r hu
    rcases update_cases hu with ⟨-, e⟩ | ⟨-, e⟩
    · cases e
    · exact h.phase_bound e
  · intro u pw r hu
    rcases List.mem_append.mp hu with hu | hu
    · exact h.ret_bound hu
    · simp only [List.mem_singleton, CallEvent.ret.injEq] at hu
      obtain ⟨rfl, rfl, rfl⟩ := hu
      exact h.phase_bound hph

/-- The registration that binds the id takes effect, or another operation does. -/
theorem OneWinner.lin (h : OneWinner id H a) (hph : a.phase t = .called op) :
    OneWinner id (H ++ [.lin t op (a.value.apply op).2])
      ⟨(a.value.apply op).1, Function.update a.phase t (.answered op (a.value.apply op).2)⟩ := by
  have hcount : (H ++ [CallEvent.lin t op (a.value.apply op).2]).countP (isWin id) =
      H.countP (isWin id) := by simp [isWin]
  rcases UserMap.apply_cases a.value op id with
    ⟨⟨pw, rfl⟩, hnone, hsome, hres⟩ | ⟨hval, hreg⟩
  · refine ⟨?_, fun _ => hsome, fun _ => hsome⟩
    rcases h.tally with ⟨-, hn, hno⟩ | ⟨hb, -⟩ | ⟨hb, -⟩
    · refine Or.inr (Or.inl ⟨hsome, hcount.trans hn, t, fun u => ?_⟩)
      by_cases hut : u = t
      · subst hut
        simp [Winner, hres]
      · simp only [Function.update_of_ne hut]
        exact iff_of_false (hno u) hut
    · exact absurd hnone hb
    · exact absurd hnone hb
  · have hloses : ¬ Winner id (.answered op (a.value.apply op).2) := by
      rintro ⟨pw, e⟩
      obtain ⟨hop, hres⟩ := (Phase.answered.injEq _ _ _ _).mp e
      exact (hreg pw hop).2 hres
    have hW := winner_update (f := a.phase) (t := t)
      (iff_of_false hloses (hph ▸ not_winner_called))
    refine ⟨?_, ?_, ?_⟩
    · simpa only [hcount, hW, hval] using h.tally
    · intro u pw r hu
      simp only [hval]
      rcases update_cases hu with ⟨-, e⟩ | ⟨-, e⟩
      · obtain ⟨hop, -⟩ := (Phase.answered.injEq _ _ _ _).mp e
        exact (hreg pw hop).1
      · exact h.phase_bound e
    · intro u pw r hu
      simp only [hval]
      exact h.ret_bound (by simpa using hu)

/-- Along every history of the atomic map. -/
theorem oneWinner_of_runs (id : Bytes) (h : AtomicRuns UserMap.apply (.init .empty) H a) :
    OneWinner id H a := by
  refine h.invariant ⟨Or.inl ⟨rfl, rfl, fun _ => not_winner_idle⟩, ?_, ?_⟩ ?_
  · intro u pw r hu
    cases hu
  · intro u pw r hu
    simp at hu
  · intro H a act a' ev _ ih _ hs
    rcases atomicStep_cases hs with
      ⟨t, op, hph, rfl, rfl⟩ | ⟨t, op, res, hph, rfl, rfl⟩ | ⟨t, op, hph, rfl, rfl⟩
    · exact ih.inv hph
    · exact ih.ret hph
    · exact ih.lin hph

end
/-! ## 5. Every call can return -/

/-- A bound on the statements a call has left, given the file. -/
def AuthFrame.left (content : Bytes) (f : AuthFrame) : Nat :=
  match f.pc with
  | .lock => (fileWords content).length + 9
  | .fopen => (fileWords content).length + 8
  | .fscanf => (fileWords (content.drop f.fp.pos)).length + 7
  | .branch => 6
  | .existUnlock | .fseek => 5
  | .existClose | .fprintf => 4
  | .regClose | .loginClose => 3
  | .regUnlock | .loginUnlock => 2
  | .loginReturn => 1

/-- An iteration of the scan loop reads a word. -/
theorem fscanf_left {content filePw w p : Bytes} {pos pos' : Nat}
    (h : fscanf content pos filePw = some (w, p, pos')) :
    (fileWords (content.drop pos')).length < (fileWords (content.drop pos)).length := by
  rcases fscanf_cases content pos filePw with
    ⟨he, -⟩ | ⟨_, _, he, hws, hrest⟩ | ⟨_, _, _, he, hws⟩
  · simp [he] at h
  · rw [he] at h
    cases h
    simp [hws, hrest]
  · rw [he] at h
    cases h
    simp only [hws, List.length_cons]
    omega

/-- Each statement leaves fewer. -/
theorem authStep_left {content : Bytes} {f f' : AuthFrame} {y : Sync}
    (h : authStep (some content) f = (.inl f', y)) :
    f'.left ((y.file (some content)).getD []) < f.left content := by
  cases hpc : f.pc with
  | fscanf =>
    cases he : fscanf content f.fp.pos f.filePw with
    | none =>
      rw [authStep_fscanf_eof (some content) hpc he] at h
      cases h
      simp [AuthFrame.left, hpc]
    | some r =>
      obtain ⟨w, p, pos⟩ := r
      have hlt := fscanf_left he
      by_cases hw : w = f.id
      · subst hw
        rw [authStep_fscanf_hit (some content) hpc he] at h
        cases h
        simp [AuthFrame.left, hpc]
      · rw [authStep_fscanf_miss (some content) hpc he hw] at h
        cases h
        simp [AuthFrame.left, hpc]
        omega
  | branch =>
    simp only [authStep, hpc] at h
    split at h
    · split at h <;> cases h <;> simp [AuthFrame.left, hpc]
    · cases h
      simp [AuthFrame.left, hpc]
  | existClose | regUnlock | loginReturn => simp [authStep, hpc] at h
  | lock | fopen | existUnlock | fseek | fprintf | regClose | loginClose | loginUnlock =>
    simp only [authStep, hpc] at h
    cases h
    simp [AuthFrame.left, hpc]

omit [DecidableEq τ] in
/-- An allowed effect is possible unless somebody else has the mutex. -/
theorem AuthSys.sync_enabled {s : AuthSys τ} {t : τ} {y : Sync} {b : Bool} (hy : y.Allowed b)
    (hb : s.mutx = some t ↔ b = true) (hm : s.mutx = none ∨ s.mutx = some t) :
    ∃ s₁, s.sync t y = some s₁ := by
  cases y with
  | lock =>
    have hfalse : b = false := hy
    have hfree : s.mutx = none := by
      rcases hm with hm | hm
      · exact hm
      · rw [hfalse] at hb
        exact absurd (hb.mp hm) Bool.false_ne_true
    exact ⟨{ s with mutx := some t }, by simp [AuthSys.sync, hfree]⟩
  | skip => exact ⟨_, rfl⟩
  | unlock => exact ⟨_, rfl⟩
  | users content => exact ⟨_, rfl⟩

/-- When nobody else has the mutex, a call can run to its return and leaves the mutex free.
The induction is on the statements it has left. -/
theorem Refines.finish (n : Nat) {s : AuthSys τ} {a : AtomicState τ UserMap UserOp Int}
    {content : Bytes} {t : τ} {f : AuthFrame} (h : Refines s a content)
    (hf : s.frames t = some f) (hn : f.left content < n)
    (hm : s.mutx = none ∨ s.mutx = some t) :
    ∃ log s' a' content', Runs authSysStep WellCalled s log s' ∧ Refines s' a' content' ∧
      (∃ r, .ret t f.op r ∈ log) ∧ s'.mutx = none ∧
      ∀ u, u ≠ t → s'.frames u = s.frames u := by
  induction n generalizing s a content f with
  | zero => exact absurd hn (Nat.not_lt_zero _)
  | succ n ih =>
    obtain ⟨hi, hp, hlock, hprog⟩ : ThreadOk content a.value s.mutx t (some f) (a.phase t) :=
      hf ▸ h.thread t
    obtain ⟨hallow, hadv⟩ : Next content a.value f (a.phase t) := hprog.next hi hp h.represents
    obtain ⟨s₁, hs₁⟩ := AuthSys.sync_enabled hallow hlock hm
    obtain ⟨hframes, husers, -, hmutx⟩ := AuthSys.sync_eq hs₁ hallow hlock
    have hok : WellCalled s (.step t) := trivial
    have hm₁ : s₁.mutx = none ∨ s₁.mutx = some t := by
      rcases hmutx with e | ⟨-, e⟩ | ⟨-, e⟩
      · rwa [e]
      · exact Or.inr e
      · exact Or.inl e
    cases ho : authStep (some content) f with
    | mk o y =>
      rw [ho] at hs₁ hadv husers
      cases o with
      | inl f' =>
        have hstep : authSysStep s (.step t) =
            some ({ s₁ with frames := Function.update s₁.frames t (some f') }, []) := by
          simp [authSysStep, hf, h.users, ho, hs₁]
        obtain ⟨H, a', content', -, -, h'⟩ := h.step hok hstep
        have hc : content' = (y.file (some content)).getD [] := by
          have := h'.users
          rw [h.users] at husers
          simp only [husers] at this
          rw [this, Option.getD_some]
        have hlt : f'.left content' < f.left content := hc ▸ authStep_left ho
        have hf' : Function.update s₁.frames t (some f') t = some f' := Function.update_self ..
        obtain ⟨log, s', a'', content'', hrun, hR, ⟨r, hr⟩, hfree, hothers⟩ :=
          ih h' hf' (by omega) hm₁
        refine ⟨_, s', a'', content'', (Runs.one hok hstep).trans hrun, hR, ?_, hfree, ?_⟩
        · rw [hadv.1] at hr
          exact ⟨r, by simpa using hr⟩
        · intro u hu
          rw [hothers u hu, ← hframes]
          exact Function.update_of_ne hu _ _
      | inr r =>
        have hstep : authSysStep s (.step t) =
            some ({ s₁ with frames := Function.update s₁.frames t none }, [.ret t f.op r]) := by
          simp [authSysStep, hf, h.users, ho, hs₁]
        obtain ⟨H, a', content', -, -, h'⟩ := h.step hok hstep
        refine ⟨_, _, a', content', Runs.one hok hstep, h',
          ⟨r, List.mem_singleton_self _⟩, ?_, ?_⟩
        · have hidle := h'.thread t
          simp only [Function.update_self] at hidle
          rcases hm₁ with e | e
          · exact e
          · exact absurd e hidle.2
        · intro u hu
          rw [← hframes]
          exact Function.update_of_ne hu _ _

/-- Every call can return: whoever has the mutex finishes first. -/
theorem Refines.returns {s : AuthSys τ} {a : AtomicState τ UserMap UserOp Int}
    {content : Bytes} (h : Refines s a content) {t : τ} {f : AuthFrame}
    (hf : s.frames t = some f) :
    ∃ log s', Runs authSysStep WellCalled s log s' ∧ ∃ r, .ret t f.op r ∈ log := by
  have hdirect : ∀ {s : AuthSys τ} {a : AtomicState τ UserMap UserOp Int} {content : Bytes},
      Refines s a content → s.frames t = some f → s.mutx = none ∨ s.mutx = some t →
      ∃ log s', Runs authSysStep WellCalled s log s' ∧ ∃ r, .ret t f.op r ∈ log := by
    intro s a content h hf hm
    obtain ⟨log, s', -, -, hrun, -, hr, -⟩ := h.finish _ hf (Nat.lt_succ_self _) hm
    exact ⟨log, s', hrun, hr⟩
  cases hm : s.mutx with
  | none => exact hdirect h hf (Or.inl hm)
  | some u =>
    by_cases hu : t = u
    · exact hdirect h hf (Or.inr (hu ▸ hm))
    · have hthread := h.thread u
      cases hg : s.frames u with
      | none =>
        rw [hg] at hthread
        exact absurd hm hthread.2
      | some g =>
        obtain ⟨log, s', a', content', hrun, h', -, hfree, hothers⟩ :=
          h.finish _ hg (Nat.lt_succ_self _) (Or.inr hm)
        obtain ⟨log', s'', hrun', r, hr⟩ := hdirect h' ((hothers t hu).trans hf) (Or.inl hfree)
        exact ⟨_, s'', hrun.trans hrun', r, List.mem_append_right log hr⟩

/-! ## 6. The result -/

omit [DecidableEq τ] in
/-- Wins are visible. -/
theorem countP_visible (id : Bytes) (H : List (CallEvent τ UserOp Int)) :
    (H.filterMap CallEvent.visible).countP (isWin id) = H.countP (isWin id) := by
  induction H with
  | nil => rfl
  | cons e H ih =>
    cases e with
    | lin t op r =>
      rw [List.filterMap_cons_none rfl, List.countP_cons_of_neg Bool.false_ne_true, ih]
    | inv t op =>
      simp only [List.filterMap_cons, CallEvent.visible, List.countP_cons, ih]
    | ret t op r =>
      simp only [List.filterMap_cons, CallEvent.visible, List.countP_cons, ih]

omit [DecidableEq τ] in
theorem ret_mem_of_visible {t : τ} {op : UserOp} {r : Int}
    {H : List (CallEvent τ UserOp Int)} (h : .ret t op r ∈ H.filterMap CallEvent.visible) :
    .ret t op r ∈ H := by
  obtain ⟨e, he, hvis⟩ := List.mem_filterMap.mp h
  cases e with
  | lin _ _ _ => cases hvis
  | inv _ _ => cases hvis
  | ret _ _ _ => exact Option.some.inj hvis ▸ he

/-- A call stands in the atomic object with its own operation. -/
theorem Progress.phase {content : Bytes} {m : UserMap} {f : AuthFrame} {ph : Phase UserOp Int}
    (h : Progress content m f ph) : ph = .called f.op ∨ ∃ r, ph = .answered f.op r := by
  unfold Progress at h
  cases hpc : f.pc <;> simp only [hpc] at h
  case existClose => exact Or.inr ⟨_, h.1⟩
  case regUnlock => exact Or.inr ⟨_, h⟩
  case loginReturn => exact Or.inr ⟨_, h⟩
  all_goals exact Or.inl h.1

omit [DecidableEq τ] in
theorem Refines.not_winner {s : AuthSys τ} {a : AtomicState τ UserMap UserOp Int}
    {content : Bytes} (h : Refines s a content) {id : Bytes}
    (hno : ∀ t f, s.frames t = some f → ∀ pw, f.op ≠ .register id pw) (t : τ) :
    ¬ Winner id (a.phase t) := by
  rintro ⟨pw, hph⟩
  have hthread := h.thread t
  cases hf : s.frames t with
  | none =>
    rw [hf, hph] at hthread
    cases hthread.1
  | some f =>
    rw [hf, hph] at hthread
    rcases hthread.2.2.2.phase with e | ⟨r, e⟩
    · cases e
    · obtain ⟨hop, -⟩ := (Phase.answered.injEq _ _ _ _).mp e
      exact hno t f hf pw hop.symm

/-- Concurrent calls of `process_auth` are those of an atomic map of users: in every run each
call takes effect in one instant between its call and its return, and `users.txt` is the list
of the records of the map, each id once.  Of the registrations of an id at most one succeeds,
and exactly one when some have returned and none is under way.  And in every state that can be
reached each call can be run to its return. -/
theorem process_auth_atomic {log : List (CallEvent τ UserOp Int)} {s : AuthSys τ}
    (h : Runs authSysStep WellCalled AuthSys.init log s) :
    (∃ H a, AtomicRuns UserMap.apply (.init .empty) H a ∧
      H.filterMap CallEvent.visible = log ∧
      ∃ recs, s.users = some (encodeUsers recs) ∧ (recs.map Prod.fst).Nodup ∧
        ∀ id, a.value id = recs.lookup id) ∧
    (∀ id, log.countP (isWin id) ≤ 1 ∧
      ((∃ t pw r, .ret t (.register id pw) r ∈ log) →
        (∀ t f, s.frames t = some f → ∀ pw, f.op ≠ .register id pw) →
        log.countP (isWin id) = 1)) ∧
    ∀ t f, s.frames t = some f →
      ∃ log' s', Runs authSysStep WellCalled s log' s' ∧ ∃ r, .ret t f.op r ∈ log' := by
  obtain ⟨H, a, hrun, hvis, content, hR⟩ :
      ∃ H a, AtomicRuns UserMap.apply (.init .empty) H a ∧ H.filterMap CallEvent.visible = log ∧
        ∃ content, Refines s a content := by
    refine h.simulates (R := fun s a => ∃ content, Refines s a content) ⟨[], refines_init⟩ ?_
    rintro s act s' ev a ⟨content, hR⟩ hok hs
    obtain ⟨H, a', content', hrun, hvis, hR'⟩ := hR.step hok hs
    exact ⟨H, a', hrun, hvis, content', hR'⟩
  refine ⟨?_, ?_, fun t f hf => hR.returns hf⟩
  · obtain ⟨recs, hs⟩ := hR.represents
    exact ⟨H, a, hrun, hvis, recs, by rw [hR.users, hs.content_eq], hs.nodup, hs.lookup⟩
  · intro id
    have hone := oneWinner_of_runs id hrun
    rw [← hvis, countP_visible]
    constructor
    · rcases hone.tally with ⟨-, hn, -⟩ | ⟨-, hn, -⟩ | ⟨-, hn, -⟩
      · exact hn ▸ Nat.zero_le 1
      · exact hn ▸ Nat.zero_le 1
      · exact hn.le
    · rintro ⟨t, pw, r, hr⟩ hno
      have hbound := hone.ret_bound (ret_mem_of_visible hr)
      rcases hone.tally with ⟨hb, -, -⟩ | ⟨-, -, u, hu⟩ | ⟨-, hn, -⟩
      · exact absurd hb hbound
      · exact absurd ((hu u).mpr rfl) (hR.not_winner hno u)
      · exact hn

/-- Two handlers register one id at once, with different passwords. -/
def twoRegister : List (AuthAction Bool) :=
  [.call false REGISTER (utf8 "kim") (utf8 "a1") [] [],
    .call true REGISTER (utf8 "kim") (utf8 "b2") [] []] ++
  List.replicate 8 (.step true) ++ List.replicate 6 (.step false)

/-- What the two handlers see: the second one was faster. -/
def twoRegisterLog : List (CallEvent Bool UserOp Int) :=
  [.inv false (.register (utf8 "kim") (utf8 "a1")),
    .inv true (.register (utf8 "kim") (utf8 "b2")),
    .ret true (.register (utf8 "kim") (utf8 "b2")) 0,
    .ret false (.register (utf8 "kim") (utf8 "a1")) (-1)]

theorem process_auth_atomic_two : ∃ s, Runs authSysStep WellCalled AuthSys.init twoRegisterLog s ∧
    twoRegisterLog.countP (isWin (utf8 "kim")) = 1 := by
  obtain ⟨log, s, hrun, hp⟩ : ∃ log s, Runs authSysStep WellCalled AuthSys.init log s ∧
      ((s.frames false).isNone && (s.frames true).isNone && log == twoRegisterLog) = true :=
    exists_runs_of_exec twoRegister _ (by decide +kernel)
  simp only [Bool.and_eq_true, Option.isNone_iff_eq_none, beq_iff_eq] at hp
  obtain ⟨⟨hfalse, htrue⟩, rfl⟩ := hp
  refine ⟨s, hrun, ((process_auth_atomic hrun).2.1 (utf8 "kim")).2 ?_ ?_⟩
  · exact ⟨true, utf8 "b2", 0, by decide⟩
  · intro t f hf
    cases t with
    | false => simp [hfalse] at hf
    | true => simp [htrue] at hf

end PosixLab.Chat
