/-
# The users file and `process_auth`

`process_auth(mode, id, pw)` of `gui_server.c` registers a user or checks a login.  It takes
the mutex, scans `users.txt` for the id with `fscanf(fp, "%s %s", file_id, file_pw)`, and then
either appends a record `id pw` or compares the password it stopped at.

The function is modelled twice.

* `authStep` is the code, one statement at a time, as a thread of the server runs it beside
  others: what a statement does to the state it shares with them is its `Sync`.
* `processAuth` is what the whole call computes from the contents of the file, with the scan
  loop as a walk over the words of the file (`findUser`).

`soloRun_call` connects them: a call that nobody disturbs runs to its return and computes
`processAuth`.
-/
import PosixLab.Basis.CString

namespace PosixLab.Chat

open PosixLab

/-! ## 1. The statements of `process_auth` -/

/-- The mode word of a registration. -/
def REGISTER : Bytes := utf8 "REGISTER"

/-- The mode word of a login. -/
def LOGIN : Bytes := utf8 "LOGIN"

/-- An open `FILE`: where it reads or writes next, and the output it has not written out. -/
structure Stream where
  pos : Nat
  out : Bytes

/-- The contents of the file after `fclose`, which writes the pending output out. -/
def Stream.close (content : Bytes) (fp : Stream) : Bytes :=
  content.take fp.pos ++ fp.out ++ content.drop (fp.pos + fp.out.length)

theorem Stream.close_of_end (content : Bytes) {fp : Stream} (h : fp.pos = content.length) :
    fp.close content = content ++ fp.out := by
  simp [Stream.close, h]

/-- The call `fscanf(fp, "%s %s", file_id, file_pw)`.  At the end of the file it returns EOF,
here `none`; otherwise the C strings the two arrays hold afterwards, and the new position.  When
only one word is left `file_pw` keeps what it held. -/
def fscanf (content : Bytes) (pos : Nat) (filePw : Bytes) : Option (Bytes × Bytes × Nat) :=
  match scanWord (content.drop pos) with
  | none => none
  | some (w₀, r₀) =>
    match scanWord r₀ with
    | none => some (cstr w₀, filePw, content.length)
    | some (w₁, r₁) => some (cstr w₀, cstr w₁, content.length - r₁.length)

/-- The text of `fprintf(fp, "%s %s\n", id, pw)`. -/
def record (id pw : Bytes) : Bytes := id ++ 32 :: (pw ++ [10])

/-- The statements of `process_auth`, named after what they do next. -/
inductive AuthPc
  | lock
  | fopen
  | fscanf
  | branch
  /-- `REGISTER` of an id that exists: unlock, then `fclose` and return -1. -/
  | existUnlock
  | existClose
  /-- `REGISTER` of a new id: seek to the end, print, close, unlock and return 0. -/
  | fseek
  | fprintf
  | regClose
  | regUnlock
  /-- Any other mode: close, unlock, then compare outside the lock. -/
  | loginClose
  | loginUnlock
  | loginReturn
deriving DecidableEq

/-- The frame of a call: its arguments and local variables.  The arguments and the arrays are
given as the C strings they hold. -/
structure AuthFrame where
  pc : AuthPc
  mode : Bytes
  id : Bytes
  pw : Bytes
  fileId : Bytes
  filePw : Bytes
  found : Bool
  fp : Stream

/-- A call that starts; `fileId` and `filePw` are whatever its arrays held before. -/
def AuthFrame.call (mode id pw fileId filePw : Bytes) : AuthFrame :=
  ⟨.lock, mode, id, pw, fileId, filePw, false, ⟨0, []⟩⟩

/-- What a statement does to the state that the threads share. -/
inductive Sync
  | skip
  | lock
  | unlock
  | users (content : Bytes)
deriving DecidableEq

/-- The value a login returns. -/
def loginResult (f : AuthFrame) : Int :=
  if f.found = false then -2 else if f.filePw = f.pw then 0 else -1

/-- One statement of `process_auth`, given `users.txt` (`none` while there is no such file):
the frame after it, or the value returned, and its effect. -/
def authStep (users : Option Bytes) (f : AuthFrame) : (AuthFrame ⊕ Int) × Sync :=
  match f.pc with
  | .lock => (.inl { f with pc := .fopen }, .lock)
  | .fopen =>
    match users with
    | some _ => (.inl { f with pc := .fscanf, fp := ⟨0, []⟩ }, .skip)
    | none => (.inl { f with pc := .fscanf, fp := ⟨0, []⟩ }, .users [])
  | .fscanf =>
    match Chat.fscanf (users.getD []) f.fp.pos f.filePw with
    | none => (.inl { f with pc := .branch }, .skip)
    | some (fileId, filePw, pos) =>
      let f' := { f with fileId := fileId, filePw := filePw, fp := { f.fp with pos := pos } }
      if fileId = f.id then (.inl { f' with pc := .branch, found := true }, .skip)
      else (.inl f', .skip)
  | .branch =>
    if f.mode = REGISTER then
      if f.found = true then (.inl { f with pc := .existUnlock }, .skip)
      else (.inl { f with pc := .fseek }, .skip)
    else (.inl { f with pc := .loginClose }, .skip)
  | .existUnlock => (.inl { f with pc := .existClose }, .unlock)
  | .existClose =>
    (.inr (-1), if f.fp.out = [] then .skip else .users (f.fp.close (users.getD [])))
  | .fseek =>
    (.inl { f with pc := .fprintf, fp := { f.fp with pos := (users.getD []).length } }, .skip)
  | .fprintf =>
    (.inl { f with pc := .regClose, fp := { f.fp with out := f.fp.out ++ record f.id f.pw } },
      .skip)
  | .regClose =>
    (.inl { f with pc := .regUnlock },
      if f.fp.out = [] then .skip else .users (f.fp.close (users.getD [])))
  | .regUnlock => (.inr 0, .unlock)
  | .loginClose =>
    (.inl { f with pc := .loginUnlock },
      if f.fp.out = [] then .skip else .users (f.fp.close (users.getD [])))
  | .loginUnlock => (.inl { f with pc := .loginReturn }, .unlock)
  | .loginReturn => (.inr (loginResult f), .skip)

/-! ## 2. The mutex -/

/-- Between the statement that takes the mutex and the one that releases it. -/
def AuthPc.holds : AuthPc → Bool
  | .lock | .existClose | .loginReturn => false
  | _ => true

/-- What a statement may do to the shared state, by whether its call has the mutex. -/
def Sync.Allowed (holds : Bool) : Sync → Prop
  | .skip => True
  | .lock => holds = false
  | .unlock => holds = true
  | .users _ => holds = true

/-- Whether the call has the mutex afterwards. -/
def Sync.holds (holds : Bool) : Sync → Bool
  | .lock => true
  | .unlock => false
  | _ => holds

/-- Output is pending only between the print and the close of a registration. -/
def AuthFrame.Flushed (f : AuthFrame) : Prop :=
  f.pc = .regClose ∨ f.pc = .regUnlock ∨ f.fp.out = []

theorem flushed_call (mode id pw fileId filePw : Bytes) :
    (AuthFrame.call mode id pw fileId filePw).Flushed := Or.inr (Or.inr rfl)

/-- A call locks and unlocks in turn, and touches the file only while it has the mutex. -/
theorem authStep_sync (users : Option Bytes) {f : AuthFrame} (hf : f.Flushed) :
    (authStep users f).2.Allowed f.pc.holds ∧
      match (authStep users f).1 with
      | .inl f' => (authStep users f).2.holds f.pc.holds = f'.pc.holds ∧ f'.Flushed
      | .inr _ => (authStep users f).2.holds f.pc.holds = false := by
  cases hpc : f.pc with
  | regClose =>
    simp only [authStep, hpc]
    split
    · exact ⟨trivial, rfl, Or.inr (Or.inl rfl)⟩
    · exact ⟨rfl, rfl, Or.inr (Or.inl rfl)⟩
  | regUnlock =>
    simp only [authStep, hpc]
    exact ⟨rfl, rfl⟩
  | fprintf =>
    simp only [authStep, hpc]
    exact ⟨trivial, rfl, Or.inl rfl⟩
  | fopen =>
    simp only [authStep, hpc]
    cases users with
    | none => exact ⟨rfl, rfl, Or.inr (Or.inr rfl)⟩
    | some content => exact ⟨trivial, rfl, Or.inr (Or.inr rfl)⟩
  | fscanf =>
    have hout : f.fp.out = [] := by simpa [AuthFrame.Flushed, hpc] using hf
    cases he : Chat.fscanf (users.getD []) f.fp.pos f.filePw with
    | none =>
      simp only [authStep, hpc, he]
      exact ⟨trivial, rfl, Or.inr (Or.inr hout)⟩
    | some r =>
      simp only [authStep, hpc, he]
      split
      · exact ⟨trivial, rfl, Or.inr (Or.inr hout)⟩
      · exact ⟨trivial, by simp [Sync.holds], Or.inr (Or.inr hout)⟩
  | branch =>
    have hout : f.fp.out = [] := by simpa [AuthFrame.Flushed, hpc] using hf
    simp only [authStep, hpc]
    split
    · split
      · exact ⟨trivial, rfl, Or.inr (Or.inr hout)⟩
      · exact ⟨trivial, rfl, Or.inr (Or.inr hout)⟩
    · exact ⟨trivial, rfl, Or.inr (Or.inr hout)⟩
  | existClose =>
    have hout : f.fp.out = [] := by simpa [AuthFrame.Flushed, hpc] using hf
    simp only [authStep, hpc, hout, if_true]
    exact ⟨trivial, rfl⟩
  | loginClose =>
    have hout : f.fp.out = [] := by simpa [AuthFrame.Flushed, hpc] using hf
    simp only [authStep, hpc, hout, if_true]
    exact ⟨trivial, rfl, Or.inr (Or.inr hout)⟩
  | loginReturn =>
    simp only [authStep, hpc]
    exact ⟨trivial, rfl⟩
  | lock =>
    have hout : f.fp.out = [] := by simpa [AuthFrame.Flushed, hpc] using hf
    simp only [authStep, hpc]
    exact ⟨rfl, rfl, Or.inr (Or.inr hout)⟩
  | existUnlock | loginUnlock =>
    have hout : f.fp.out = [] := by simpa [AuthFrame.Flushed, hpc] using hf
    simp only [authStep, hpc]
    exact ⟨rfl, rfl, Or.inr (Or.inr hout)⟩
  | fseek =>
    have hout : f.fp.out = [] := by simpa [AuthFrame.Flushed, hpc] using hf
    simp only [authStep, hpc]
    exact ⟨trivial, rfl, Or.inr (Or.inr hout)⟩

/-! ## 3. What a whole call computes -/

/-- The words of `users.txt` as the C strings that `%s` makes of them. -/
def fileWords (content : Bytes) : List Bytes := (words content).map cstr

/-- The scan loop over the words that are left: they are read two by two until the first of a
pair is the id.  The result is `file_pw` at that moment.  A last word without a partner counts
as an id, with the password read before it. -/
def findUser (id : Bytes) : List Bytes → Bytes → Option Bytes
  | [], _ => none
  | [w], filePw => if w = id then some filePw else none
  | w :: w' :: ws, _ => if w = id then some w' else findUser id ws w'

/-- The effect and the value of `process_auth(mode, id, pw)` on the contents of the file;
`filePw` is what the array `file_pw` held before. -/
def processAuth (content mode id pw filePw : Bytes) : Bytes × Int :=
  match findUser id (fileWords content) filePw with
  | some p => (content, if mode = REGISTER then -1 else if p = pw then 0 else -1)
  | none => if mode = REGISTER then (content ++ record id pw, 0) else (content, -2)

/-! ## 4. A call that runs alone -/

/-- The file after an effect. -/
def Sync.file (users : Option Bytes) : Sync → Option Bytes
  | .users content => some content
  | _ => users

@[simp] theorem Sync.file_skip (users : Option Bytes) : Sync.skip.file users = users := rfl

@[simp] theorem Sync.file_lock (users : Option Bytes) : Sync.lock.file users = users := rfl

@[simp] theorem Sync.file_unlock (users : Option Bytes) : Sync.unlock.file users = users := rfl

@[simp] theorem Sync.file_users (users : Option Bytes) (content : Bytes) :
    (Sync.users content).file users = some content := rfl

/-- Run a call by itself for at most `fuel` statements, to the file it leaves and the value it
returns. -/
def soloRun : Nat → Option Bytes → AuthFrame → Option (Option Bytes × Int)
  | 0, _, _ => none
  | fuel + 1, users, f =>
    match authStep users f with
    | (.inl f', y) => soloRun fuel (y.file users) f'
    | (.inr r, y) => some (y.file users, r)

theorem soloRun_inl {users : Option Bytes} {f g : AuthFrame} {y : Sync} (n : Nat)
    (h : authStep users f = (.inl g, y)) :
    soloRun (n + 1) users f = soloRun n (y.file users) g := by
  rw [soloRun, h]

theorem soloRun_inr {users : Option Bytes} {f : AuthFrame} {r : Int} {y : Sync} (n : Nat)
    (h : authStep users f = (.inr r, y)) :
    soloRun (n + 1) users f = some (y.file users, r) := by
  rw [soloRun, h]

/-- One iteration of the scan loop, in terms of the words that are left. -/
theorem fscanf_cases (content : Bytes) (pos : Nat) (filePw : Bytes) :
    (fscanf content pos filePw = none ∧ fileWords (content.drop pos) = []) ∨
    (∃ w pos', fscanf content pos filePw = some (w, filePw, pos') ∧
      fileWords (content.drop pos) = [w] ∧ fileWords (content.drop pos') = []) ∨
    (∃ w w' pos', fscanf content pos filePw = some (w, w', pos') ∧
      fileWords (content.drop pos) = w :: w' :: fileWords (content.drop pos')) := by
  unfold fscanf fileWords
  cases h₀ : scanWord (content.drop pos) with
  | none => exact Or.inl ⟨rfl, by rw [scanWord_eq_none.mp h₀, List.map_nil]⟩
  | some p₀ =>
    obtain ⟨w₀, r₀⟩ := p₀
    simp only [words_of_scanWord h₀, List.map_cons]
    cases h₁ : scanWord r₀ with
    | none =>
      refine Or.inr (Or.inl ⟨cstr w₀, content.length, rfl, ?_, ?_⟩)
      · rw [scanWord_eq_none.mp h₁, List.map_nil]
      · rw [List.drop_length, words_nil, List.map_nil]
    | some p₁ =>
      obtain ⟨w₁, r₁⟩ := p₁
      refine Or.inr (Or.inr ⟨cstr w₀, cstr w₁, content.length - r₁.length, rfl, ?_⟩)
      -- what is left is a tail of the file, so its length gives the position back
      have hsuf : r₁ <:+ content :=
        ((scanWord_suffix h₁).trans (scanWord_suffix h₀)).trans (List.drop_suffix _ _)
      rw [words_of_scanWord h₁, List.map_cons, ← List.suffix_iff_eq_drop.mp hsuf]

section

variable (users : Option Bytes) {f : AuthFrame} {w p : Bytes} {pos : Nat}

theorem authStep_fscanf_eof (hpc : f.pc = .fscanf)
    (h : fscanf (users.getD []) f.fp.pos f.filePw = none) :
    authStep users f = (.inl { f with pc := .branch }, .skip) := by
  simp [authStep, hpc, h]

theorem authStep_fscanf_hit (hpc : f.pc = .fscanf)
    (h : fscanf (users.getD []) f.fp.pos f.filePw = some (f.id, p, pos)) :
    authStep users f =
      (.inl { f with pc := .branch, fileId := f.id, filePw := p, found := true,
                     fp := ⟨pos, f.fp.out⟩ }, .skip) := by
  simp [authStep, hpc, h]

theorem authStep_fscanf_miss (hpc : f.pc = .fscanf)
    (h : fscanf (users.getD []) f.fp.pos f.filePw = some (w, p, pos)) (hw : w ≠ f.id) :
    authStep users f =
      (.inl { f with fileId := w, filePw := p, fp := ⟨pos, f.fp.out⟩ }, .skip) := by
  simp [authStep, hpc, h, hw]

end

/-- The statements behind the scan loop. -/
theorem soloRun_branch (content : Bytes) {f : AuthFrame} (hpc : f.pc = .branch)
    (hout : f.fp.out = []) (n : Nat) :
    soloRun (n + 7) (some content) f = some
      (if f.mode = REGISTER then
        if f.found = true then (some content, -1)
        else (some (content ++ record f.id f.pw), 0)
      else (some content, loginResult f)) := by
  by_cases hm : f.mode = REGISTER
  · rw [if_pos hm]
    by_cases hf : f.found = true
    · rw [if_pos hf,
        soloRun_inl (y := .skip) (g := { f with pc := .existUnlock }) _
          (by simp [authStep, hpc, hm, hf]),
        soloRun_inl (y := .unlock) (g := { f with pc := .existClose }) _ rfl,
        soloRun_inr (y := .skip) (r := -1) _ (by simp [authStep, hout])]
      rfl
    · have hne : record f.id f.pw ≠ [] := by simp [record]
      rw [if_neg hf,
        soloRun_inl (y := .skip) (g := { f with pc := .fseek }) _
          (by simp [authStep, hpc, hm, hf]),
        soloRun_inl (y := .skip) _ rfl,
        soloRun_inl (y := .skip)
          (g := { f with pc := .regClose, fp := ⟨content.length, record f.id f.pw⟩ }) _
          (by simp [authStep, hout]),
        soloRun_inl (y := .users (content ++ record f.id f.pw))
          (g := { f with pc := .regUnlock, fp := ⟨content.length, record f.id f.pw⟩ }) _
          (by simp [authStep, hne, Stream.close_of_end]),
        soloRun_inr (y := .unlock) (r := 0) _ rfl]
      rfl
  · rw [if_neg hm,
      soloRun_inl (y := .skip) (g := { f with pc := .loginClose }) _
        (by simp [authStep, hpc, hm]),
      soloRun_inl (y := .skip) (g := { f with pc := .loginUnlock }) _
        (by simp [authStep, hout]),
      soloRun_inl (y := .unlock) (g := { f with pc := .loginReturn }) _ rfl,
      soloRun_inr (y := .skip) _ rfl]
    rfl

/-- The file and the value a call leads to, when its scan loop has `ws` left to read. -/
def outcome (content : Bytes) (f : AuthFrame) (ws : List Bytes) : Option Bytes × Int :=
  match findUser f.id ws f.filePw with
  | some p => (some content, if f.mode = REGISTER then -1 else if p = f.pw then 0 else -1)
  | none =>
    if f.mode = REGISTER then (some (content ++ record f.id f.pw), 0) else (some content, -2)

/-- A record was found: what the statements behind the loop then do. -/
theorem outcome_found {content : Bytes} {f : AuthFrame} {ws : List Bytes} {p : Bytes}
    (h : findUser f.id ws f.filePw = some p) :
    outcome content f ws =
      if f.mode = REGISTER then (some content, -1)
      else (some content, if p = f.pw then 0 else -1) := by
  simp only [outcome, h]
  split <;> rfl

/-- The scan loop ends, and the call with it.  The induction is on the number of words that are
left, of which each iteration reads one or two. -/
theorem soloRun_scan (content : Bytes) : ∀ (n : Nat) (f : AuthFrame),
    f.pc = .fscanf → f.found = false → f.fp.out = [] →
    (fileWords (content.drop f.fp.pos)).length ≤ n →
    soloRun (n + 8) (some content) f =
      some (outcome content f (fileWords (content.drop f.fp.pos)))
  | n, f, hpc, hfound, hout, hlen => by
    rcases fscanf_cases content f.fp.pos f.filePw with
      ⟨h, hws⟩ | ⟨w, pos, h, hws, hrest⟩ | ⟨w, w', pos, h, hws⟩
    · -- end of the file
      rw [soloRun_inl _ (authStep_fscanf_eof (some content) hpc h), Sync.file_skip,
        soloRun_branch content (by rfl) (by exact hout), hws]
      simp only [outcome, findUser, loginResult, hfound, Bool.false_eq_true, if_false, if_true]
    · -- a last word without a partner
      by_cases hw : w = f.id
      · subst hw
        rw [soloRun_inl _ (authStep_fscanf_hit (some content) hpc h), Sync.file_skip,
          soloRun_branch content (by rfl) (by exact hout), hws,
          outcome_found (p := f.filePw) (by simp [findUser])]
        rfl
      · obtain ⟨k, rfl⟩ : ∃ k, n = k + 1 := ⟨n - 1, by rw [hws] at hlen; simp at hlen; omega⟩
        rw [soloRun_inl _ (authStep_fscanf_miss (some content) hpc h hw), Sync.file_skip,
          soloRun_scan content k _ (by exact hpc) (by exact hfound) (by exact hout)
            (by simp [hrest]), hws]
        simp [outcome, findUser, hw, hrest]
    · by_cases hw : w = f.id
      · subst hw
        rw [soloRun_inl _ (authStep_fscanf_hit (some content) hpc h), Sync.file_skip,
          soloRun_branch content (by rfl) (by exact hout), hws,
          outcome_found (p := w') (by simp [findUser])]
        rfl
      · rw [hws] at hlen
        simp only [List.length_cons] at hlen
        obtain ⟨k, rfl⟩ : ∃ k, n = k + 1 := ⟨n - 1, by omega⟩
        rw [soloRun_inl _ (authStep_fscanf_miss (some content) hpc h hw), Sync.file_skip,
          soloRun_scan content k _ (by exact hpc) (by exact hfound) (by exact hout)
            (by simp; omega), hws]
        simp [outcome, findUser, hw]

/-- A call that nobody disturbs returns, and computes `processAuth`.  A missing file counts as
an empty one, which the call creates. -/
theorem soloRun_call (users : Option Bytes) (mode id pw fileId filePw : Bytes) :
    ∃ n, soloRun n users (.call mode id pw fileId filePw) =
      some ((some (processAuth (users.getD []) mode id pw filePw).1),
        (processAuth (users.getD []) mode id pw filePw).2) := by
  refine ⟨(fileWords (users.getD [])).length + 8 + 2, ?_⟩
  have hopen : soloRun ((fileWords (users.getD [])).length + 8 + 2) users
        (.call mode id pw fileId filePw) =
      soloRun ((fileWords (users.getD [])).length + 8) (some (users.getD []))
        { AuthFrame.call mode id pw fileId filePw with pc := .fscanf } := by
    rw [soloRun_inl (y := .lock) _ rfl]
    cases users with
    | none => exact soloRun_inl (y := .users []) _ rfl
    | some content => exact soloRun_inl (y := .skip) _ rfl
  rw [hopen, soloRun_scan _ _ _ rfl rfl rfl (by simp [AuthFrame.call])]
  simp only [outcome, processAuth, AuthFrame.call, List.drop_zero]
  cases findUser id (fileWords (users.getD [])) filePw with
  | none => by_cases hm : mode = REGISTER <;> simp [hm]
  | some p =>
    by_cases hm : mode = REGISTER
    · simp [hm]
    · simp only [hm, if_false]
      rfl

end PosixLab.Chat
