/-
# Copying a file

`cmd_cp` opens the source, opens the destination with `O_TRUNC`, and then copies block by block.
The loop looks neither at what `write` returns nor at why `read` has ended it.  `Copying` is what
holds between two rounds: the destination is as long as what was read only as long as every write
was whole.  The runs are read with their log, so that a statement can speak of the results of the
calls.  `cp_keeps_source_iff` says when the source survives, `silent_copy_iff` when a copy about
which nothing was reported is complete.
-/
import PosixLab.Shell.Questions

namespace PosixLab.Shell

open Prog FileSys

/-! ## 1. Contents and logs -/

/-- What can be read from the file that a path leads to. -/
def Disk.contents (s : Disk) (path : Bytes) : Option Bytes :=
  (s.fs.target s.cwd path).bind s.fs.data

/-- The calls of a run, with their results. -/
abbrev Trace := Log Call Call.Result

/-- What a call has read. -/
def received : (Σ c : Call, c.Result) → Bytes
  | ⟨.read _ _, some data⟩ => data
  | _ => []

/-- If the call is a `write`, it wrote all it was given. -/
def IsWhole : (Σ c : Call, c.Result) → Prop
  | ⟨.write _ data, n⟩ => n = some data.length
  | _ => True

/-- The call has opened a file for writing. -/
def OpensDest : (Σ c : Call, c.Result) → Prop
  | ⟨.openFile _ .write, some _⟩ => True
  | _ => False

/-- All that was read, in order. -/
def readBytes (log : Trace) : Bytes := log.flatMap received

/-- Every write was whole. -/
def Whole (log : Trace) : Prop := ∀ e ∈ log, IsWhole e

/-- The destination was opened. -/
def Opened (log : Trace) : Prop := ∃ e ∈ log, OpensDest e

section

variable {log log' : Trace} {e : Σ c : Call, c.Result}

@[simp] theorem readBytes_nil : readBytes [] = [] := rfl

@[simp] theorem readBytes_cons : readBytes (e :: log) = received e ++ readBytes log := rfl

@[simp] theorem readBytes_append : readBytes (log ++ log') = readBytes log ++ readBytes log' := by
  simp [readBytes]

@[simp] theorem whole_nil : Whole [] := by simp [Whole]

@[simp] theorem whole_cons : Whole (e :: log) ↔ IsWhole e ∧ Whole log := by simp [Whole]

@[simp] theorem whole_append : Whole (log ++ log') ↔ Whole log ∧ Whole log' := by
  simp [Whole, or_imp, forall_and]

@[simp] theorem not_opened_nil : ¬ Opened [] := by simp [Opened]

@[simp] theorem opened_cons : Opened (e :: log) ↔ OpensDest e ∨ Opened log := by simp [Opened]

@[simp] theorem opened_append : Opened (log ++ log') ↔ Opened log ∨ Opened log' := by
  simp [Opened, or_and_right, exists_or]

end

/-- Writing at the end of a file. -/
theorem overwritten_end (text data : Bytes) : overwritten text text.length data = text ++ data := by
  simp [overwritten]

/-! ## 2. The loop -/

/-- Between two calls of the loop that copies the file `i` to the file `j`: `rest` was read and not
yet written.  What was read is the beginning of the source.  What stands in the destination is
all of it that there was to write, or less of it, once a write was not whole. -/
structure Copying (s₀ : Disk) (i j : Ino) (sfd dfd : Fd) (rest : Bytes) (t : Disk × Trace) :
    Prop where
  grows : Grows s₀.fs t.1.fs
  cwd : t.1.cwd = s₀.cwd
  errors : t.1.errors = s₀.errors
  source : t.1.fs.data i = s₀.fs.data i
  reading : t.1.files sfd = some (i, (readBytes t.2).length)
  part : readBytes t.2 <+: (s₀.fs.data i).getD []
  opened : Opened t.2
  writing : ∃ past text, readBytes t.2 = past ++ rest ∧ t.1.fs.data j = some text ∧
    t.1.files dfd = some (j, text.length) ∧
    (Whole t.2 ∧ text = past ∨ ¬ Whole t.2 ∧ text.length < past.length)

section

variable {s₀ s s' : Disk} {i j : Ino} {sfd dfd : Fd} {rest data : Bytes} {log : Trace}

/-- Reading a block. -/
theorem Copying.read (h : Copying s₀ i j sfd dfd [] (s, log)) (hfd : sfd ≠ dfd) {size : Nat}
    (hc : diskSys s (.read sfd size) (some data) s') :
    Copying s₀ i j sfd dfd data (s', log ++ [⟨.read sfd size, some data⟩]) := by
  obtain ⟨k, off, text, hfile, hnode, hpre, -, -, rfl⟩ := hc
  obtain ⟨rfl, rfl⟩ : i = k ∧ (readBytes log).length = off := by
    simpa using h.reading.symm.trans hfile
  have htext : s₀.fs.data i = some text := h.source.symm.trans (data_eq_some.mpr hnode)
  have hpart : readBytes log <+: text := by
    simpa [htext] using h.part
  obtain ⟨past, old, hpast, hold, hdfd, hwhole⟩ := h.writing
  refine ⟨h.grows, h.cwd, h.errors, h.source, ?_, ?_, by simpa [OpensDest] using h.opened,
    past, old, ?_, hold, ?_, by simpa [IsWhole] using hwhole⟩
  · simp [Disk.seek, received]
  · obtain ⟨tail, rfl⟩ := hpart
    rw [List.drop_left] at hpre
    simpa [htext, received] using hpre
  · rw [readBytes_append, hpast]
    simp [received]
  · exact (Function.update_of_ne hfd.symm _ _).trans hdfd

/-- A read that fails. -/
theorem Copying.read_none (h : Copying s₀ i j sfd dfd [] (s, log)) (size : Nat) :
    Copying s₀ i j sfd dfd [] (s, log ++ [⟨.read sfd size, none⟩]) := by
  obtain ⟨past, old, hpast, hold, hdfd, hwhole⟩ := h.writing
  refine ⟨h.grows, h.cwd, h.errors, h.source, ?_, ?_, by simpa [OpensDest] using h.opened,
    past, old, ?_, hold, hdfd, by simpa [IsWhole] using hwhole⟩
  · simpa [received] using h.reading
  · simpa [received] using h.part
  · simpa [received] using hpast

/-- Writing the block, whatever comes of it. -/
theorem Copying.write (h : Copying s₀ i j sfd dfd rest (s, log)) (hfd : sfd ≠ dfd) (hij : i ≠ j)
    (hrest : rest ≠ []) {n : Option Nat} (hc : diskSys s (.write dfd rest) n s') :
    Copying s₀ i j sfd dfd [] (s', log ++ [⟨.write dfd rest, n⟩]) := by
  obtain ⟨past, old, hpast, hold, hdfd, hwhole⟩ := h.writing
  have hlen : 0 < rest.length := List.length_pos_iff.mpr hrest
  have hread : readBytes (log ++ [⟨.write dfd rest, n⟩]) = readBytes log := by
    simp [received]
  have hopened : Opened (log ++ [⟨.write dfd rest, n⟩]) := opened_append.mpr (.inl h.opened)
  -- what is in the file is what was in it and what the call wrote
  have hnew : ∀ m, m ≤ rest.length → (m = rest.length ↔ IsWhole ⟨.write dfd rest, n⟩) →
      Whole (log ++ [⟨.write dfd rest, n⟩]) ∧ old ++ rest.take m = past ++ rest ∨
        ¬ Whole (log ++ [⟨.write dfd rest, n⟩]) ∧
          (old ++ rest.take m).length < (past ++ rest).length := by
    intro m hm hiff
    rw [whole_append, whole_cons, List.length_append, List.length_append,
      List.length_take_of_le hm]
    rcases hwhole with ⟨hw, rfl⟩ | ⟨hw, hlt⟩
    · by_cases hmn : m = rest.length
      · exact .inl ⟨⟨hw, hiff.mp hmn, whole_nil⟩, by rw [hmn, List.take_length]⟩
      · exact .inr ⟨fun hw' => hmn (hiff.mpr hw'.2.1), by omega⟩
    · exact .inr ⟨fun hw' => hw hw'.1, by omega⟩
  cases n with
  | none =>
    obtain rfl : s' = s := hc
    refine ⟨h.grows, h.cwd, h.errors, h.source, by rw [hread]; exact h.reading,
      by rw [hread]; exact h.part, hopened, past ++ rest, old, ?_, hold, hdfd, ?_⟩
    · rw [hread, hpast, List.append_nil]
    · simpa using hnew 0 (Nat.zero_le _) (by simp [IsWhole, hlen.ne])
  | some n =>
    obtain ⟨k, off, text, hfile, hnode, hn, rfl⟩ := hc
    obtain ⟨rfl, rfl⟩ : j = k ∧ old.length = off := by simpa using hdfd.symm.trans hfile
    obtain rfl : text = old := by
      rw [data_eq_some.mpr hnode] at hold
      exact Option.some.inj hold
    refine ⟨h.grows.trans (Grows.setFile hold _), h.cwd, h.errors, ?_, ?_,
      by rw [hread]; exact h.part, hopened, past ++ rest, text ++ rest.take n, ?_, ?_, ?_, ?_⟩
    · exact (data_setNode_of_ne hij _).trans h.source
    · rw [hread]
      exact (Function.update_of_ne hfd _ _).trans h.reading
    · rw [hread, hpast, List.append_nil]
    · rw [overwritten_end]
      exact data_setNode_self _ _
    · simp [Disk.seek, List.length_take_of_le hn]
    · exact hnew n hn (by simp [IsWhole])

/-- The loop keeps what holds between two rounds. -/
theorem wp_copyLoop_copying (hfd : sfd ≠ dfd) (hij : i ≠ j) {t : Disk × Trace}
    (h : Copying s₀ i j sfd dfd [] t) :
    wp (logged diskSys) (copyLoop sfd dfd) (fun _ => Copying s₀ i j sfd dfd []) t := by
  refine ⟨fun _ => Copying s₀ i j sfd dfd [], h, ?_⟩
  rintro _ ⟨s₁, log⟩ h₁
  rw [wp_bind, wp_perform]
  rintro r ⟨s₂, _⟩ ⟨hread, rfl⟩
  cases r with
  | none =>
    obtain rfl : s₂ = s₁ := hread
    exact h₁.read_none 4096
  | some data =>
    have h₂ := h₁.read hfd hread
    cases data with
    | nil => exact h₂
    | cons b bs =>
      change wp _ (perform (.write dfd (b :: bs)) >>= _) _ _
      rw [wp_bind, wp_perform]
      rintro n ⟨s₃, _⟩ ⟨hwrite, rfl⟩
      exact h₂.write hfd hij (List.cons_ne_nil b bs) hwrite

/-- A file that was emptied by opening it is not read from, so it stays empty. -/
theorem wp_copyLoop_empty {t : Disk × Trace} (hfile : t.1.files sfd = some (i, 0))
    (hempty : t.1.fs.data i = some []) :
    wp (logged diskSys) (copyLoop sfd dfd)
      (fun _ t' => t'.1.fs = t.1.fs ∧ t'.1.cwd = t.1.cwd) t := by
  have hloop : wp (logged diskSys) (copyLoop sfd dfd) (fun _ t' =>
      t'.1.files sfd = some (i, 0) ∧ t'.1.fs = t.1.fs ∧ t'.1.cwd = t.1.cwd) t := by
    refine ⟨fun _ t' => t'.1.files sfd = some (i, 0) ∧ t'.1.fs = t.1.fs ∧ t'.1.cwd = t.1.cwd,
      ⟨hfile, rfl, rfl⟩, ?_⟩
    rintro _ ⟨s₁, log⟩ ⟨hfile₁, hfs, hcwd⟩
    rw [wp_bind, wp_perform]
    rintro r ⟨s₂, _⟩ ⟨hread, rfl⟩
    cases r with
    | none =>
      obtain rfl : s₂ = s₁ := hread
      exact ⟨hfile₁, hfs, hcwd⟩
    | some data =>
      obtain ⟨k, off, text, hk, hnode, hpre, -, -, rfl⟩ := hread
      obtain ⟨rfl, rfl⟩ : i = k ∧ 0 = off := by simpa using hfile₁.symm.trans hk
      obtain rfl : text = [] := by
        have htext := data_eq_some.mpr hnode
        rw [show s₁.fs = t.1.fs from hfs, hempty] at htext
        exact (Option.some.inj htext).symm
      obtain rfl : data = [] := by simpa using hpre
      exact ⟨by simp [Disk.seek], hfs, hcwd⟩
  exact wp_mono hloop fun _ _ h => h.2

end

/-! ## 3. The command -/

/-- What `cmd_cp` does once nothing stands in its way. -/
def copyFile (src dest : Bytes) : Cmd Unit := do
  match ← perform (.openFile src .read) with
  | none => complain "src open error"
  | some sfd =>
    match ← perform (.openFile dest .write) with
    | none => do
      complain "dest open error"
      perform (.close sfd)
    | some dfd => do
      copyLoop sfd dfd
      perform (.close sfd)
      perform (.close dfd)

/-- Two more files can be opened. -/
def Spare (s : Disk) : Prop := ∃ fd fd', fd ≠ fd' ∧ s.files fd = none ∧ s.files fd' = none

/-- The ends of a copy: a file could not be opened, source and destination are one file, or they
are two. -/
inductive CopyEnd (s : Disk) (src dest : Bytes) (t : Disk × Trace) : Prop
  | failed (hfs : t.1.fs = s.fs) (hcwd : t.1.cwd = s.cwd) (herrors : t.1.errors ≠ s.errors)
      (hopened : ¬ Opened t.2)
  | emptied {i : Ino} {text : Bytes} (hspare : Spare s)
      (hsrc : s.fs.target s.cwd src = some i) (hdest : s.fs.target s.cwd dest = some i)
      (hdata : s.fs.data i = some text) (hcontents : t.1.contents src = some [])
  | copied {text : Bytes} (herrors : t.1.errors = s.errors) (hopened : Opened t.2)
      (hsrc : t.1.contents src = s.contents src) (hdest : t.1.contents dest = some text)
      (hpart : readBytes t.2 <+: (s.contents src).getD [])
      (htext : Whole t.2 ∧ text = readBytes t.2 ∨
        ¬ Whole t.2 ∧ text.length < (readBytes t.2).length)

section

variable {s : Disk} {src dest : Bytes} {args : List Bytes} {log : Trace}

theorem contents_of_target {i : Ino} {path : Bytes} (h : s.fs.target s.cwd path = some i) :
    s.contents path = s.fs.data i := by
  rw [Disk.contents, h, Option.bind_some]

theorem cmdCp_eq (hsrc : (operands (utf8 "-i") args.tail)[0]? = some src)
    (hdest : (operands (utf8 "-i") args.tail)[1]? = some dest) :
    cmdCp args = (do
      let go ← mayOverwrite (args.tail.contains (utf8 "-i")) dest
      if go then copyFile src dest else pure ()) := by
  have hscan := scanTwo_eq (utf8 "-i") false [] args.tail
  rw [List.nil_append, hsrc, hdest, Bool.false_or] at hscan
  change scanTwo (utf8 "-i") (false, none, none) args.tail = _ at hscan
  rw [cmdCp, hscan]
  rfl

/-- The state in which the loop starts. -/
def Disk.bothOpen (s : Disk) (fs' : FileSys) (sfd dfd : Fd) (i j : Ino) : Disk :=
  { s.opened sfd i with fs := fs' }.opened dfd j

section

variable {fs' : FileSys} {sfd dfd : Fd} {i j : Ino}

/-- If source and destination are one file, nothing is left to copy. -/
theorem wp_copy_same (hfd : sfd ≠ dfd) (hspare : Spare s)
    (hsrc : s.fs.target s.cwd src = some i) (hi : (s.fs.node i).isSome = true)
    (hopen : s.fs.OpensForWriting s.cwd dest fs' i) :
    wp (logged diskSys) (do
        copyLoop sfd dfd
        perform (.close sfd)
        perform (.close dfd))
      (fun _ => CopyEnd s src dest) (s.bothOpen fs' sfd dfd i i, log) := by
  obtain ⟨hgrows, -, hempty, -, hold⟩ := hopen.spec
  obtain ⟨hdest, text, htext⟩ := hold.resolve_right fun h => by simp [h] at hi
  rw [wp_bind]
  refine wp_mono (wp_copyLoop_empty (i := i) ?_ hempty) ?_
  · simp [Disk.bothOpen, Disk.opened, hfd]
  · rintro _ ⟨s₃, log₃⟩ ⟨hfs, hcwd⟩ _ ⟨s₄, _⟩ ⟨rfl, rfl⟩ _ ⟨s₅, _⟩ ⟨rfl, rfl⟩
    refine .emptied hspare hsrc hdest htext ?_
    change (s₃.fs.target s₃.cwd src).bind s₃.fs.data = _
    rw [show s₃.fs = fs' from hfs, show s₃.cwd = s.cwd from hcwd, hgrows.target hsrc]
    exact hempty

/-- If they are two, what holds between two rounds holds at the end. -/
theorem wp_copy_other (hfd : sfd ≠ dfd) (hij : i ≠ j) (hsrc : s.fs.target s.cwd src = some i)
    (hopen : s.fs.OpensForWriting s.cwd dest fs' j) (hread : readBytes log = [])
    (hwhole : Whole log) (hopened : Opened log) :
    wp (logged diskSys) (do
        copyLoop sfd dfd
        perform (.close sfd)
        perform (.close dfd))
      (fun _ => CopyEnd s src dest) (s.bothOpen fs' sfd dfd i j, log) := by
  obtain ⟨hgrows, hdest, hempty, hother, -⟩ := hopen.spec
  have hstart : Copying (s.bothOpen fs' sfd dfd i j) i j sfd dfd []
      (s.bothOpen fs' sfd dfd i j, log) := by
    refine ⟨Grows.refl _, rfl, rfl, rfl, ?_, ?_, hopened, [], [], hread, hempty, ?_,
      .inl ⟨hwhole, rfl⟩⟩
    · simp [Disk.bothOpen, Disk.opened, hfd, hread]
    · simp [hread]
    · simp [Disk.bothOpen, Disk.opened]
  rw [wp_bind]
  refine wp_mono (wp_copyLoop_copying hfd hij hstart) ?_
  rintro _ ⟨s₃, log₃⟩ h₃ _ ⟨s₄, _⟩ ⟨rfl, rfl⟩ _ ⟨s₅, _⟩ ⟨rfl, rfl⟩
  obtain ⟨past, text, hpast, htext, -, hwhole₃⟩ := h₃.writing
  have hgrows₃ : Grows fs' s₃.fs := h₃.grows
  have hcwd₃ : s₃.cwd = s.cwd := h₃.cwd
  have hsource : s₃.fs.data i = fs'.data i := h₃.source
  have hpart : readBytes log₃ <+: (fs'.data i).getD [] := h₃.part
  rw [hother i hij, ← contents_of_target hsrc] at hsource hpart
  refine CopyEnd.copied h₃.errors ?_ ?_ (?_ : _ = some text) ?_ ?_
  · simpa using Or.inl h₃.opened
  · change (s₃.fs.target s₃.cwd src).bind s₃.fs.data = _
    rw [hcwd₃, hgrows₃.target (hgrows.target hsrc)]
    exact hsource
  · change (s₃.fs.target s₃.cwd dest).bind s₃.fs.data = _
    rw [hcwd₃, hgrows₃.target hdest]
    exact htext
  · simpa [received] using hpart
  · rw [List.append_nil] at hpast
    simpa [IsWhole, received, hpast] using hwhole₃

end

/-- The ends of a copy. -/
theorem wp_copyFile (hread : readBytes log = []) (hwhole : Whole log) (hno : ¬ Opened log) :
    wp (logged diskSys) (copyFile src dest) (fun _ => CopyEnd s src dest) (s, log) := by
  rw [copyFile, wp_bind, wp_perform]
  rintro (_ | sfd) ⟨s₁, _⟩ ⟨hopen, rfl⟩
  · obtain rfl : s₁ = s := hopen
    rintro _ ⟨s₂, _⟩ ⟨rfl, rfl⟩
    exact .failed rfl rfl (by simp) (by simpa [OpensDest] using hno)
  · obtain ⟨hfree, i, hsrc, hi, rfl⟩ := hopen
    rw [wp_bind, wp_perform]
    rintro (_ | dfd) ⟨s₂, _⟩ ⟨hopen', rfl⟩
    · obtain rfl : s₂ = s.opened sfd i := hopen'
      rintro _ ⟨s₃, _⟩ ⟨rfl, rfl⟩ _ ⟨s₄, _⟩ ⟨rfl, rfl⟩
      exact .failed rfl rfl (by simp [Disk.opened]) (by simpa [OpensDest] using hno)
    · obtain ⟨hfree', fs', j, hwrites, rfl⟩ := hopen'
      have hfd : sfd ≠ dfd := by
        rintro rfl
        simp [Disk.opened] at hfree'
      by_cases hij : i = j
      · subst hij
        have hspare : Spare s :=
          ⟨sfd, dfd, hfd, hfree, (Function.update_of_ne hfd.symm _ _).symm.trans hfree'⟩
        exact wp_copy_same hfd hspare hsrc hi hwrites
      · exact wp_copy_other hfd hij hsrc hwrites (by simp [hread, received])
          (by simp [hwhole, IsWhole]) (by simp [OpensDest])

/-- The user is asked and says no. -/
def Declines (s : Disk) (args : List Bytes) (dest : Bytes) : Prop :=
  utf8 "-i" ∈ args.tail ∧ s.fs.accessible s.cwd dest = true ∧ Refuses s

theorem answer_eq_false_iff : answer s.stdin = false ↔ Refuses s := by
  simp [answer, Refuses]

/-- Asking reads from the input and prints, and ends as the user says. -/
theorem wp_mayOverwrite_iff (i : Bool) :
    wp diskSys (mayOverwrite i dest) (fun go s' =>
      (∃ inp out, s' = { s with stdin := inp, out := out }) ∧
        (go = false ↔ i = true ∧ s.fs.accessible s.cwd dest = true ∧ Refuses s)) s := by
  cases i with
  | false =>
    rw [mayOverwrite, if_neg (by simp)]
    exact ⟨⟨s.stdin, s.out, rfl⟩, by simp⟩
  | true =>
    rw [mayOverwrite, if_pos rfl, wp_bind, wp_perform]
    rintro found s₁ ⟨rfl, rfl⟩
    split
    · rename_i hfound
      refine wp_mono (wp_question _ _) ?_
      rintro go s₂ ⟨rfl, rfl⟩
      exact ⟨⟨_, _, rfl⟩, by simp [answer_eq_false_iff, hfound]⟩
    · rename_i hfound
      exact ⟨⟨s₁.stdin, s₁.out, rfl⟩, by simp [hfound]⟩

/-- Nothing was opened, read or written. -/
def Idle (log : Trace) : Prop := readBytes log = [] ∧ Whole log ∧ ¬ Opened log

/-- The calls of the question. -/
def Asks : Call → Prop
  | .print _ | .getchar | .access _ => True
  | _ => False

theorem wp_mayOverwrite_idle (i : Bool) (h : Idle log) :
    wp (logged diskSys) (mayOverwrite i dest) (fun _ t => Idle t.2) (s, log) := by
  have hrest : Uses Asks (dropLine) :=
    Uses.iterate (fun _ => (uses_perform.mpr trivial).bind fun _ => uses_pure.ite uses_pure) ()
  have hask : Uses Asks (confirmAction (utf8 "overwrite") dest) :=
    (uses_perform.mpr trivial).bind fun _ => (uses_perform.mpr trivial).bind fun _ =>
      hrest.bind fun _ => uses_pure
  have huses : Uses Asks (mayOverwrite i dest) :=
    Uses.ite ((uses_perform.mpr trivial).bind fun _ => hask.ite uses_pure) uses_pure
  refine huses.wp (I := fun t : Disk × Trace => Idle t.2) h ?_
  rintro ⟨s₁, log₁⟩ c r ⟨s₂, _⟩ hc ⟨-, rfl⟩ hidle
  cases c with
  | print text | getchar | access path =>
    simpa [Idle, received, IsWhole, OpensDest] using hidle
  | _ => exact hc.elim

/-- What stands in the input and in the output has no part in the end of a copy. -/
theorem CopyEnd.of_asked {inp out : Bytes} {t : Disk × Trace}
    (h : CopyEnd { s with stdin := inp, out := out } src dest t) : CopyEnd s src dest t := by
  cases h with
  | failed hfs hcwd herrors hopened => exact .failed hfs hcwd herrors hopened
  | emptied hspare hsrc hdest hdata hcontents => exact .emptied hspare hsrc hdest hdata hcontents
  | copied herrors hopened hsrc hdest hpart htext =>
    exact .copied herrors hopened hsrc hdest hpart htext

/-- The runs of `cmd_cp`: the user says no, or the copy is made, as far as it goes. -/
theorem wp_cp (hsrc : (operands (utf8 "-i") args.tail)[0]? = some src)
    (hdest : (operands (utf8 "-i") args.tail)[1]? = some dest) :
    wp (logged diskSys) (cmdCp args) (fun _ t =>
      (Declines s args dest ∧ t.1.fs = s.fs ∧ t.1.cwd = s.cwd ∧ ¬ Opened t.2) ∨
        (¬ Declines s args dest ∧ CopyEnd s src dest t)) (s, []) := by
  rw [cmdCp_eq hsrc hdest, wp_bind]
  refine wp_mono (wp_and (wp_logged (wp_mayOverwrite_iff _))
    (wp_mayOverwrite_idle _ (by simp [Idle]))) ?_
  rintro go ⟨s₁, log₁⟩ ⟨⟨⟨inp, out, rfl⟩, hgo⟩, hread, hwhole, hopened⟩
  rw [List.contains_iff_mem] at hgo
  cases go with
  | false => exact .inl ⟨hgo.mp rfl, rfl, rfl, hopened⟩
  | true =>
    have hno : ¬ Declines s args dest := fun h => by simpa using hgo.mpr h
    rw [if_pos rfl]
    exact wp_mono (wp_copyFile hread hwhole hopened) fun _ _ h => .inr ⟨hno, h.of_asked⟩

end

/-- A directory with two files, `a` and `b`, and a second name `c` of the first one. -/
def twoFiles : Disk where
  fs.root := 0
  fs.node
    | 0 => some (.dir 0 fun name =>
        if name = utf8 "a" then some 1 else if name = utf8 "b" then some 2
        else if name = utf8 "c" then some 1 else none)
    | 1 => some (.file (utf8 "text"))
    | 2 => some (.file (utf8 "old"))
    | _ => none
  cwd := 0
  stdin := []
  files _ := none
  out := []
  errors := []

/-! ## 4. What a copy destroys -/

/-- Both paths lead to one file, and there is something in it. -/
def SameFile (s : Disk) (src dest : Bytes) : Prop :=
  ∃ i text, s.fs.target s.cwd src = some i ∧ s.fs.target s.cwd dest = some i ∧
    s.fs.data i = some text ∧ text ≠ []

section

variable {s : Disk} {src dest : Bytes} {args : List Bytes}

theorem exec_goAhead {i : Bool}
    (h : ¬ (i = true ∧ s.fs.accessible s.cwd dest = true ∧ Refuses s)) :
    ∃ inp out, Exec diskSys (mayOverwrite i dest) s true { s with stdin := inp, out := out } := by
  cases i with
  | false => exact ⟨s.stdin, s.out, .ret⟩
  | true =>
    rw [mayOverwrite, if_pos rfl]
    cases hacc : s.fs.accessible s.cwd dest with
    | false => exact ⟨s.stdin, s.out, Exec.step false ⟨hacc.symm, rfl⟩ .ret⟩
    | true =>
      have hyes : answer s.stdin = true := by
        rw [← Bool.not_eq_false, answer_eq_false_iff]
        exact fun hs => h ⟨rfl, hacc, hs⟩
      have hask := exec_question s (utf8 "overwrite") dest
      rw [hyes] at hask
      exact ⟨_, _, Exec.step true ⟨hacc.symm, rfl⟩ hask⟩

/-- One file is emptied before the first block is read. -/
theorem exec_copyFile_same (h : SameFile s src dest) (hspare : Spare s) :
    ∃ s', Exec diskSys (copyFile src dest) s () s' ∧ s'.contents src = some [] := by
  obtain ⟨i, text, hsrc, hdest, hdata, -⟩ := h
  obtain ⟨sfd, dfd, hfd, hfree, hfree'⟩ := hspare
  have hnode := data_eq_some.mp hdata
  have hopen : s.fs.OpensForWriting s.cwd dest (s.fs.setNode i (.file [])) i :=
    .inl ⟨hdest, ⟨text, hnode⟩, rfl⟩
  obtain ⟨hgrows, -, hempty, -⟩ := hopen.spec
  have hopen' : diskSys (s.opened sfd i) (.openFile dest .write) (some dfd)
      (s.bothOpen (s.fs.setNode i (.file [])) sfd dfd i i) :=
    ⟨(Function.update_of_ne hfd.symm _ _).trans hfree', _, i, hopen, rfl⟩
  have hfile : (s.bothOpen (s.fs.setNode i (.file [])) sfd dfd i i).files sfd = some (i, 0) := by
    simp [Disk.bothOpen, Disk.opened, hfd]
  have hloop : Exec diskSys (copyLoop sfd dfd) (s.bothOpen (s.fs.setNode i (.file [])) sfd dfd i i)
      () ((s.bothOpen (s.fs.setNode i (.file [])) sfd dfd i i).seek sfd i 0) := by
    refine .done (Exec.step (some []) ?_ .ret) .ret
    exact ⟨i, 0, [], hfile, data_eq_some.mp hempty, List.nil_prefix, Nat.zero_le _,
      fun _ => rfl, rfl⟩
  refine ⟨_, Exec.step (some sfd) ⟨hfree, i, hsrc, by simp [hnode], rfl⟩
    (Exec.step (some dfd) hopen' (hloop.bind (Exec.step () rfl (Exec.perform rfl)))), ?_⟩
  change ((s.fs.setNode i (.file [])).target s.cwd src).bind _ = _
  rw [hgrows.target hsrc]
  exact hempty

/-- In every run of `cmd_cp` the source keeps its contents, exactly if source and destination are
not one file with something in it; or if it does not come to a copy, because the user declines or
because no two files can be opened. -/
theorem cp_keeps_source_iff (hsrc : (operands (utf8 "-i") args.tail)[0]? = some src)
    (hdest : (operands (utf8 "-i") args.tail)[1]? = some dest) (s : Disk) :
    (∀ s', Exec diskSys (cmdCp args) s () s' → s'.contents src = s.contents src) ↔
      ¬ (SameFile s src dest ∧ Spare s ∧ ¬ Declines s args dest) := by
  constructor
  · rintro h ⟨hsame, hspare, hgo⟩
    rw [Declines, ← List.contains_iff_mem] at hgo
    obtain ⟨inp, out, hask⟩ := exec_goAhead hgo
    obtain ⟨s', hcopy, hcontents⟩ :=
      exec_copyFile_same (s := { s with stdin := inp, out := out }) hsame hspare
    have hrun : Exec diskSys (cmdCp args) s () s' := by
      rw [cmdCp_eq hsrc hdest]
      exact hask.bind hcopy
    obtain ⟨i, text, hi, -, hdata, hne⟩ := hsame
    have hlost := h s' hrun
    rw [hcontents, contents_of_target hi, hdata] at hlost
    exact hne (Option.some.inj hlost).symm
  · intro h s' hrun
    obtain ⟨log, hlogged⟩ := hrun.logged []
    rcases hlogged.wp (wp_cp hsrc hdest) with ⟨-, hfs, hcwd, -⟩ | ⟨hgo, hend⟩
    · rw [Disk.contents, hfs, hcwd]
      rfl
    · cases hend with
      | failed hfs hcwd =>
        rw [Disk.contents, hfs, hcwd]
        rfl
      | @emptied i text hspare hi hi' hdata hcontents =>
        have hempty : text = [] := by
          by_contra hne
          exact h ⟨⟨i, text, hi, hi', hdata, hne⟩, hspare, hgo⟩
        rw [contents_of_target hi, hdata, hempty]
        exact hcontents
      | copied _ _ hkept => exact hkept

end

theorem cp_keeps_source_iff_other :
    ¬ SameFile twoFiles (utf8 "a") (utf8 "b") ∧
    ∀ s', Exec diskSys (cmdCp [utf8 "cp", utf8 "a", utf8 "b"]) twoFiles () s' →
      s'.contents (utf8 "a") = twoFiles.contents (utf8 "a") := by
  have hsrc : (operands (utf8 "-i") [utf8 "cp", utf8 "a", utf8 "b"].tail)[0]? =
      some (utf8 "a") := by decide
  have hdest : (operands (utf8 "-i") [utf8 "cp", utf8 "a", utf8 "b"].tail)[1]? =
      some (utf8 "b") := by decide
  have hother : ¬ SameFile twoFiles (utf8 "a") (utf8 "b") := by
    rintro ⟨i, text, hi, hi', -⟩
    have ha : twoFiles.fs.target twoFiles.cwd (utf8 "a") = some 1 := by decide
    have hb : twoFiles.fs.target twoFiles.cwd (utf8 "b") = some 2 := by decide
    rw [ha] at hi
    rw [hb, ← hi] at hi'
    exact absurd hi' (by decide)
  exact ⟨hother, (cp_keeps_source_iff hsrc hdest twoFiles).mpr fun h => hother h.1⟩

/-- The command `cp a c` copies a file to a hard link of it, and empties it. -/
theorem hard_link_emptied :
    ¬ ∀ s', Exec diskSys (cmdCp [utf8 "cp", utf8 "a", utf8 "c"]) twoFiles () s' →
      s'.contents (utf8 "a") = twoFiles.contents (utf8 "a") := by
  have hsrc : (operands (utf8 "-i") [utf8 "cp", utf8 "a", utf8 "c"].tail)[0]? =
      some (utf8 "a") := by decide
  have hdest : (operands (utf8 "-i") [utf8 "cp", utf8 "a", utf8 "c"].tail)[1]? =
      some (utf8 "c") := by decide
  have hflag : [utf8 "cp", utf8 "a", utf8 "c"].tail.contains (utf8 "-i") = false := by
    decide
  have hsame : SameFile twoFiles (utf8 "a") (utf8 "c") :=
    ⟨1, utf8 "text", by decide, by decide, rfl, by decide⟩
  intro h
  obtain ⟨s', hcopy, hempty⟩ := exec_copyFile_same hsame ⟨3, 4, by decide, rfl, rfl⟩
  have hrun : Exec diskSys (cmdCp [utf8 "cp", utf8 "a", utf8 "c"]) twoFiles () s' := by
    rw [cmdCp_eq hsrc hdest, hflag]
    exact (Exec.ret (a := true)).bind hcopy
  have hlost := h s' hrun
  rw [hempty] at hlost
  exact absurd hlost (by decide)

/-! ## 5. What a copy leaves out -/

section

variable {s : Disk} {src dest : Bytes} {args : List Bytes}

/-- Of two different files: a run that was not declined and reported nothing leaves a complete
copy, exactly if, once the destination was opened, every write was whole and the reads together
returned the contents of the source. -/
theorem silent_copy_iff (hsrc : (operands (utf8 "-i") args.tail)[0]? = some src)
    (hdest : (operands (utf8 "-i") args.tail)[1]? = some dest) {t : Disk × Trace}
    (hrun : Exec (logged diskSys) (cmdCp args) (s, []) () t)
    (hdiff : ∀ i, s.fs.target s.cwd src = some i → s.fs.target s.cwd dest ≠ some i) :
    (¬ Declines s args dest → t.1.errors = s.errors →
        t.1.contents dest = t.1.contents src) ↔
      (Opened t.2 → Whole t.2 ∧ s.contents src = some (readBytes t.2)) := by
  rcases hrun.wp (wp_cp hsrc hdest) with ⟨hno, -, -, hclosed⟩ | ⟨hgo, hend⟩
  · exact ⟨fun _ ho => absurd ho hclosed, fun _ hgo => absurd hno hgo⟩
  · cases hend with
    | failed _ _ herrors hclosed =>
      exact ⟨fun _ ho => absurd ho hclosed, fun _ _ he => absurd he herrors⟩
    | emptied _ hi hi' => exact absurd hi' (hdiff _ hi)
    | @copied text herrors hopened hkept htext hpart hwhole =>
      rw [hkept, htext]
      constructor
      · intro h _
        have hsource := h hgo herrors
        rw [← hsource, Option.getD_some] at hpart
        rcases hwhole with ⟨hw, rfl⟩ | ⟨-, hlt⟩
        · exact ⟨hw, hsource.symm⟩
        · -- less than what was read cannot be all of the source
          exact absurd hpart.length_le (Nat.not_le.mpr hlt)
      · intro h _ _
        obtain ⟨hw, hsource⟩ := h hopened
        rcases hwhole with ⟨-, rfl⟩ | ⟨hw', -⟩
        · exact hsource.symm
        · exact absurd hw hw'

end

/-- The log of `cp a b`, where the only block was written with this result. -/
def blockLog (n : Option Nat) : Trace :=
  [⟨.openFile (utf8 "a") .read, some (3 : Nat)⟩, ⟨.openFile (utf8 "b") .write, some (4 : Nat)⟩,
    ⟨.read 3 4096, some (utf8 "text")⟩, ⟨.write 4 (utf8 "text"), n⟩,
    ⟨.read 3 4096, some ([] : Bytes)⟩, ⟨.close 3, ()⟩, ⟨.close 4, ()⟩]

/-- A loop with one block. -/
theorem exec_copyLoop_block {sfd dfd : Fd} {text : Bytes} {n : Option Nat}
    {t₀ t₁ t₂ t₃ : Disk × Trace} (hne : text ≠ [])
    (hread : logged diskSys t₀ (.read sfd 4096) (some text) t₁)
    (hwrite : logged diskSys t₁ (.write dfd text) n t₂)
    (hend : logged diskSys t₂ (.read sfd 4096) (some ([] : Bytes)) t₃) :
    Exec (logged diskSys) (copyLoop sfd dfd) t₀ () t₃ := by
  obtain ⟨b, bs, rfl⟩ := List.exists_cons_of_ne_nil hne
  exact .again (Exec.step (some (b :: bs)) hread (Exec.step n hwrite .ret))
    (.done (Exec.step (some ([] : Bytes)) hend .ret) .ret)

theorem exec_block {n : Option Nat} {s' : Disk}
    (hwrite : diskSys ((twoFiles.bothOpen (twoFiles.fs.setNode 2 (.file [])) 3 4 1 2).seek 3 1 4)
      (.write 4 (utf8 "text")) n s')
    (hfile : s'.files 3 = some (1, 4)) (hnode : s'.fs.node 1 = some (.file (utf8 "text"))) :
    ∃ t, Exec (logged diskSys) (cmdCp [utf8 "cp", utf8 "a", utf8 "b"]) (twoFiles, []) () t ∧
      t.1.fs = s'.fs ∧ t.1.cwd = s'.cwd ∧ t.1.errors = s'.errors ∧ t.2 = blockLog n := by
  have hsrc : (operands (utf8 "-i") [utf8 "cp", utf8 "a", utf8 "b"].tail)[0]? =
      some (utf8 "a") := by decide
  have hdest : (operands (utf8 "-i") [utf8 "cp", utf8 "a", utf8 "b"].tail)[1]? =
      some (utf8 "b") := by decide
  have hflag : [utf8 "cp", utf8 "a", utf8 "b"].tail.contains (utf8 "-i") = false := by
    decide
  have hb : twoFiles.fs.target twoFiles.cwd (utf8 "b") = some 2 := by decide
  have hopen : logged diskSys (twoFiles, []) (.openFile (utf8 "a") .read) (some (3 : Nat))
      (twoFiles.opened 3 1, (blockLog n).take 1) := ⟨⟨rfl, 1, by decide, rfl, rfl⟩, rfl⟩
  have hopen' : logged diskSys (twoFiles.opened 3 1, (blockLog n).take 1)
      (.openFile (utf8 "b") .write) (some (4 : Nat))
      (twoFiles.bothOpen (twoFiles.fs.setNode 2 (.file [])) 3 4 1 2, (blockLog n).take 2) :=
    ⟨⟨rfl, _, 2, .inl ⟨hb, ⟨utf8 "old", rfl⟩, rfl⟩, rfl⟩, rfl⟩
  have hread : logged diskSys
      (twoFiles.bothOpen (twoFiles.fs.setNode 2 (.file [])) 3 4 1 2, (blockLog n).take 2)
      (.read 3 4096) (some (utf8 "text"))
      ((twoFiles.bothOpen (twoFiles.fs.setNode 2 (.file [])) 3 4 1 2).seek 3 1 4,
        (blockLog n).take 3) :=
    ⟨⟨1, 0, utf8 "text", rfl, rfl, List.prefix_refl _, by decide,
      fun h => absurd h (by decide), rfl⟩, rfl⟩
  have hwrite' : logged diskSys (_, (blockLog n).take 3) (.write 4 (utf8 "text")) n
      (s', (blockLog n).take 4) := ⟨hwrite, rfl⟩
  have hend : logged diskSys (s', (blockLog n).take 4) (.read 3 4096) (some ([] : Bytes))
      (s'.seek 3 1 4, (blockLog n).take 5) :=
    ⟨⟨1, 4, utf8 "text", hfile, hnode, List.nil_prefix, Nat.zero_le _,
      fun _ => by decide, rfl⟩, rfl⟩
  have hclose : logged diskSys (s'.seek 3 1 4, (blockLog n).take 5) (.close 3) ()
      (_, (blockLog n).take 6) := ⟨rfl, rfl⟩
  have hclose' : logged diskSys
      ({ s'.seek 3 1 4 with files := Function.update (s'.seek 3 1 4).files 3 none },
        (blockLog n).take 6) (.close 4) () (_, blockLog n) := ⟨rfl, rfl⟩
  have hloop := exec_copyLoop_block (by decide : utf8 "text" ≠ []) hread hwrite' hend
  rw [cmdCp_eq hsrc hdest, hflag]
  exact ⟨_, (Exec.ret (a := true)).bind (Exec.step (some (3 : Nat)) hopen
    (Exec.step (some (4 : Nat)) hopen'
      (hloop.bind (Exec.step () hclose (Exec.perform hclose'))))), rfl, rfl, rfl, rfl⟩

theorem silent_copy_iff_whole :
    ∃ t, Exec (logged diskSys) (cmdCp [utf8 "cp", utf8 "a", utf8 "b"]) (twoFiles, []) () t ∧
      t.1.errors = [] ∧ t.1.contents (utf8 "b") = t.1.contents (utf8 "a") := by
  have hsrc : (operands (utf8 "-i") [utf8 "cp", utf8 "a", utf8 "b"].tail)[0]? =
      some (utf8 "a") := by decide
  have hdest : (operands (utf8 "-i") [utf8 "cp", utf8 "a", utf8 "b"].tail)[1]? =
      some (utf8 "b") := by decide
  have ha : twoFiles.fs.target twoFiles.cwd (utf8 "a") = some 1 := by decide
  have hb : twoFiles.fs.target twoFiles.cwd (utf8 "b") = some 2 := by decide
  obtain ⟨t, hrun, -, -, herrors, hlog⟩ := exec_block (n := some 4)
    ⟨2, 0, [], rfl, rfl, by decide, rfl⟩ rfl rfl
  have hno : ¬ Declines twoFiles [utf8 "cp", utf8 "a", utf8 "b"] (utf8 "b") :=
    fun h => absurd h.1 (by decide)
  refine ⟨t, hrun, herrors, (silent_copy_iff hsrc hdest hrun ?_).mpr ?_ hno herrors⟩
  · intro i hi hi'
    rw [ha] at hi
    rw [hb, ← hi] at hi'
    exact absurd hi' (by decide)
  · rw [hlog]
    exact fun _ => ⟨by simp [blockLog, IsWhole, show (utf8 "text").length = 4 by decide],
      by decide⟩

/-- The write fails, as on a full disk: `cp a b` says nothing and leaves `b` empty. -/
theorem failed_write_unnoticed :
    twoFiles.fs.target twoFiles.cwd (utf8 "a") ≠ twoFiles.fs.target twoFiles.cwd (utf8 "b") ∧
      ¬ ∀ t, Exec (logged diskSys) (cmdCp [utf8 "cp", utf8 "a", utf8 "b"]) (twoFiles, []) () t →
        t.1.errors = twoFiles.errors → t.1.contents (utf8 "b") = t.1.contents (utf8 "a") := by
  refine ⟨by decide, fun h => ?_⟩
  obtain ⟨t, hrun, hfs, hcwd, herrors, -⟩ := exec_block (n := none) rfl rfl rfl
  have hequal := h t hrun herrors
  rw [Disk.contents, Disk.contents, hfs, hcwd] at hequal
  exact absurd hequal (by decide)

end PosixLab.Shell
