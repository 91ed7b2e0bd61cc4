/-
# Two more ways to copy a file

`file_copy` copies in blocks of ten bytes, looks at the results of `write` only to add them up, and
prints the sum.  `count_tells` says what the number is worth: it is the size of the source exactly
if the copy is complete, as long as an `int` can hold the size.

`mmapcopy` maps both files and copies in one step.  It agrees with `file_copy`, unless both paths
lead to one file (`copies_agree_iff`): then the first leaves zeros, and the second nothing.
-/
import PosixLab.Shell.Copy

namespace PosixLab.Programs

open PosixLab.Shell FileSys
open Prog hiding perform

/-! ## 1. Block by block -/

/-- What `write` returns. -/
def written : Option Nat → Int
  | none => -1
  | some n => n

/-- The loop of `file_copy`, which ends with `tot_cnt`, and whether the last `read` succeeded. -/
def fileCopyLoop (srcFd dstFd : Fd) : Cmd (Int × Bool) :=
  iterate (fun totCnt : Int => do
    match ← perform (.read srcFd 10) with
    | none => pure (.inr (totCnt, false))
    | some [] => pure (.inr (totCnt, true))
    | some (b :: bs) => do
      let n ← perform (.write dstFd (b :: bs))
      pure (.inl (totCnt + written n))) 0

/-- The last line of the output. -/
def countLine (n : Int) : Bytes := utf8 "total write count = " ++ decimal n ++ [10]

/-- The end of `main`, behind the loop.  The total is longer than the `int` that is printed. -/
def report (srcFd dstFd : Fd) (r : Int × Bool) : Cmd Nat :=
  if r.2 then do
    printText (countLine (r.1.bmod 4294967296))
    perform (.close srcFd)
    perform (.close dstFd)
    pure 0
  else do
    complain "read"
    pure 1

/-- The program `file_copy`, with its exit status. -/
def fileCopy (src dest : Bytes) : Cmd Nat := do
  match ← perform (.openFile src .read) with
  | none => do
    complain "src open"
    pure 1
  | some srcFd =>
    match ← perform (.openFile dest .write) with
    | none => do
      complain "dst open"
      pure 1
    | some dstFd => fileCopyLoop srcFd dstFd >>= report srcFd dstFd

/-! ## 2. What the loop counts -/

/-- The total is the length of what was read as long as every write was whole, and less once one
was not. -/
def Counts (totCnt : Int) (log : Trace) : Prop :=
  -((readBytes log).length : Int) ≤ totCnt ∧
    (Whole log ∧ totCnt = (readBytes log).length ∨
      ¬ Whole log ∧ totCnt < (readBytes log).length)

section

variable {s₀ s s' : Disk} {i j : Ino} {srcFd dstFd : Fd} {totCnt : Int} {log : Trace}

/-- A block was read and written. -/
theorem Counts.block (h : Counts totCnt log) {b : Byte} {bs : Bytes} {n : Option Nat}
    (hn : ∀ m, n = some m → m ≤ (b :: bs).length) :
    Counts (totCnt + written n)
      (log ++ [⟨.read srcFd 10, some (b :: bs)⟩] ++ [⟨.write dstFd (b :: bs), n⟩]) := by
  have hread : (readBytes (log ++ [⟨.read srcFd 10, some (b :: bs)⟩] ++
      [⟨.write dstFd (b :: bs), n⟩])).length = (readBytes log).length + (bs.length + 1) := by
    simp [received]
  have hwhole : Whole (log ++ [⟨.read srcFd 10, some (b :: bs)⟩] ++
      [⟨.write dstFd (b :: bs), n⟩]) ↔ Whole log ∧ n = some (bs.length + 1) := by
    simp [IsWhole]
  obtain ⟨hlow, htotal⟩ := h
  rw [Counts, hread, hwhole]
  cases n with
  | none =>
    refine ⟨by simp only [written]; omega, .inr ⟨by simp, ?_⟩⟩
    simp only [written]
    omega
  | some m =>
    have hm : m ≤ bs.length + 1 := hn m rfl
    simp only [written, Option.some.injEq]
    refine ⟨by omega, ?_⟩
    rcases htotal with ⟨hw, htot⟩ | ⟨hw, hlt⟩
    · by_cases hfull : m = bs.length + 1
      · exact .inl ⟨⟨hw, hfull⟩, by omega⟩
      · exact .inr ⟨fun hw' => hfull hw'.2, by omega⟩
    · exact .inr ⟨fun hw' => hw hw'.1, by omega⟩

/-- No write says that it wrote more than it was given. -/
theorem le_of_write {data : Bytes} {n : Option Nat}
    (h : diskSys s (.write dstFd data) n s') : ∀ m, n = some m → m ≤ data.length := by
  rintro m rfl
  obtain ⟨-, -, -, -, -, hm, -⟩ := h
  exact hm

/-- At its end the loop has copied what it has read, as far as the writes were whole; and if the
last `read` succeeded, it has read all of the source. -/
theorem wp_fileCopyLoop (hfd : srcFd ≠ dstFd) (hij : i ≠ j) {t : Disk × Trace}
    (h : Copying s₀ i j srcFd dstFd [] t) (hcount : Counts 0 t.2) (hout : t.1.out = s₀.out) :
    wp (logged diskSys) (fileCopyLoop srcFd dstFd) (fun r t' =>
      Copying s₀ i j srcFd dstFd [] t' ∧ Counts r.1 t'.2 ∧ t'.1.out = s₀.out ∧
        (r.2 = true → s₀.fs.data i = some (readBytes t'.2))) t := by
  refine ⟨fun totCnt t' => Copying s₀ i j srcFd dstFd [] t' ∧ Counts totCnt t'.2 ∧
    t'.1.out = s₀.out, ⟨h, hcount, hout⟩, ?_⟩
  rintro totCnt ⟨s₁, log⟩ ⟨h₁, hcount₁, hout₁⟩
  rw [wp_bind, wp_perform]
  rintro r ⟨s₂, _⟩ ⟨hread, rfl⟩
  cases r with
  | none =>
    obtain rfl : s₂ = s₁ := hread
    refine ⟨h₁.read_none 10, ?_, hout₁, fun hok => absurd hok (by simp)⟩
    simpa [Counts, received, IsWhole] using hcount₁
  | some data =>
    have h₂ := h₁.read hfd hread
    obtain ⟨k, off, text, hfile, hnode, hpre, -, hend, rfl⟩ := hread
    have hout₂ : (s₁.seek srcFd k (off + data.length)).out = s₀.out := hout₁
    rcases data with _ | ⟨b, bs⟩
    · refine ⟨h₂, ?_, hout₂, fun _ => ?_⟩
      · simpa [Counts, received, IsWhole] using hcount₁
      · -- nothing is left behind the offset
        obtain ⟨rfl, rfl⟩ : i = k ∧ (readBytes log).length = off := by
          simpa using h₁.reading.symm.trans hfile
        have htext : s₀.fs.data i = some text := h₁.source.symm.trans (data_eq_some.mpr hnode)
        have hpart : readBytes log <+: text := by
          simpa [htext] using h₁.part
        have hlen : text.length ≤ (readBytes log).length := List.drop_eq_nil_iff.mp (hend rfl)
        rw [htext, ← hpart.eq_of_length_le hlen]
        simp [received]
    · change wp _ (perform (.write dstFd (b :: bs)) >>= _) _ _
      rw [wp_bind, wp_perform]
      rintro n ⟨s₃, _⟩ ⟨hwrite, rfl⟩
      refine ⟨h₂.write hfd hij (List.cons_ne_nil b bs) hwrite,
        hcount₁.block (le_of_write hwrite), ?_⟩
      cases n with
      | none =>
        obtain rfl : s₃ = _ := hwrite
        exact hout₂
      | some n =>
        obtain ⟨-, -, -, -, -, -, rfl⟩ := hwrite
        exact hout₂

/-- Nothing is read from an empty file. -/
theorem wp_fileCopyLoop_empty {t : Disk × Trace} (hfile : t.1.files srcFd = some (i, 0))
    (hempty : t.1.fs.data i = some []) :
    wp (logged diskSys) (fileCopyLoop srcFd dstFd) (fun r t' =>
      r.1 = 0 ∧ t'.1.fs = t.1.fs ∧ t'.1.cwd = t.1.cwd ∧ t'.1.out = t.1.out) t := by
  refine ⟨fun totCnt t' => totCnt = 0 ∧ t' = t, ⟨rfl, rfl⟩, ?_⟩
  rintro _ t' ⟨rfl, rfl⟩
  rw [wp_bind, wp_perform]
  rintro r ⟨s₂, _⟩ ⟨hread, rfl⟩
  cases r with
  | none =>
    obtain rfl : s₂ = t'.1 := hread
    exact ⟨rfl, rfl, rfl, rfl⟩
  | some data =>
    obtain ⟨k, off, text, hk, hnode, hpre, -, -, rfl⟩ := hread
    obtain ⟨rfl, rfl⟩ : i = k ∧ 0 = off := by simpa using hfile.symm.trans hk
    obtain rfl : [] = text := by
      simpa [hempty] using data_eq_some.mpr hnode
    obtain rfl : data = [] := by simpa using hpre
    exact ⟨rfl, rfl, rfl, rfl⟩

end

/-! ## 3. What the program says -/

/-- The ends of `file_copy` with the exit status 0.  If both paths lead to one file, it is empty
now.  If not, the copy is complete as long as every write was whole; once one was not, the copy is
too short, and the total too small. -/
inductive CountEnd (s : Disk) (src dest : Bytes) (t : Disk × Trace) : Prop
  | one {text : Bytes} (hsame : s.fs.target s.cwd src = s.fs.target s.cwd dest)
      (htext : s.contents src = some text) (hout : t.1.out = s.out ++ countLine 0)
      (hcopy : t.1.contents dest = some [])
  | two {text copy : Bytes} {n : Int} (hdiff : s.fs.target s.cwd src ≠ s.fs.target s.cwd dest)
      (htext : s.contents src = some text)
      (hout : t.1.out = s.out ++ countLine (n.bmod 4294967296))
      (hcopy : t.1.contents dest = some copy) (hlow : -(text.length : Int) ≤ n)
      (hcount : Whole t.2 ∧ copy = text ∧ n = text.length ∨
        ¬ Whole t.2 ∧ copy.length < text.length ∧ n < text.length)

section

variable {s : Disk} {src dest : Bytes} {fs' : FileSys} {i j : Ino} {srcFd dstFd : Fd}
  {log : Trace}

/-- A file that is opened for writing was there, or its path led nowhere. -/
theorem target_of_opensForWriting (h : s.fs.OpensForWriting s.cwd dest fs' j) :
    s.fs.target s.cwd dest = some j ∨ s.fs.target s.cwd dest = none ∧ s.fs.node j = none := by
  rcases h with ⟨htarget, -, -⟩ | ⟨d, name, hreach, hno, hunused, -⟩
  · exact .inl htarget
  · exact .inr ⟨by rw [target, hreach]; exact hno, hunused.1⟩

/-- An existing file is opened a second time, for writing, exactly if both paths lead to it. -/
theorem opened_twice_iff (hsrc : s.fs.target s.cwd src = some i)
    (hi : (s.fs.node i).isSome = true) (h : s.fs.OpensForWriting s.cwd dest fs' j) :
    i = j ↔ s.fs.target s.cwd src = s.fs.target s.cwd dest := by
  rcases target_of_opensForWriting h with htarget | ⟨htarget, hnew⟩
  · rw [hsrc, htarget, Option.some.injEq]
  · rw [hsrc, htarget]
    refine ⟨?_, fun h => absurd h (by simp)⟩
    rintro rfl
    simp [hnew] at hi

/-- One file is empty when the loop starts. -/
theorem wp_copied_one (hfd : srcFd ≠ dstFd) (hsrc : s.fs.target s.cwd src = some i)
    (hi : (s.fs.node i).isSome = true) (hopen : s.fs.OpensForWriting s.cwd dest fs' i)
    (hsame : s.fs.target s.cwd src = s.fs.target s.cwd dest) :
    wp (logged diskSys) (fileCopyLoop srcFd dstFd >>= report srcFd dstFd)
      (fun status t => status = 0 → CountEnd s src dest t)
      (s.bothOpen fs' srcFd dstFd i i, log) := by
  obtain ⟨-, hdest, hempty, -, hold⟩ := OpensForWriting.spec hopen
  obtain ⟨-, text, htext⟩ := hold.resolve_right fun h => by simp [h] at hi
  rw [wp_bind]
  refine wp_mono (wp_fileCopyLoop_empty (i := i) ?_ hempty) ?_
  · simp [Disk.bothOpen, Disk.opened, hfd]
  rintro ⟨_, _ | _⟩ ⟨s₃, log₃⟩ ⟨rfl, hfs, hcwd, hout⟩
  · rintro _ _ - hstatus
    exact absurd hstatus (by decide)
  · rintro _ ⟨s₄, _⟩ ⟨rfl, rfl⟩ _ ⟨s₅, _⟩ ⟨rfl, rfl⟩ _ ⟨s₆, _⟩ ⟨rfl, rfl⟩ -
    refine .one hsame ((contents_of_target hsrc).trans htext) ?_ ?_
    · change s₃.out ++ _ = _
      rw [show s₃.out = s.out from hout]
      rfl
    · change (s₃.fs.target s₃.cwd dest).bind s₃.fs.data = _
      rw [show s₃.fs = fs' from hfs, show s₃.cwd = s.cwd from hcwd, hdest]
      exact hempty

/-- Of two files the loop copies one to the other. -/
theorem wp_copied_two (hfd : srcFd ≠ dstFd) (hij : i ≠ j)
    (hsrc : s.fs.target s.cwd src = some i) (hopen : s.fs.OpensForWriting s.cwd dest fs' j)
    (hdiff : s.fs.target s.cwd src ≠ s.fs.target s.cwd dest) (hread : readBytes log = [])
    (hwhole : Whole log) (hopened : Opened log) :
    wp (logged diskSys) (fileCopyLoop srcFd dstFd >>= report srcFd dstFd)
      (fun status t => status = 0 → CountEnd s src dest t)
      (s.bothOpen fs' srcFd dstFd i j, log) := by
  obtain ⟨hgrows, hdest, hempty, hother, -⟩ := OpensForWriting.spec hopen
  have hstart : Copying (s.bothOpen fs' srcFd dstFd i j) i j srcFd dstFd []
      (s.bothOpen fs' srcFd dstFd i j, log) := by
    refine ⟨Grows.refl _, rfl, rfl, rfl, ?_, ?_, hopened, [], [], hread, hempty, ?_,
      .inl ⟨hwhole, rfl⟩⟩
    · simp [Disk.bothOpen, Disk.opened, hfd, hread]
    · simp [hread]
    · simp [Disk.bothOpen, Disk.opened]
  have hzero : Counts 0 log := by simp [Counts, hread, hwhole]
  rw [wp_bind]
  refine wp_mono (wp_fileCopyLoop hfd hij hstart hzero rfl) ?_
  rintro ⟨n, _ | _⟩ ⟨s₃, log₃⟩ ⟨h₃, hcount, hout, hall⟩
  · rintro _ _ - hstatus
    exact absurd hstatus (by decide)
  · rintro _ ⟨s₄, _⟩ ⟨rfl, rfl⟩ _ ⟨s₅, _⟩ ⟨rfl, rfl⟩ _ ⟨s₆, _⟩ ⟨rfl, rfl⟩ -
    obtain ⟨past, copy, hpast, hcopy, -, hpart⟩ := h₃.writing
    rw [List.append_nil] at hpast
    have htext : s.contents src = some (readBytes log₃) := by
      rw [contents_of_target hsrc, ← hother i hij]
      exact hall rfl
    have hgrows₃ : Grows fs' s₃.fs := h₃.grows
    have hcwd₃ : s₃.cwd = s.cwd := h₃.cwd
    obtain ⟨hlow, htotal⟩ := hcount
    refine .two hdiff htext ?_ (?_ : _ = some copy) hlow ?_
    · change s₃.out ++ _ = _
      rw [show s₃.out = s.out from hout]
    · change (s₃.fs.target s₃.cwd dest).bind s₃.fs.data = _
      rw [hcwd₃, hgrows₃.target hdest]
      exact hcopy
    · rw [← hpast] at hpart
      simp only [whole_append, whole_cons, IsWhole, whole_nil, and_true]
      rcases hpart with ⟨hw, rfl⟩ | ⟨hw, hlt⟩
      · exact .inl ⟨hw, rfl, (htotal.resolve_right fun h => h.1 hw).2⟩
      · exact .inr ⟨hw, hlt, (htotal.resolve_left fun h => hw h.1).2⟩

/-- The ends of `file_copy`. -/
theorem wp_fileCopy :
    wp (logged diskSys) (fileCopy src dest)
      (fun status t => status = 0 → CountEnd s src dest t) (s, []) := by
  rw [fileCopy, wp_bind, wp_perform]
  rintro (_ | srcFd) ⟨s₁, _⟩ ⟨hopen, rfl⟩
  · rintro _ ⟨s₂, _⟩ - hstatus
    exact absurd hstatus (by decide)
  obtain ⟨hfree, i, hsrc, hi, rfl⟩ := hopen
  rw [wp_bind, wp_perform]
  rintro (_ | dstFd) ⟨s₂, _⟩ ⟨hopen', rfl⟩
  · rintro _ ⟨s₃, _⟩ - hstatus
    exact absurd hstatus (by decide)
  obtain ⟨hfree', fs', j, hwrites, rfl⟩ := hopen'
  change wp (logged diskSys) _ _ (s.bothOpen fs' srcFd dstFd i j, _)
  have hfd : srcFd ≠ dstFd := by
    rintro rfl
    simp [Disk.opened] at hfree'
  have htwice := opened_twice_iff hsrc hi hwrites
  by_cases hij : i = j
  · subst hij
    exact wp_copied_one hfd hsrc hi hwrites (htwice.mp rfl)
  · exact wp_copied_two hfd hij hsrc hwrites (mt htwice.mpr hij) (by simp [received])
      (by simp [IsWhole]) (by simp [OpensDest])

/-- A number that an `int` holds, and no other, is printed as it is. -/
theorem bmod_eq_iff {n : Int} {size : Nat} (hlow : -(size : Int) ≤ n) (hn : n ≤ size) :
    n.bmod 4294967296 = size ↔ n = size ∧ size < 2147483648 := by
  have hlt : n.bmod 4294967296 < 2147483648 := Int.bmod_lt (by decide)
  constructor
  · intro h
    have hsize : size < 2147483648 := by omega
    refine ⟨?_, hsize⟩
    rwa [Int.bmod_eq_of_le (by omega) (by omega)] at h
  · rintro ⟨rfl, hsize⟩
    exact Int.bmod_eq_of_le (by omega) (by omega)

/-- In every run with the exit status 0, the number that `file_copy` prints is the size of the
source exactly if the destination holds what the source held, and its size fits into an `int`. -/
theorem count_tells {s' : Disk} (hrun : Exec diskSys (fileCopy src dest) s 0 s') :
    ∃ text n, s.contents src = some text ∧ s'.out = s.out ++ countLine n ∧
      (n = text.length ↔ s'.contents dest = some text ∧ text.length < 2147483648) := by
  obtain ⟨log, hlogged⟩ := hrun.logged []
  cases hlogged.wp wp_fileCopy rfl with
  | @one text _ htext hout hcopy =>
    refine ⟨text, 0, htext, hout, ?_⟩
    rw [show s'.contents dest = some [] from hcopy, Option.some.injEq, List.nil_eq]
    constructor
    · intro h
      obtain rfl : text = [] := List.length_eq_zero_iff.mp (by omega)
      exact ⟨rfl, by decide⟩
    · rintro ⟨rfl, -⟩
      rfl
  | @two text copy n _ htext hout hcopy hlow hcount =>
    have hn : n ≤ text.length := by omega
    refine ⟨text, n.bmod 4294967296, htext, hout, ?_⟩
    rw [bmod_eq_iff hlow hn, show s'.contents dest = some copy from hcopy, Option.some.injEq]
    refine and_congr_left fun _ => ?_
    rcases hcount with ⟨-, rfl, rfl⟩ | ⟨-, hshort, hless⟩
    · simp
    · refine ⟨fun h => absurd h hless.ne, ?_⟩
      rintro rfl
      exact absurd hshort (Nat.lt_irrefl _)

end

/-- A call is made and logged. -/
theorem logged_call {s s' : Disk} {c : Call} {r : c.Result} (h : diskSys s c r s') (log : Trace) :
    logged diskSys (s, log) c r (s', log ++ [⟨c, r⟩]) :=
  ⟨h, rfl⟩

/-- A loop with one block. -/
theorem exec_fileCopyLoop_block {srcFd dstFd : Fd} {text : Bytes} {n : Option Nat}
    {s₀ s₁ s₂ s₃ : Disk} (log : Trace) (hne : text ≠ [])
    (hread : diskSys s₀ (.read srcFd 10) (some text) s₁)
    (hwrite : diskSys s₁ (.write dstFd text) n s₂)
    (hend : diskSys s₂ (.read srcFd 10) (some ([] : Bytes)) s₃) :
    Exec (logged diskSys) (fileCopyLoop srcFd dstFd) (s₀, log) (0 + written n, true)
      (s₃, log ++ [⟨.read srcFd 10, some text⟩] ++ [⟨.write dstFd text, n⟩] ++
        [⟨.read srcFd 10, some ([] : Bytes)⟩]) := by
  obtain ⟨b, bs, rfl⟩ := List.exists_cons_of_ne_nil hne
  exact .again (Exec.step (some (b :: bs)) (logged_call hread _)
      (Exec.step n (logged_call hwrite _) .ret))
    (.done (Exec.step (some ([] : Bytes)) (logged_call hend _) .ret) .ret)

/-- The end of a run that printed its count. -/
theorem exec_report (srcFd dstFd : Fd) (totCnt : Int) (s : Disk) (log : Trace) :
    ∃ s', Exec (logged diskSys) (report srcFd dstFd (totCnt, true)) (s, log) 0
      (s', log ++ [⟨.print (countLine (totCnt.bmod 4294967296)), ()⟩] ++ [⟨.close srcFd, ()⟩] ++
        [⟨.close dstFd, ()⟩]) := by
  have hprint : diskSys s (.print (countLine (totCnt.bmod 4294967296))) () _ := rfl
  have hclose : ∀ (s : Disk) fd, diskSys s (.close fd) () _ := fun _ _ => rfl
  exact ⟨_, Exec.step () (logged_call hprint _) (Exec.step () (logged_call (hclose _ _) _)
    (Exec.step () (logged_call (hclose _ _) _) .ret))⟩

/-- The file `a` is copied to `b` in one block. -/
theorem exec_fileCopy_text :
    ∃ t, Exec (logged diskSys) (fileCopy (utf8 "a") (utf8 "b")) (twoFiles, []) 0 t ∧
      Whole t.2 := by
  have hb : twoFiles.fs.target twoFiles.cwd (utf8 "b") = some 2 := by decide
  have hopen : diskSys twoFiles (.openFile (utf8 "a") .read) (some (3 : Nat))
      (twoFiles.opened 3 1) := ⟨rfl, 1, by decide, rfl, rfl⟩
  have hopen' : diskSys (twoFiles.opened 3 1) (.openFile (utf8 "b") .write) (some (4 : Nat))
      (twoFiles.bothOpen (twoFiles.fs.setNode 2 (.file [])) 3 4 1 2) :=
    ⟨rfl, _, 2, .inl ⟨hb, ⟨utf8 "old", rfl⟩, rfl⟩, rfl⟩
  have hread : diskSys (twoFiles.bothOpen (twoFiles.fs.setNode 2 (.file [])) 3 4 1 2)
      (.read 3 10) (some (utf8 "text"))
      ((twoFiles.bothOpen (twoFiles.fs.setNode 2 (.file [])) 3 4 1 2).seek 3 1 4) :=
    ⟨1, 0, utf8 "text", rfl, rfl, List.prefix_refl _, by decide, fun h => absurd h (by decide),
      rfl⟩
  obtain ⟨s₃, hwrite, hfile, hnode⟩ : ∃ s₃ : Disk, diskSys
      ((twoFiles.bothOpen (twoFiles.fs.setNode 2 (.file [])) 3 4 1 2).seek 3 1 4)
      (.write 4 (utf8 "text")) (some (4 : Nat)) s₃ ∧ s₃.files 3 = some (1, 4) ∧
      s₃.fs.node 1 = some (.file (utf8 "text")) :=
    ⟨_, ⟨2, 0, [], rfl, rfl, by decide, rfl⟩, rfl, rfl⟩
  have hend : diskSys s₃ (.read 3 10) (some ([] : Bytes)) (s₃.seek 3 1 4) :=
    ⟨1, 4, utf8 "text", hfile, hnode, List.nil_prefix, Nat.zero_le _, fun _ => by decide, rfl⟩
  obtain ⟨s', hreport⟩ := exec_report 3 4 (0 + written (some 4)) _ _
  exact ⟨_, Exec.step (some (3 : Nat)) (logged_call hopen _)
    (Exec.step (some (4 : Nat)) (logged_call hopen' _)
      ((exec_fileCopyLoop_block _ (by decide) hread hwrite hend).bind hreport)), by
        simp [IsWhole, show (utf8 "text").length = 4 by decide]⟩

theorem count_tells_text :
    ∃ s', Exec diskSys (fileCopy (utf8 "a") (utf8 "b")) twoFiles 0 s' ∧
      ∃ text n, twoFiles.contents (utf8 "a") = some text ∧
        s'.out = twoFiles.out ++ countLine n ∧
        (n = text.length ↔ s'.contents (utf8 "b") = some text ∧ text.length < 2147483648) := by
  obtain ⟨t, hrun, -⟩ := exec_fileCopy_text
  exact ⟨t.1, hrun.of_logged, count_tells hrun.of_logged⟩

/-! ## 4. By mapping -/

/-- The call `ftruncate`: a file is cut, or filled up with zeros. -/
def ftruncate (fs : FileSys) (i : Ino) (size : Nat) : FileSys :=
  let text := (fs.data i).getD []
  fs.setNode i (.file (text.take size ++ List.replicate (size - text.length) 0))

/-- The call `memcpy` between shared mappings of two files. -/
def memcpy (fs : FileSys) (dst src : Ino) (size : Nat) : FileSys :=
  fs.setNode dst (.file (overwritten ((fs.data dst).getD []) 0
    (((fs.data src).getD []).take size)))

/-- The runs of `mmapcopy` in which no call fails, other than `mmap` for an empty file, of which
nothing is copied. -/
def MmapCopies (s : Disk) (src dest : Bytes) (s' : Disk) : Prop :=
  ∃ i text fs' j, s.fs.target s.cwd src = some i ∧ s.fs.node i = some (.file text) ∧
    s.fs.OpensForWriting s.cwd dest fs' j ∧
    s' = { s with
      fs := memcpy (ftruncate fs' j text.length) j i text.length
      out := s.out ++ utf8 "복사가 완료되었습니다! (" ++ decimalNat text.length ++ utf8 " bytes)\n" }

section

variable {s s₁ : Disk} {src dest : Bytes}

/-- The copy is complete, or there are zeros in place of the file. -/
theorem contents_of_mmapCopies (h : MmapCopies s src dest s₁) :
    ∃ text, s.contents src = some text ∧ s₁.contents dest =
      some (if s.fs.target s.cwd src = s.fs.target s.cwd dest then List.replicate text.length 0
        else text) := by
  obtain ⟨i, text, fs', j, hsrc, hnode, hopen, rfl⟩ := h
  have htext : s.fs.data i = some text := data_eq_some.mpr hnode
  obtain ⟨hgrows, hdest, hempty, hother, -⟩ := OpensForWriting.spec hopen
  have hsized : ftruncate fs' j text.length =
      fs'.setNode j (.file (List.replicate text.length 0)) := by
    simp [ftruncate, hempty]
  refine ⟨text, (contents_of_target hsrc).trans htext, ?_⟩
  have htwice := opened_twice_iff hsrc (by simp [hnode]) hopen
  have hend : ∀ new, ((fs'.setNode j (.file (List.replicate text.length 0))).setNode j
      (.file new)).target s.cwd dest = some j := fun new =>
    ((Grows.setFile hempty _).trans (Grows.setFile (data_setNode_self _ _) _)).target hdest
  change Option.bind (FileSys.target _ s.cwd dest) _ = _
  rw [hsized, memcpy, hend, Option.bind_some, data_setNode_self, data_setNode_self]
  by_cases hij : i = j
  · rw [if_pos (htwice.mp hij), hij, data_setNode_self]
    simp [overwritten]
  · rw [if_neg (mt htwice.mpr hij), data_setNode_of_ne hij, hother i hij, htext]
    simp [overwritten]

/-- Both programs leave the same at the destination, as long as no call fails or stops short,
exactly if the source is empty or is not the destination.  If it is, `mmapcopy` leaves as many
zeros as there were bytes, and `file_copy` nothing. -/
theorem copies_agree_iff {t : Disk × Trace} (hmap : MmapCopies s src dest s₁)
    (hrun : Exec (logged diskSys) (fileCopy src dest) (s, []) 0 t) (hwhole : Whole t.2) :
    (s₁.contents dest = t.1.contents dest ↔
      s.contents src = some [] ∨ s.fs.target s.cwd src ≠ s.fs.target s.cwd dest) ∧
    ∀ text, s.contents src = some text → s.fs.target s.cwd src = s.fs.target s.cwd dest →
      s₁.contents dest = some (List.replicate text.length 0) ∧ t.1.contents dest = some [] := by
  obtain ⟨text, htext, hmapped⟩ := contents_of_mmapCopies hmap
  rw [hmapped, htext]
  cases hrun.wp wp_fileCopy rfl with
  | one hsame _ _ hcopy =>
    refine ⟨by simp [hcopy, hsame], ?_⟩
    rintro _ ⟨⟩ -
    exact ⟨by rw [if_pos hsame], hcopy⟩
  | two hdiff htext' _ hcopy _ hcount =>
    obtain ⟨-, rfl, -⟩ := hcount.resolve_right fun h => h.1 hwhole
    rw [htext'] at htext
    exact ⟨by simp [hcopy, hdiff, htext], fun _ _ hsame => absurd hsame hdiff⟩

end

theorem copies_agree_iff_text :
    ∃ s₁ t, MmapCopies twoFiles (utf8 "a") (utf8 "b") s₁ ∧
      Exec (logged diskSys) (fileCopy (utf8 "a") (utf8 "b")) (twoFiles, []) 0 t ∧
      s₁.contents (utf8 "b") = t.1.contents (utf8 "b") := by
  obtain ⟨t, hrun, hwhole⟩ := exec_fileCopy_text
  have ha : twoFiles.fs.target twoFiles.cwd (utf8 "a") = some 1 := by decide
  have hb : twoFiles.fs.target twoFiles.cwd (utf8 "b") = some 2 := by decide
  have hmap : MmapCopies twoFiles (utf8 "a") (utf8 "b") _ :=
    ⟨1, utf8 "text", _, 2, ha, rfl, .inl ⟨hb, ⟨utf8 "old", rfl⟩, rfl⟩, rfl⟩
  refine ⟨_, t, hmap, hrun, (copies_agree_iff hmap hrun hwhole).1.mpr (.inr ?_)⟩
  rw [ha, hb]
  decide

end PosixLab.Programs
