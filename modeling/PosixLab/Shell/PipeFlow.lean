/-
# What goes through a pipe

The data of a line `L | R`: what the left program writes, what the right one reads, and what is in
between.  The end of the data is found when nobody holds the write end, and a writer is killed when
nobody holds the read end, so both say that the other side is over (`Wired.over`).

`pipe_carries` says that what arrives is what was sent, and all of it, and `pipe_ends` that nobody
waits for good.
-/
import PosixLab.Basis.Progress
import PosixLab.Shell.Pipeline

namespace PosixLab.Shell

open PosixLab

variable {cap : Nat} {s s' : PipeLine} {a : PipeAction} {ev log : List PipeEvent} {x y : Side}
  {c c' : PipeChild} {text : Bytes}

/-! ## 1. What goes through the pipe -/

/-- What the left program has written, in order. -/
def wroteIn (log : List PipeEvent) : Bytes :=
  (log.filterMap fun | .wrote bs => some bs | _ => none).flatten

/-- What the right program has read, in order. -/
def gotIn (log : List PipeEvent) : Bytes :=
  (log.filterMap fun | .got bs => some bs | _ => none).flatten

/-- Nothing more will happen on this side. -/
def PipeLine.Over (s : PipeLine) (x : Side) : Prop :=
  s.shell.forked x = true ∧ ∀ c, s.child x = some c → c.pc.over = true

/-- Nothing has happened on this side but calls. -/
def PipeLine.Early (s : PipeLine) (x : Side) : Prop := ∀ c, s.child x = some c → c.pc.early = true

@[simp] theorem wroteIn_nil : wroteIn [] = [] := rfl

@[simp] theorem gotIn_nil : gotIn [] = [] := rfl

theorem wroteIn_snoc (log : List PipeEvent) (e : PipeEvent) :
    wroteIn (log ++ [e]) = wroteIn log ++ wroteIn [e] := by
  simp [wroteIn]

theorem gotIn_snoc (log : List PipeEvent) (e : PipeEvent) :
    gotIn (log ++ [e]) = gotIn log ++ gotIn [e] := by
  simp [gotIn]

/-- What holds along the runs.  The end of the data is read, and the left program killed, only
when the other side is over. -/
structure Carries (text : Bytes) (log : List PipeEvent) (s : PipeLine) : Prop where
  wired : Wired s
  written : wroteIn log ++ s.todo = text
  read : gotIn log ++ s.buffer = wroteIn log
  early : s.Early .left → wroteIn log = []
  failed : .failed .left ∈ log → s.Over .left ∧ wroteIn log = []
  eof : .eof ∈ log → s.Over .left ∧ s.buffer = [] ∧ .killed ∉ log
  killed : .killed ∈ log → s.Over .right
  finished : s.Over .left → s.todo = [] ∨ .failed .left ∈ log ∨ .killed ∈ log

/-- If nobody holds an end of the pipe any more, the side that used it is over. -/
theorem Wired.over (h : Wired s) (hy : s.child y ≠ none) (hno : s.held x = false) : s.Over x := by
  simp only [PipeLine.held, Bool.or_eq_false_iff] at hno
  obtain ⟨⟨hfd, hchild⟩, -⟩ := hno
  refine ⟨?_, fun c hc => ?_⟩
  · -- somebody was forked, and the shell has closed its own end
    have hforked := h.forked y hy
    rw [h.fd] at hfd
    rcases hpc : s.shell with _ | z | z | last | piped <;> rw [hpc] at hforked hfd
    · exact absurd hforked (by rcases y <;> decide)
    · exact absurd hfd (by simp [ShellPc.fd])
    · rfl
    · rfl
    · exact hforked
  · rw [hc, Option.any_some, h.child x c hc] at hchild
    rcases hpc : c.pc <;> rw [hpc] at hchild <;> first | rfl | exact absurd hchild (by decide)

/-- A step that moves no data and reports nothing about the left side. -/
theorem Carries.quiet (h : Carries text log s) {e : PipeEvent}
    (he : e = .silent ∨ e = .failed .right ∨ e = .early) (hwired : Wired s') (htodo : s'.todo = s.todo)
    (hbuffer : s'.buffer = s.buffer) (hearly : s'.Early .left → s.Early .left)
    (hover : ∀ x, s.Over x → s'.Over x) (hnew : s'.Over .left → s.Over .left ∨ s.todo = []) :
    Carries text (log ++ [e]) s' := by
  have hw : wroteIn (log ++ [e]) = wroteIn log := by
    rw [wroteIn_snoc]
    rcases he with rfl | rfl | rfl <;> exact List.append_nil _
  have hg : gotIn (log ++ [e]) = gotIn log := by
    rw [gotIn_snoc]
    rcases he with rfl | rfl | rfl <;> exact List.append_nil _
  have hmem : ∀ e', e' ≠ .silent → e' ≠ .failed .right → e' ≠ .early →
      (e' ∈ log ++ [e] ↔ e' ∈ log) := by
    intro e' h₁ h₂ h₃
    rcases he with rfl | rfl | rfl <;> simp [h₁, h₂, h₃]
  refine ⟨hwired, by rw [hw, htodo]; exact h.written, by rw [hw, hg, hbuffer]; exact h.read,
    fun hl => by rw [hw]; exact h.early (hearly hl), ?_, ?_, ?_, ?_⟩
  · rw [hmem _ (by simp) (by simp) (by simp), hw]
    exact fun hf => ⟨hover _ (h.failed hf).1, (h.failed hf).2⟩
  · rw [hmem _ (by simp) (by simp) (by simp), hmem _ (by simp) (by simp) (by simp), hbuffer]
    exact fun hf => ⟨hover _ (h.eof hf).1, (h.eof hf).2⟩
  · rw [hmem _ (by simp) (by simp) (by simp)]
    exact fun hf => hover _ (h.killed hf)
  · rw [hmem _ (by simp) (by simp) (by simp), hmem _ (by simp) (by simp) (by simp), htodo]
    intro hl
    rcases hnew hl with hold | hdone
    · exact h.finished hold
    · exact .inl hdone

/-- A child that goes on takes nothing from what is over. -/
theorem over_setChild (hc : s.child x = some c) (hpc : c.pc.over = false) (c' : PipeChild)
    (hy : s.Over y) : (s.setChild x c').Over y := by
  have hyx : y ≠ x := by
    rintro rfl
    have := hy.2 c hc
    rw [hpc] at this
    exact absurd this (by simp)
  exact ⟨hy.1, fun d hd => hy.2 d ((setChild_of_ne _ hyx _).symm.trans hd)⟩

/-- Nor does it make anything over, unless it is over itself. -/
theorem over_of_setChild {c' : PipeChild} (hy : (s.setChild x c').Over y)
    (h : y = x → c'.pc.over = false) : s.Over y := by
  have hyx : y ≠ x := by
    rintro rfl
    have := hy.2 c' (setChild_self _ _ _)
    rw [h rfl] at this
    exact absurd this (by simp)
  exact ⟨hy.1, fun d hd => hy.2 d ((setChild_of_ne _ hyx _).trans hd)⟩

theorem early_of_setChild {c' : PipeChild} (hy : (s.setChild x c').Early y)
    (h : y = x → c'.pc.early = true → s.Early y) : s.Early y := by
  by_cases hyx : y = x
  · exact h hyx (hy c' (by rw [hyx, setChild_self]))
  · exact fun d hd => hy d ((setChild_of_ne _ hyx _).trans hd)

theorem not_over (hc : s.child x = some c) (hpc : c.pc.over = false) : ¬ s.Over x := by
  intro h
  have := h.2 c hc
  rw [hpc] at this
  exact absurd this (by simp)

theorem not_over_of_forked (h : s.shell.forked x = false) : ¬ s.Over x := by
  intro hx
  rw [hx.1] at h
  exact absurd h (by simp)

theorem over_of_early {pc : StagePc} (h : pc.early = true) : pc.over = false := by
  rcases pc <;> first | rfl | exact absurd h (by decide)

/-- The left program cannot be started: it will write nothing. -/
theorem Carries.fails (h : Carries text log s) (hwired : Wired s') (htodo : s'.todo = s.todo)
    (hbuffer : s'.buffer = s.buffer) (hearly : s.Early .left) (hnot : ¬ s.Over .left)
    (hover : s'.Over .left) (hright : s.Over .right → s'.Over .right) :
    Carries text (log ++ [.failed .left]) s' := by
  have hnone := h.early hearly
  have hw : wroteIn (log ++ [.failed .left]) = wroteIn log := by simp [wroteIn]
  have hg : gotIn (log ++ [.failed .left]) = gotIn log := by simp [gotIn]
  refine ⟨hwired, by rw [hw, htodo]; exact h.written, by rw [hw, hg, hbuffer]; exact h.read,
    fun _ => by rw [hw, hnone], fun _ => ⟨hover, by rw [hw, hnone]⟩, fun he => ?_, fun hk => ?_,
    fun _ => .inr (.inl (by simp))⟩
  · exact absurd (h.eof (by simpa using he)).1 hnot
  · exact hright (h.killed (by simpa using hk))

theorem Carries.step (h : Carries text log s) (hm : PipeMove cap s a s' ev) :
    Carries text (log ++ ev) s' := by
  have hwired := h.wired.step hm
  rcases hm with hpc | hpc | ⟨x, hpc⟩ | ⟨x, hpc⟩ | ⟨x, hpc⟩ | ⟨r, last, hpc, hr⟩ | ⟨last, hpc⟩ |
    ⟨x, c, c', a, hc, hcall⟩ | ⟨x, c, hc, hpc⟩ | ⟨c, n, hc, hpc, hpos, hn, hcap⟩ |
    ⟨c, hc, hpc, hno⟩ | ⟨c, n, hc, hpc, hpos, hn⟩ | ⟨c, hc, hpc, hempty, hno⟩ |
    ⟨x, c, a, hc, hpc, htodo⟩
  · have hnot : ∀ x, ¬ s.Over x := fun x =>
      not_over_of_forked (by rw [hpc]; rcases x <;> rfl)
    exact h.quiet (.inl rfl) hwired rfl rfl id (fun x hx => absurd hx (hnot x))
      fun hl => absurd hl.1 (by simp [ShellPc.forked])
  · have hnot : ∀ x, ¬ s.Over x := fun x =>
      not_over_of_forked (by rw [hpc]; rcases x <;> rfl)
    exact h.quiet (.inl rfl) hwired rfl rfl id (fun x hx => absurd hx (hnot x))
      fun hl => absurd hl.1 (by simp [ShellPc.forked])
  · have hright : ¬ s.Over .right := not_over_of_forked (by rw [hpc]; rcases x <;> rfl)
    rcases x
    · have hleft : ¬ s.Over .left := not_over_of_forked (by rw [hpc]; rfl)
      refine h.quiet (.inl rfl) hwired rfl rfl (fun _ d hd => ?_) (fun y hy => ?_)
        fun hl => absurd hl (not_over (setChild_self _ _ _) rfl)
      · have hforked := h.wired.forked .left (by rw [hd]; simp)
        rw [hpc] at hforked
        exact absurd hforked (by decide)
      · rcases y
        · exact absurd hy hleft
        · exact absurd hy hright
    · refine h.quiet (.inl rfl) hwired rfl rfl
        (fun hl => early_of_setChild (s := s) hl fun h => absurd h (by decide)) (fun y hy => ?_)
        fun hl => .inl ⟨by rw [hpc]; rfl, fun d hd => ?_⟩
      · rcases y
        · exact ⟨rfl, fun d hd => hy.2 d ((setChild_of_ne _ (by decide) _).symm.trans hd)⟩
        · exact absurd hy hright
      · exact hl.2 d ((setChild_of_ne _ (by decide) _).trans hd)
  · have hright : ¬ s.Over .right := not_over_of_forked (by rw [hpc]; rcases x <;> rfl)
    rcases x
    · have hnone : s.child .left = none := by
        by_contra hno
        have hforked := h.wired.forked .left hno
        rw [hpc] at hforked
        exact absurd hforked (by decide)
      refine h.fails hwired rfl rfl ?_ (not_over_of_forked (by rw [hpc]; rfl)) ⟨rfl, ?_⟩
        fun hr => absurd hr hright
      · exact fun d hd => absurd (hnone.symm.trans hd) (by simp)
      · exact fun d hd => absurd (hnone.symm.trans hd) (by simp)
    · refine h.quiet (.inr (.inl rfl)) hwired rfl rfl id (fun y hy => ⟨?_, hy.2⟩)
        fun hl => .inl ⟨by rw [hpc]; rfl, hl.2⟩
      rcases y <;> rfl
  · refine h.quiet (.inl rfl) hwired rfl rfl id (fun y hy => ⟨?_, hy.2⟩) fun hl => .inl ⟨?_, hl.2⟩
    · rcases x <;> rfl
    · rw [hpc]
      rfl
  · have hforked : ∀ y, (if last then ShellPc.prompt true else .wait true).forked y = true := by
      rcases last <;> exact fun _ => rfl
    have hthen : s.shell.forked .left = true := by
      rw [hpc]
      rfl
    rcases r with _ | x
    · exact h.quiet (.inl rfl) hwired rfl rfl id (fun y hy => ⟨hforked y, hy.2⟩)
        fun hl => .inl ⟨hthen, hl.2⟩
    · obtain ⟨c, hc, hended⟩ := exists_of_collects hr
      refine h.quiet (.inl rfl) hwired rfl rfl
        (fun hl => early_of_setChild (s := s) hl fun _ he => absurd he (by decide))
        (fun y hy => ⟨hforked y, fun d hd => ?_⟩) fun hl => .inl ⟨hthen, fun d hd => ?_⟩
      · by_cases hyx : y = x
        · subst hyx
          obtain rfl := Option.some.inj ((setChild_self _ y _).symm.trans hd)
          rfl
        · exact hy.2 d ((setChild_of_ne _ hyx _).symm.trans hd)
      · by_cases hyx : .left = x
        · subst hyx
          obtain rfl := Option.some.inj (hc.symm.trans hd)
          rw [hended]
          rfl
        · exact hl.2 d ((setChild_of_ne _ hyx _).trans hd)
  · refine h.quiet (.inr (.inr rfl)) hwired rfl rfl id (fun y hy => ⟨?_, hy.2⟩)
      fun hl => .inl ⟨?_, hl.2⟩
    · rcases last <;> rfl
    · rw [hpc]
      rfl
  · rw [h.wired.child x c hc] at hcall
    obtain ⟨pc', rfl, hearly, hnext, -⟩ := callStep_child hcall
    have hover : pc'.child.pc.over = false := by
      rw [child_pc]
      rcases hnext with hnext | rfl
      · exact over_of_early hnext
      · rfl
    refine h.quiet (.inl rfl) hwired rfl rfl (fun hl => early_of_setChild hl fun hx _ d hd => ?_)
      (fun y => over_setChild hc (over_of_early hearly) _)
      fun hl => .inl (over_of_setChild hl fun _ => hover)
    subst hx
    obtain rfl := Option.some.inj (hc.symm.trans hd)
    exact hearly
  · have hnot : c.pc.over = false := by rw [hpc]; rfl
    rcases x
    · refine h.fails hwired rfl rfl (fun d hd => ?_) (not_over hc hnot)
        ⟨h.wired.forked .left (by rw [hc]; simp), fun d hd => ?_⟩ (over_setChild hc hnot _)
      · obtain rfl := Option.some.inj (hc.symm.trans hd)
        rw [hpc]
        rfl
      · obtain rfl := Option.some.inj ((setChild_self _ _ _).symm.trans hd)
        rfl
    · exact h.quiet (.inr (.inl rfl)) hwired rfl rfl
        (fun hl => early_of_setChild hl fun h => absurd h (by decide))
        (fun y => over_setChild hc hnot _)
        fun hl => .inl (over_of_setChild hl fun h => absurd h (by decide))
  · have hnot : ¬ s.Over .left := not_over hc (by rw [hpc]; rfl)
    have hw : wroteIn (log ++ [.wrote (s.todo.take n)]) = wroteIn log ++ s.todo.take n := by
      simp [wroteIn]
    have hg : gotIn (log ++ [.wrote (s.todo.take n)]) = gotIn log := by simp [gotIn]
    refine ⟨hwired, ?_, ?_, fun he => ?_, fun hf => ?_, fun he => ?_, fun hk => ?_,
      fun hl => absurd hl hnot⟩
    · rw [hw, List.append_assoc, List.take_append_drop]
      exact h.written
    · rw [hw, hg, ← List.append_assoc, h.read]
    · have hearly := he c hc
      rw [hpc] at hearly
      exact absurd hearly (by decide)
    · exact absurd (h.failed (by simpa using hf)).1 hnot
    · exact absurd (h.eof (by simpa using he)).1 hnot
    · exact h.killed (by simpa using hk)
  · have hnot : ¬ s.Over .left := not_over hc (by rw [hpc]; rfl)
    have hright : s.Over .right := h.wired.over (y := .left) (by rw [hc]; simp) hno
    have hw : wroteIn (log ++ [.killed]) = wroteIn log := by simp [wroteIn]
    have hg : gotIn (log ++ [.killed]) = gotIn log := by simp [gotIn]
    refine ⟨hwired, by rw [hw]; exact h.written, by rw [hw, hg]; exact h.read,
      fun he => ?_, fun hf => ?_, fun he => ?_,
      fun _ => over_setChild hc (by rw [hpc]; rfl) _ hright, fun _ => .inr (.inr (by simp))⟩
    · have hearly := he .ended (setChild_self _ _ _)
      exact absurd hearly (by decide)
    · exact absurd (h.failed (by simpa using hf)).1 hnot
    · exact absurd (h.eof (by simpa using he)).1 hnot
  · have hw : wroteIn (log ++ [.got (s.buffer.take n)]) = wroteIn log := by simp [wroteIn]
    have hg : gotIn (log ++ [.got (s.buffer.take n)]) = gotIn log ++ s.buffer.take n := by
      simp [gotIn]
    refine ⟨hwired, by rw [hw]; exact h.written, ?_, fun he => by rw [hw]; exact h.early he,
      fun hf => ?_, fun he => ?_, fun hk => h.killed (by simpa using hk), fun hl => ?_⟩
    · rw [hw, hg, List.append_assoc, List.take_append_drop]
      exact h.read
    · rw [hw]
      exact h.failed (by simpa using hf)
    · -- nothing is read behind the end
      have hempty := (h.eof (by simpa using he)).2.1
      rw [hempty] at hn
      exact absurd hn (Nat.not_le.mpr hpos)
    · simpa using h.finished hl
  · have hnot : ¬ s.Over .right := not_over hc (by rw [hpc]; rfl)
    have hleft : s.Over .left := h.wired.over (y := .right) (by rw [hc]; simp) hno
    have hkeep : (s.setChild .right { c with pc := .exit }).Over .left :=
      over_setChild hc (by rw [hpc]; rfl) _ hleft
    have hw : wroteIn (log ++ [.eof]) = wroteIn log := by simp [wroteIn]
    have hg : gotIn (log ++ [.eof]) = gotIn log := by simp [gotIn]
    refine ⟨hwired, by rw [hw]; exact h.written, by rw [hw, hg]; exact h.read, fun he => ?_,
      fun hf => ?_, fun _ => ⟨hkeep, hempty, fun hk => ?_⟩, fun hk => ?_, fun _ => ?_⟩
    · rw [hw]
      exact h.early (early_of_setChild he fun h => absurd h (by decide))
    · rw [hw]
      exact ⟨hkeep, (h.failed (by simpa using hf)).2⟩
    · exact absurd (h.killed (by simpa using hk)) hnot
    · exact absurd (h.killed (by simpa using hk)) hnot
    · change s.todo = [] ∨ _
      simpa using h.finished hleft
  · have hover : c.pc.over = false := by rcases hpc with hpc | hpc <;> rw [hpc] <;> rfl
    refine h.quiet (.inl rfl) hwired rfl rfl (fun hl => early_of_setChild hl fun _ he => ?_)
      (fun y => over_setChild hc hover _) fun hl => ?_
    · exact absurd he (by decide)
    · rcases x
      · exact .inr (htodo rfl)
      · exact .inl (over_of_setChild hl fun h => absurd h (by decide))

theorem carries_of_runs (h : Runs (pipeStep cap) anyStep (.init text) log s) :
    Carries text log s := by
  have hnot : ∀ x, ¬ (PipeLine.init text).Over x := fun x =>
    not_over_of_forked (by rcases x <;> rfl)
  refine h.invariant (I := Carries text) ⟨⟨?_, ?_, ?_, ?_⟩, rfl, rfl, fun _ => rfl, ?_, ?_, ?_,
    fun hl => absurd hl (hnot _)⟩ ?_
  · funext x
    rfl
  · exact fun x c hc => absurd hc (by simp [PipeLine.init])
  · exact fun x c hc => absurd hc (by simp [PipeLine.init])
  · exact fun x hx => absurd rfl hx
  · exact fun hf => absurd hf List.not_mem_nil
  · exact fun hf => absurd hf List.not_mem_nil
  · exact fun hf => absurd hf List.not_mem_nil
  · intro log s a s' ev _ ih _ hs
    exact ih.step (pipeStep_move hs)

/-- Unless a `wait` returns early, the shell has waited for as many children as it has called
`wait`. -/
theorem waited_of_runs (h : Runs (pipeStep cap) anyStep (.init text) log s) :
    .early ∉ log → s.shell.Waited s.gone := by
  refine h.invariant (I := fun log s => .early ∉ log → s.shell.Waited s.gone)
    (fun _ => trivial) ?_
  intro log s a s' ev hrun ih _ hs hno
  rw [List.mem_append, not_or] at hno
  exact (carries_of_runs hrun).wired.waited_step (ih hno.1) (pipeStep_move hs) hno.2

/-- For a line with a pipe, whatever the interleaving of the three processes and the cuts of reads
and writes, and whether programs can be started or not: the right program has read the start of
what the left one wrote, up to what is still in the pipe; when it finds the end it has read all
that the left one was to write, or nothing if that could not be started; the left one is killed
only when the right side is over; and unless a `wait` has returned early, the shell is back at the
prompt only when it has collected both. -/
theorem pipe_carries (h : Runs (pipeStep cap) anyStep (.init text) log s) :
    (gotIn log ++ s.buffer = wroteIn log ∧ wroteIn log <+: text) ∧
    (.eof ∈ log → gotIn log = if .failed .left ∈ log then [] else text) ∧
    (.killed ∈ log → s.Over .right) ∧
    (.early ∉ log → ∀ piped, s.shell = .prompt piped →
      ∀ x c, s.child x = some c → c.pc = .collected) := by
  have hc := carries_of_runs h
  refine ⟨⟨hc.read, ⟨s.todo, hc.written⟩⟩, fun he => ?_, hc.killed, fun hno piped hpc x c hx => ?_⟩
  · obtain ⟨hover, hempty, hno⟩ := hc.eof he
    have hall : gotIn log = wroteIn log := by rw [← hc.read, hempty, List.append_nil]
    rw [hall]
    split
    · exact (hc.failed ‹_›).2
    · rename_i hstarted
      rcases hc.finished hover with htodo | hf | hk
      · rw [← hc.written, htodo, List.append_nil]
      · exact absurd hf hstarted
      · exact absurd hk hno
  · have hgone := waited_of_runs h hno
    rw [hpc] at hgone
    have := hgone x
    rw [PipeLine.gone, hx] at this
    simpa using this

/-- The text `hi` goes through a pipe for one byte. -/
def hiSteps : List PipeAction :=
  [.pipe true, .fork true, .stage .left .closeOther, .fork true, .close, .stage .left .dup, .close,
    .stage .left .closeOwn, .stage .left (.exec true), .stage .left (.write 1),
    .stage .right .closeOther, .stage .right .dup, .stage .right .closeOwn,
    .stage .right (.exec true), .stage .right (.read 1), .stage .left (.write 1),
    .stage .left .exit, .stage .right (.read 1), .wait (some .left), .stage .right .eof,
    .stage .right .exit, .wait (some .right)]

theorem pipe_carries_hi :
    ∃ log s, Runs (pipeStep 1) anyStep (.init (utf8 "hi")) log s ∧ s.shell = .prompt true ∧
      gotIn log = utf8 "hi" := by
  obtain ⟨log, s, hrun, hp⟩ : ∃ log s, Runs (pipeStep 1) anyStep (.init (utf8 "hi")) log s ∧
      (s.shell == .prompt true && decide (.eof ∈ log ∧ .failed .left ∉ log)) = true :=
    exists_runs_of_exec hiSteps _ (by decide)
  simp only [Bool.and_eq_true, beq_iff_eq, decide_eq_true_eq] at hp
  obtain ⟨hprompt, heof, hstarted⟩ := hp
  refine ⟨log, s, hrun, hprompt, ?_⟩
  rw [(pipe_carries hrun).2.1 heof, if_neg hstarted]

/-! ## 2. Nobody waits for good -/

def PipeLine.childLeft (s : PipeLine) (x : Side) : Nat := ((s.child x).map (·.pc.left)).getD 0

/-- How many steps the shell has still to take, and the children that it has not forked. -/
def ShellPc.left : ShellPc → Nat
  | .pipe => 19
  | .fork .left => 18
  | .fork .right => 11
  | .close .right => 4
  | .close .left => 3
  | .wait false => 2
  | .wait true => 1
  | .prompt _ => 0

/-- A byte is written and read. -/
def PipeLine.left (s : PipeLine) : Nat :=
  s.shell.left + s.childLeft .left + s.childLeft .right + 2 * s.todo.length + s.buffer.length

theorem childLeft_setChild_self (s : PipeLine) (x : Side) (c : PipeChild) :
    (s.setChild x c).childLeft x = c.pc.left := by
  simp [PipeLine.childLeft]

theorem childLeft_setChild_of_ne (s : PipeLine) {x y : Side} (h : y ≠ x) (c : PipeChild) :
    (s.setChild x c).childLeft y = s.childLeft y := by
  rw [PipeLine.childLeft, setChild_of_ne _ h, PipeLine.childLeft]

/-- Another child at this side. -/
theorem left_replace (s : PipeLine) (x : Side) (c : PipeChild) :
    (s.setChild x c).left + s.childLeft x = s.left + c.pc.left := by
  have hshell : (s.setChild x c).shell = s.shell := rfl
  have htodo : (s.setChild x c).todo = s.todo := rfl
  have hbuffer : (s.setChild x c).buffer = s.buffer := rfl
  have hself := childLeft_setChild_self s x c
  rw [PipeLine.left, PipeLine.left, hshell, htodo, hbuffer]
  rcases x
  · rw [hself, childLeft_setChild_of_ne _ (by decide)]
    omega
  · rw [hself, childLeft_setChild_of_ne _ (by decide)]
    omega

/-- A child that comes closer to its end brings the line closer to its own. -/
theorem left_setChild (hc : s.child x = some c) (c' : PipeChild) :
    (s.setChild x c').left + c.pc.left = s.left + c'.pc.left := by
  have hx : s.childLeft x = c.pc.left := by simp [PipeLine.childLeft, hc]
  rw [← hx]
  exact left_replace s x c'

/-- The shell that goes on brings the line closer to its end. -/
theorem left_shell (s : PipeLine) (pc : ShellPc) (fd : Side → Bool) :
    PipeLine.left { s with shell := pc, fd := fd } + s.shell.left = s.left + pc.left := by
  simp only [PipeLine.left, PipeLine.childLeft]
  omega

theorem PipeMove.uses (h : Wired s) (hm : PipeMove cap s a s' ev) :
    s'.left + ev.length ≤ s.left := by
  rcases hm with hpc | hpc | ⟨x, hpc⟩ | ⟨x, hpc⟩ | ⟨x, hpc⟩ | ⟨r, last, hpc, hr⟩ | ⟨last, hpc⟩ |
    ⟨x, c, c', a, hc, hcall⟩ | ⟨x, c, hc, hpc⟩ | ⟨c, n, hc, hpc, hpos, hn, hcap⟩ |
    ⟨c, hc, hpc, hno⟩ | ⟨c, n, hc, hpc, hpos, hn⟩ | ⟨c, hc, hpc, hempty, hno⟩ |
    ⟨x, c, a, hc, hpc, htodo⟩
  · have hstep := left_shell s (.fork .left) fun _ => true
    simp only [hpc, ShellPc.left, List.length_singleton] at hstep ⊢
    omega
  · have hstep := left_shell s (.prompt false) s.fd
    simp only [hpc, ShellPc.left, List.length_singleton] at hstep ⊢
    omega
  · have hshell := left_shell s (if x = .left then .fork .right else .close .right) s.fd
    have hchild := left_replace
      { s with shell := if x = .left then .fork .right else .close .right } x
      ⟨.closeOther, s.fd x, s.fd x.other, false⟩
    rcases x <;> simp only [hpc, ShellPc.left, StagePc.left, List.length_singleton, if_true,
      reduceCtorEq, if_false] at hshell hchild ⊢
    · omega
    · omega
  · have hstep := left_shell s (if x = .left then .fork .right else .close .right) s.fd
    rcases x <;>
      simp only [hpc, ShellPc.left, List.length_singleton, if_true, reduceCtorEq, if_false]
        at hstep ⊢
    · omega
    · omega
  · have hstep := left_shell s (if x = .right then .close .left else .wait false)
      (Function.update s.fd x false)
    rcases x <;>
      simp only [hpc, ShellPc.left, List.length_singleton, if_true, reduceCtorEq, if_false]
        at hstep ⊢
    · omega
    · omega
  · have hcollect : (s.collect r).left = s.left := by
      rcases r with _ | x
      · rfl
      · obtain ⟨c, hc, hended⟩ := exists_of_collects hr
        have hstep := left_setChild hc ⟨.collected, false, false, false⟩
        change (s.setChild x _).left = s.left
        simpa [hended, StagePc.left] using hstep
    have hsame : (s.collect r).shell = s.shell := by rcases r <;> rfl
    have hstep := left_shell (s.collect r) (if last then .prompt true else .wait true)
      (s.collect r).fd
    rw [hcollect, hsame, hpc] at hstep
    rcases last <;> simp only [ShellPc.left, List.length_singleton, if_true, Bool.false_eq_true,
      if_false] at hstep ⊢
    · omega
    · omega
  · have hstep := left_shell s (if last then .prompt true else .wait true) s.fd
    rcases last <;> simp only [hpc, ShellPc.left, List.length_singleton, if_true,
      Bool.false_eq_true, if_false] at hstep ⊢
    · omega
    · omega
  · rw [h.child x c hc] at hcall
    obtain ⟨pc', rfl, -, -, hless⟩ := callStep_child hcall
    have hstep := left_setChild hc pc'.child
    rw [child_pc] at hstep
    rw [List.length_singleton]
    omega
  · have hstep := left_setChild hc .ended
    simp only [hpc, PipeChild.ended, StagePc.left, List.length_singleton] at hstep ⊢
    omega
  · simp only [PipeLine.left, PipeLine.childLeft, List.length_singleton, List.length_drop,
      List.length_append, List.length_take]
    omega
  · have hstep := left_setChild hc .ended
    simp only [hpc, PipeChild.ended, StagePc.left, List.length_singleton] at hstep ⊢
    omega
  · simp only [PipeLine.left, PipeLine.childLeft, List.length_singleton, List.length_drop]
    omega
  · have hstep := left_setChild hc { c with pc := .exit }
    simp only [hpc, StagePc.left, List.length_singleton] at hstep ⊢
    omega
  · have hstep := left_setChild hc .ended
    rcases hpc with hpc | hpc
    · simp only [hpc, PipeChild.ended, StagePc.left, List.length_singleton] at hstep ⊢
      omega
    · simp only [hpc, PipeChild.ended, StagePc.left, List.length_singleton] at hstep ⊢
      omega

/-- Some step can be taken, and not only because the right program gives up or a `wait` returns
early. -/
def CanGo (cap : Nat) (s : PipeLine) : Prop :=
  ∃ a, a ≠ .stage .right .quit ∧ a ≠ .waitEarly ∧ (pipeStep cap s a).isSome = true

theorem canGo_stage (hc : s.child x = some c) {a : StageAction} (ha : a ≠ .quit)
    (h : (stageStep cap s x c a).isSome = true) : CanGo cap s := by
  refine ⟨.stage x a, by simp [ha], by simp, ?_⟩
  rw [pipeStep, hc]
  exact h

/-- A child makes its calls without waiting for anybody. -/
theorem canGo_of_early (hc : s.child x = some c) (hpc : c.pc.early = true) : CanGo cap s := by
  rcases hp : c.pc <;> rw [hp] at hpc
  · exact canGo_stage (a := .closeOther) hc (by simp) (by simp [stageStep, callStep, hp])
  · exact canGo_stage (a := .dup) hc (by simp) (by simp [stageStep, callStep, hp])
  · exact canGo_stage (a := .closeOwn) hc (by simp) (by simp [stageStep, callStep, hp])
  · exact canGo_stage (a := .exec true) hc (by simp) (by simp [stageStep, callStep, hp])
  all_goals exact absurd hpc (by decide)

/-- While the shell waits, a side has been collected, or it goes on, or it is in its program. -/
theorem Wired.gone_or_run (h : Wired s) {last : Bool} (hpc : s.shell = .wait last) (x : Side) :
    s.gone x = true ∨ CanGo cap s ∨ ∃ c, s.child x = some c ∧ c.pc = .run := by
  rcases hc : s.child x with _ | c
  · exact .inl (by simp [PipeLine.gone, hc])
  · rcases hp : c.pc
    case run => exact .inr (.inr ⟨c, rfl, hp⟩)
    case collected => exact .inl (by simp [PipeLine.gone, hc, hp])
    case ended =>
      refine .inr (.inl ⟨.wait (some x), by simp, by simp, ?_⟩)
      rw [pipeStep, hpc]
      simp [PipeLine.Collects, hc, hp]
    case exit =>
      obtain rfl := h.exit x c hc hp
      exact .inr (.inl (canGo_stage (a := .exit) hc (by simp) (by simp [stageStep, hp])))
    all_goals exact .inr (.inl (canGo_of_early hc (by rw [hp]; rfl)))

/-- A left program that is running goes on, as long as what it writes is taken. -/
theorem canGo_left (h : Wired s) (hc : s.child .left = some c) (hpc : c.pc = .run)
    (hroom : s.held .right = true → s.buffer.length + 1 ≤ cap) : CanGo cap s := by
  have hstd : c.std = true := by
    rw [h.child _ c hc, hpc]
    rfl
  by_cases htodo : s.todo = []
  · exact canGo_stage (a := .exit) hc (by simp) (by simp [stageStep, hpc, htodo])
  · rcases hheld : s.held .right
    · exact canGo_stage (a := .sigpipe) hc (by simp) (by simp [stageStep, hpc, hstd, hheld, htodo])
    · have hlen : 1 ≤ s.todo.length := List.length_pos_iff.mpr htodo
      exact canGo_stage (a := .write 1) hc (by simp)
        (by simp [stageStep, hpc, hstd, hheld, hlen, hroom hheld])

/-- Behind the forks an end is held by the own side alone. -/
theorem Wired.not_held (h : Wired s) {last : Bool} (hpc : s.shell = .wait last)
    (hgone : s.gone x = true) (hc : s.child x.other = some c) (hrun : c.pc = .run) :
    s.held x = false := by
  have hother : c.other = false := by
    rw [h.child _ c hc, hrun]
    rfl
  rcases hx : s.child x with _ | d
  · simp [PipeLine.held, h.fd, hpc, ShellPc.fd, hx, hc, hother]
  · have hd : d = ⟨.collected, false, false, false⟩ := by
      have hpc : d.pc = .collected := by simpa [PipeLine.gone, hx] using hgone
      rw [h.child x d hx, hpc]
      rfl
    simp [PipeLine.held, h.fd, hpc, ShellPc.fd, hx, hc, hother, hd]

/-- Nobody waits for somebody who waits for him. -/
theorem Wired.canGo (h : Wired s) (hcap : 0 < cap) (hpc : ∀ piped, s.shell ≠ .prompt piped) :
    CanGo cap s := by
  rcases hshell : s.shell with _ | x | x | last | piped
  · exact ⟨.pipe true, by simp, by simp, by simp [pipeStep, hshell]⟩
  · exact ⟨.fork true, by simp, by simp, by simp [pipeStep, hshell]⟩
  · exact ⟨.close, by simp, by simp, by simp [pipeStep, hshell]⟩
  · rcases h.gone_or_run hshell .right with hright | hgo | ⟨c, hc, hrun⟩
    · rcases h.gone_or_run hshell .left with hleft | hgo | ⟨d, hd, hdrun⟩
      · -- nobody is left to wait for
        exact ⟨.wait none, by simp, by simp,
          by simp [pipeStep, hshell, PipeLine.Collects, hleft, hright]⟩
      · exact hgo
      · -- nobody reads any more
        have hno : s.held .right = false := h.not_held hshell hright hd hdrun
        exact canGo_left h hd hdrun fun hheld => absurd (hno.symm.trans hheld) (by simp)
    · exact hgo
    · have hstd : c.std = true := by
        rw [h.child _ c hc, hrun]
        rfl
      by_cases hbuffer : s.buffer = []
      · rcases hheld : s.held .left
        · exact canGo_stage (a := .eof) hc (by simp)
            (by simp [stageStep, hrun, hstd, hbuffer, hheld])
        · -- it is the left side that still holds the write end
          rcases h.gone_or_run hshell .left with hleft | hgo | ⟨d, hd, hdrun⟩
          · have hno : s.held .left = false := h.not_held hshell hleft hc hrun
            exact absurd (hno.symm.trans hheld) (by simp)
          · exact hgo
          · exact canGo_left h hd hdrun fun _ => by rwa [hbuffer]
      · have hlen : 1 ≤ s.buffer.length := List.length_pos_iff.mpr hbuffer
        exact canGo_stage (a := .read 1) hc (by simp)
          (by simp [stageStep, hrun, hstd, hlen])
  · exact absurd hshell (hpc piped)

/-- Every run of a line with a pipe is short, whoever chooses its steps: a constant, and two steps
for each byte at most.  And as long as the shell is not back at the prompt there is a step to be
taken, even if the right program reads to the end and no `wait` returns early: no end of the pipe
is left open that would keep somebody waiting. -/
theorem pipe_ends (hcap : 0 < cap) (h : Runs (pipeStep cap) anyStep (.init text) log s) :
    log.length ≤ 19 + 2 * text.length ∧
    ((∀ piped, s.shell ≠ .prompt piped) →
      ∃ a, a ≠ .stage .right .quit ∧ a ≠ .waitEarly ∧ (pipeStep cap s a).isSome = true) := by
  refine ⟨?_, (carries_of_runs h).wired.canGo hcap⟩
  have hpays : Pays (pipeStep cap) anyStep (.init text) (fun _ => false) PipeLine.left 0 := by
    intro log s a s' ev hrun _ hs
    have := (pipeStep_move hs).uses (carries_of_runs hrun).wired
    simpa using this
  have hpot := h.potential hpays
  have hinit : (PipeLine.init text).left = 19 + 2 * text.length := by
    simp [PipeLine.left, PipeLine.init, PipeLine.childLeft, ShellPc.left]
  simp only [Bool.not_false, List.countP_true, Nat.zero_mul, Nat.add_zero] at hpot
  omega

theorem pipe_ends_hi :
    ∃ log s, Runs (pipeStep 1) anyStep (.init (utf8 "hi")) log s ∧ log.length = 9 ∧
      ∃ a, a ≠ .stage .right .quit ∧ a ≠ .waitEarly ∧ (pipeStep 1 s a).isSome = true := by
  obtain ⟨log, s, hrun, hp⟩ : ∃ log s, Runs (pipeStep 1) anyStep (.init (utf8 "hi")) log s ∧
      (s.shell == .wait false && log.length == 9) = true :=
    exists_runs_of_exec (hiSteps.take 9) _ (by decide)
  simp only [Bool.and_eq_true, beq_iff_eq] at hp
  refine ⟨log, s, hrun, hp.2, (pipe_ends (by decide) hrun).2 fun piped hpc => ?_⟩
  rw [hp.1] at hpc
  exact absurd hpc (by simp)

end PosixLab.Shell
