/-
# Waiting for the foreground

The calls of `main`, read over the children of the shell.  Between any two calls children may
terminate, in any order, and a handled signal may end a `wait` or `waitpid` early, since the
handlers are installed without `SA_RESTART`.  A terminated child stays in the table until it is
collected; `wait` collects any one of them, whichever line it was forked for.

`foreground_done` says what it takes for the prompt to come only when the children of the line
are done: as long as one of them runs, no wait is interrupted, and the waits of a pipeline
collect a child of the line rather than one of an earlier line.  Nothing in the source sees to
either (`prompt_early`).
-/
import Mathlib.Logic.Relation
import PosixLab.Shell.Main

namespace PosixLab.Shell

open Prog

/-! ## 1. Children -/

/-- A child of the shell that was not collected yet, with the number of the line it was forked
for. -/
structure Child where
  pid : Pid
  line : Nat
  running : Bool
deriving DecidableEq, Repr

/-- The children of the shell, and the number of the line that is being handled. -/
structure Jobs where
  children : List Child
  line : Nat
deriving DecidableEq, Repr

namespace Jobs

/-- The child `pid` terminates. -/
def terminate (s : Jobs) (pid : Pid) : Jobs :=
  { s with children := s.children.map fun c =>
      if c.pid = pid then { c with running := false } else c }

/-- The child `pid` is collected. -/
def collect (s : Jobs) (pid : Pid) : Jobs :=
  { s with children := s.children.filter (·.pid != pid) }

/-- A child is forked for the line. -/
def forked (s : Jobs) (pid : Pid) : Jobs :=
  { s with children := ⟨pid, s.line, true⟩ :: s.children }

/-- The next line is read. -/
def next (s : Jobs) : Jobs := { s with line := s.line + 1 }

/-- The children of the current line that were not collected. -/
def own (s : Jobs) : List Pid := (s.children.filter (·.line == s.line)).map (·.pid)

@[simp] theorem terminate_line (s : Jobs) (pid : Pid) : (s.terminate pid).line = s.line := rfl
@[simp] theorem collect_line (s : Jobs) (pid : Pid) : (s.collect pid).line = s.line := rfl
@[simp] theorem forked_line (s : Jobs) (pid : Pid) : (s.forked pid).line = s.line := rfl
@[simp] theorem next_line (s : Jobs) : s.next.line = s.line + 1 := rfl

@[simp] theorem own_forked (s : Jobs) (pid : Pid) : (s.forked pid).own = pid :: s.own := by
  simp [own, forked]

@[simp] theorem own_collect (s : Jobs) (pid : Pid) :
    (s.collect pid).own = s.own.filter (· != pid) := by
  simp only [own, collect, List.filter_filter, List.filter_map]
  congr 1
  refine List.filter_congr fun c _ => ?_
  simp [Bool.and_comm]

@[simp] theorem own_terminate (s : Jobs) (pid : Pid) : (s.terminate pid).own = s.own := by
  simp only [own, terminate, List.filter_map, List.map_map]
  have hline : ((fun c : Child => c.line == s.line) ∘
      fun c => if c.pid = pid then { c with running := false } else c) =
        fun c => c.line == s.line := by
    funext c
    simp only [Function.comp_apply]
    split <;> rfl
  have hpid : ((fun c : Child => c.pid) ∘
      fun c => if c.pid = pid then { c with running := false } else c) = fun c => c.pid := by
    funext c
    simp only [Function.comp_apply]
    split <;> rfl
  rw [hline, hpid]

end Jobs

/-- Time passes, and some children terminate. -/
def Elapse : Jobs → Jobs → Prop := Relation.ReflTransGen fun s s' => ∃ pid, s' = s.terminate pid

theorem Elapse.keeps {s s' : Jobs} (h : Elapse s s') : s'.line = s.line ∧ s'.own = s.own := by
  induction h with
  | refl => exact ⟨rfl, rfl⟩
  | tail _ hstep ih =>
    obtain ⟨pid, rfl⟩ := hstep
    exact ⟨ih.1, (Jobs.own_terminate _ _).trans ih.2⟩

/-! ## 2. The calls of the shell -/

/-- How a `wait` or `waitpid` ends: it collected a child, it was interrupted by a handled signal,
or there is no child to wait for. -/
inductive WaitResult
  | collected (pid : Pid)
  | interrupted
  | noChild
deriving DecidableEq, Repr

/-- Wait for the child `who`, or for any child. -/
def Waits (who : Option Pid) (s : Jobs) : WaitResult → Jobs → Prop
  | .collected pid, s' =>
    (∃ c ∈ s.children, c.pid = pid ∧ c.running = false ∧ who.getD pid = pid) ∧ s' = s.collect pid
  | .interrupted, s' => s' = s
  | .noChild, s' => (∀ c ∈ s.children, who.getD c.pid ≠ c.pid) ∧ s' = s

/-- What a call of the shell does at the moment it takes effect, where waits end as `ok` says.  In
the shell `fork` does not return 0. -/
def jobStep (ok : Jobs → WaitResult → Prop) (s : Jobs) : (c : MainCall) → c.Result → Jobs → Prop
  | .fork, .parent pid, s' => (∀ c ∈ s.children, c.pid ≠ pid) ∧ s' = s.forked pid
  | .fork, .failed, s' => s' = s
  | .fork, .child, _ => False
  | .wait, _, s' => ∃ r, ok s r ∧ Waits none s r s'
  | .waitpid pid, _, s' => ∃ r, ok s r ∧ Waits (some pid) s r s'
  | _, _, s' => s' = s

/-- The calls of the shell among its children. -/
def jobSys (ok : Jobs → WaitResult → Prop) (s : Jobs) (c : MainCall) (r : c.Result)
    (s' : Jobs) : Prop :=
  ∃ s₁, Elapse s s₁ ∧ jobStep ok s₁ c r s'

/-- Waits may end in any way. -/
def anyWait (_ : Jobs) (_ : WaitResult) : Prop := True

/-- Every child of the current line has terminated. -/
def AllDone (s : Jobs) : Prop := ∀ c ∈ s.children, c.line = s.line → c.running = false

/-- While a child of the line is running, no wait is interrupted, and what it collects is a child
of the line. -/
def Undisturbed (s : Jobs) (r : WaitResult) : Prop :=
  ¬ AllDone s → r ≠ .interrupted ∧ ∀ pid, r = .collected pid → pid ∈ s.own

/-- The states in which the shell can be at its prompt, after any lines. -/
inductive AtPrompt (ok : Jobs → WaitResult → Prop) : Jobs → Prop
  | start : AtPrompt ok ⟨[], 0⟩
  | elapse {s s' : Jobs} : AtPrompt ok s → Elapse s s' → AtPrompt ok s'
  | line {s s' : Jobs} {line : Bytes} {other : Treatment} :
      AtPrompt ok s → Exec (jobSys ok) (handleLine line other) s.next .prompt s' →
        AtPrompt ok s'

/-! ## 3. Lines are numbered -/

/-- Every child was forked for a line up to the `n`-th, which is the current one. -/
def Numbered (n : Nat) (s : Jobs) : Prop := s.line = n ∧ ∀ c ∈ s.children, c.line ≤ n

theorem Numbered.terminate {n : Nat} {s : Jobs} (h : Numbered n s) (pid : Pid) :
    Numbered n (s.terminate pid) := by
  refine ⟨h.1, fun c hc => ?_⟩
  obtain ⟨c', hc', rfl⟩ := List.mem_map.mp hc
  split
  · exact h.2 c' hc'
  · exact h.2 c' hc'

theorem Numbered.elapse {n : Nat} {s s' : Jobs} (h : Numbered n s) (he : Elapse s s') :
    Numbered n s' := by
  induction he with
  | refl => exact h
  | tail _ hstep ih =>
    obtain ⟨pid, rfl⟩ := hstep
    exact ih.terminate pid

theorem Numbered.collect {n : Nat} {s : Jobs} (h : Numbered n s) (pid : Pid) :
    Numbered n (s.collect pid) :=
  ⟨h.1, fun c hc => h.2 c (List.mem_of_mem_filter hc)⟩

theorem Numbered.waits {n : Nat} {s s' : Jobs} {who : Option Pid} {r : WaitResult}
    (h : Numbered n s) (hw : Waits who s r s') : Numbered n s' := by
  cases r with
  | collected pid => exact hw.2 ▸ h.collect pid
  | interrupted => exact hw ▸ h
  | noChild => exact hw.2 ▸ h

theorem Numbered.call {ok : Jobs → WaitResult → Prop} {n : Nat} {s s' : Jobs} {c : MainCall}
    {r : c.Result} (hc : jobSys ok s c r s') (h : Numbered n s) : Numbered n s' := by
  obtain ⟨s₁, he, hstep⟩ := hc
  have h₁ := h.elapse he
  cases c with
  | fork =>
    cases r with
    | child => exact hstep.elim
    | parent pid =>
      obtain ⟨-, rfl⟩ := hstep
      refine ⟨h₁.1, fun c hc => ?_⟩
      rcases List.mem_cons.mp hc with rfl | hc
      · exact h₁.1.le
      · exact h₁.2 c hc
    | failed => exact hstep ▸ h₁
  | wait =>
    obtain ⟨r, -, hw⟩ := hstep
    exact h₁.waits hw
  | waitpid pid =>
    obtain ⟨r, -, hw⟩ := hstep
    exact h₁.waits hw
  | _ => exact hstep ▸ h₁

theorem numbered_of_atPrompt {ok : Jobs → WaitResult → Prop} {s : Jobs} (h : AtPrompt ok s) :
    Numbered s.line s := by
  induction h with
  | start => exact ⟨rfl, by simp⟩
  | elapse _ he ih => exact he.keeps.1 ▸ ih.elapse he
  | @line s s' line other _ hexec ih =>
    have hnext : Numbered (s.line + 1) s.next :=
      ⟨rfl, fun c hc => Nat.le_succ_of_le (ih.2 c hc)⟩
    have hs' := hexec.invariant (fun _ _ _ _ => Numbered.call) hnext
    exact hs'.1 ▸ hs'

/-- No child belongs to a line that was just read. -/
theorem own_next {ok : Jobs → WaitResult → Prop} {s : Jobs} (h : AtPrompt ok s) :
    s.next.own = [] := by
  simp only [Jobs.own, List.map_eq_nil_iff, List.filter_eq_nil_iff]
  intro c hc
  have := (numbered_of_atPrompt h).2 c hc
  simp only [Jobs.next_line, beq_iff_eq]
  omega

/-! ## 4. The foreground -/

section

variable {s : Jobs}

/-- A call that neither forks nor waits does not touch the children of the line. -/
theorem own_of_call {ok : Jobs → WaitResult → Prop} {s' : Jobs} {c : MainCall} {r : c.Result}
    (h : jobSys ok s c r s') (hc : ∀ {s₁ : Jobs}, jobStep ok s₁ c r s' → s' = s₁) :
    s'.own = s.own := by
  obtain ⟨s₁, he, hstep⟩ := h
  rw [hc hstep, he.keeps.2]

theorem allDone_of_own_eq_nil (h : s.own = []) : AllDone s := by
  intro c hc hline
  have hmem : c.pid ∈ s.own :=
    List.mem_map.mpr ⟨c, List.mem_filter.mpr ⟨hc, by simp [hline]⟩, rfl⟩
  rw [h] at hmem
  cases hmem

theorem AllDone.elapse {s' : Jobs} (h : AllDone s) (he : Elapse s s') : AllDone s' := by
  induction he with
  | refl => exact h
  | tail _ hstep ih =>
    obtain ⟨pid, rfl⟩ := hstep
    intro c hc hline
    obtain ⟨c', hc', rfl⟩ := List.mem_map.mp hc
    split
    · rfl
    · rename_i hpid
      rw [if_neg hpid] at hline
      exact ih c' hc' hline

/-- Waiting longer than needed does no harm. -/
theorem AllDone.waits {s' : Jobs} {who : Option Pid} {r : WaitResult} (h : AllDone s)
    (hw : Waits who s r s') : AllDone s' := by
  cases r with
  | collected pid =>
    obtain ⟨-, rfl⟩ := hw
    exact fun c hc => h c (List.mem_of_mem_filter hc)
  | interrupted =>
    obtain rfl : s' = s := hw
    exact h
  | noChild =>
    obtain ⟨-, rfl⟩ := hw
    exact h

/-- If a child of the line runs, a wait leaves one less. -/
theorem wp_wait {n : Nat} (h : AllDone s ∨ s.own.length ≤ n + 1) :
    wp (jobSys Undisturbed) (call .wait) (fun _ s' => AllDone s' ∨ s'.own.length ≤ n) s := by
  rintro _ s' ⟨s₁, he, r, hok, hw⟩
  by_cases hdone : AllDone s₁
  · exact .inl (hdone.waits hw)
  replace h := h.resolve_left fun hs => hdone (hs.elapse he)
  rw [← he.keeps.2] at h
  obtain ⟨hint, hown⟩ := hok hdone
  right
  cases r with
  | collected pid =>
    obtain ⟨-, rfl⟩ := hw
    show (s₁.collect pid).own.length ≤ n
    rw [Jobs.own_collect]
    have hlt : (s₁.own.filter (· != pid)).length < s₁.own.length :=
      List.length_filter_lt_length_iff_exists.mpr ⟨pid, hown pid rfl, by simp⟩
    omega
  | interrupted => exact absurd rfl hint
  | noChild =>
    obtain ⟨hno, hs'⟩ := hw
    have hnil : s₁.children = [] := by
      rw [List.eq_nil_iff_forall_not_mem]
      exact fun c hc => hno c hc rfl
    rw [hs']
    show s₁.own.length ≤ n
    simp [Jobs.own, hnil]

/-- After the wait for the one child of the line it does not run. -/
theorem wp_waitpid {pid : Pid} (h : s.own = [pid]) :
    wp (jobSys Undisturbed) (call (.waitpid pid)) (fun _ s' => AllDone s') s := by
  rintro _ s' ⟨s₁, he, r, hok, hw⟩
  by_cases hdone : AllDone s₁
  · exact hdone.waits hw
  rw [← he.keeps.2] at h
  cases r with
  | collected pid' =>
    obtain ⟨⟨c, -, -, -, hpid⟩, rfl⟩ := hw
    obtain rfl : pid = pid' := hpid
    exact allDone_of_own_eq_nil (by simp [h])
  | interrupted => exact absurd rfl (hok hdone).1
  | noChild =>
    obtain ⟨c, hc, rfl⟩ : ∃ c ∈ s₁.children, c.pid = pid := by
      have hmem : pid ∈ s₁.own := by simp [h]
      obtain ⟨c, hc, hpid⟩ := List.mem_map.mp hmem
      exact ⟨c, List.mem_of_mem_filter hc, hpid⟩
    exact absurd rfl (hw.1 c hc)

/-- A `fork` in the shell adds at most one child of the line. -/
theorem own_of_fork {ok : Jobs → WaitResult → Prop} {s' : Jobs} {r : ForkResult}
    (h : jobSys ok s .fork r s') :
    (∃ pid, r = .parent pid ∧ s'.own = pid :: s.own) ∨ (r = .failed ∧ s'.own = s.own) := by
  obtain ⟨s₁, he, hstep⟩ := h
  rw [← he.keeps.2]
  cases r with
  | child => exact hstep.elim
  | parent pid =>
    obtain ⟨-, rfl⟩ := hstep
    exact .inl ⟨pid, rfl, Jobs.own_forked s₁ pid⟩
  | failed =>
    obtain rfl : s' = s₁ := hstep
    exact .inr ⟨rfl, rfl⟩

theorem wp_external_done (h : s.own = []) (cmd : Command) :
    wp (jobSys Undisturbed) (external false cmd) (fun _ s' => AllDone s') s := by
  rw [external, wp_bind, wp_perform]
  intro pid s₁ hfork
  rcases own_of_fork hfork with ⟨pid, rfl, hown⟩ | ⟨rfl, hown⟩
  · dsimp only
    rw [if_neg (by decide), wp_bind]
    exact wp_waitpid (by rw [hown, h])
  · dsimp only
    rw [wp_bind, wp_perform]
    intro _ s₂ hprint
    exact allDone_of_own_eq_nil ((own_of_call hprint fun hs => hs).trans (hown.trans h))

theorem wp_rightStage_done (h : s.own.length ≤ 1) (rd wr : Fd) (right : List Bytes) :
    wp (jobSys Undisturbed) (rightStage rd wr right) (fun _ s' => AllDone s') s := by
  have hback : ∀ {s : Jobs}, s.own.length ≤ 2 → wp (jobSys Undisturbed) (do
      call (.close (some rd))
      call (.close (some wr))
      call .wait
      call .wait
      pure After.prompt) (fun _ s' => AllDone s') s := by
    intro s h
    rw [wp_bind, wp_perform]
    intro _ s₁ h₁
    rw [wp_bind, wp_perform]
    intro _ s₂ h₂
    have hown : s₂.own = s.own :=
      (own_of_call h₂ fun hs => hs).trans (own_of_call h₁ fun hs => hs)
    rw [wp_bind]
    refine wp_mono (wp_wait (.inr (hown ▸ h))) fun _ s₃ h₃ => ?_
    rw [wp_bind]
    refine wp_mono (wp_wait h₃) fun _ s₄ h₄ => ?_
    rcases h₄ with hdone | hlen
    · exact hdone
    · exact allDone_of_own_eq_nil (List.eq_nil_of_length_eq_zero (Nat.le_zero.mp hlen))
  rw [rightStage, wp_bind, wp_perform]
  intro pid s₁ hfork
  rcases own_of_fork hfork with ⟨pid, rfl, hown⟩ | ⟨rfl, hown⟩
  · exact hback (by simpa [hown] using h)
  · exact hback (by rw [hown]; omega)

theorem wp_pipeline_done (h : s.own = []) (left right : List Bytes) :
    wp (jobSys Undisturbed) (pipeline left right) (fun _ s' => AllDone s') s := by
  rw [pipeline, wp_bind, wp_perform]
  intro fd s₁ hpipe
  have h₁ : s₁.own = [] := (own_of_call hpipe fun hs => hs).trans h
  cases fd with
  | none =>
    dsimp only
    rw [wp_bind, wp_perform]
    intro _ s₂ hprint
    exact allDone_of_own_eq_nil ((own_of_call hprint fun hs => hs).trans h₁)
  | some fd =>
    obtain ⟨rd, wr⟩ := fd
    dsimp only
    rw [wp_bind, wp_perform]
    intro pid s₂ hfork
    rcases own_of_fork hfork with ⟨pid, rfl, hown⟩ | ⟨rfl, hown⟩
    · exact wp_rightStage_done (by simp [hown, h₁]) rd wr right
    · exact wp_rightStage_done (by simp [hown, h₁]) rd wr right

/-- After the loop body no child of the line runs, unless it is a background command. -/
theorem wp_handle_done (h : s.own = []) {t : Treatment} (ht : ∀ cmd, t ≠ .background cmd) :
    wp (jobSys Undisturbed) (handle t) (fun _ s' => AllDone s') s := by
  cases t with
  | idle infile outfile => exact allDone_of_own_eq_nil h
  | exit =>
    rw [handle, wp_bind, wp_perform]
    intro _ s₁ hprint
    exact allDone_of_own_eq_nil ((own_of_call hprint fun hs => hs).trans h)
  | pipeline left right => exact wp_pipeline_done h left right
  | builtin b cmd =>
    rw [handle, wp_bind, wp_perform]
    intro _ s₁ hrun
    exact allDone_of_own_eq_nil ((own_of_call hrun fun hs => hs).trans h)
  | foreground cmd => exact wp_external_done h cmd
  | background cmd => exact absurd rfl (ht cmd)

/-- When the prompt waits for the foreground job: after any earlier lines, whatever became of
their children, if no wait of this line is interrupted or spent on another line's child while
children of the line run, then at the prompt every child forked for it has terminated. -/
theorem foreground_done {s' : Jobs} {line : Bytes} {other : Treatment}
    (hs : AtPrompt anyWait s)
    (h : Exec (jobSys Undisturbed) (handleLine line other) s.next .prompt s')
    (ht : ∀ cmd, (treat line).getD other ≠ .background cmd) :
    ∀ c ∈ s'.children, c.line = s.line + 1 → c.running = false := by
  have hdone : AllDone s' := h.wp (wp_handle_done (own_next hs) ht)
  have hnum : Numbered (s.line + 1) s' :=
    h.invariant (fun _ _ _ _ => Numbered.call)
      ⟨rfl, fun c hc => Nat.le_succ_of_le ((numbered_of_atPrompt hs).2 c hc)⟩
  exact fun c hc hline => hdone c hc (hline.trans hnum.1.symm)

end

/-! ## 5. Two runs -/

theorem jobSys_of_jobStep {ok : Jobs → WaitResult → Prop} {s s' : Jobs} {c : MainCall}
    {r : c.Result} (h : jobStep ok s c r s') : jobSys ok s c r s' :=
  ⟨s, .refl, h⟩

theorem elapse_one (s : Jobs) (pid : Pid) : Elapse s (s.terminate pid) := .single ⟨pid, rfl⟩

theorem treat_sleep :
    treat (utf8 "sleep 9") = some (.foreground ⟨[utf8 "sleep", utf8 "9"], none, none⟩) := by
  decide +kernel

/-- The first line is `sleep 9`, and nothing disturbs it. -/
theorem foreground_done_sleep : ∃ s',
    Exec (jobSys Undisturbed) (handleLine (utf8 "sleep 9") .exit) (⟨[], 0⟩ : Jobs).next .prompt s' ∧
    ∀ c ∈ s'.children, c.line = 0 + 1 → c.running = false := by
  have hexec : Exec (jobSys Undisturbed) (handleLine (utf8 "sleep 9") .exit)
      (⟨[], 0⟩ : Jobs).next .prompt ⟨[], 1⟩ := by
    rw [handleLine, treat_sleep]
    refine Exec.step (.parent 7) (jobSys_of_jobStep ⟨by simp [Jobs.next], rfl⟩) ?_
    refine Exec.step () ⟨_, elapse_one _ 7, .collected 7, ?_, ⟨⟨7, 1, false⟩, ?_⟩, rfl⟩ .ret
    · refine fun _ => ⟨by simp, fun pid hpid => ?_⟩
      cases hpid
      decide
    · decide
  refine ⟨_, hexec, foreground_done .start hexec ?_⟩
  rw [treat_sleep]
  simp

/-- The prompt comes too early when `SIGINT` interrupts the `waitpid` for `sleep 9`, and when
`sleep 5 | sleep 9` comes after a background command that is done but was not collected. -/
theorem prompt_early :
    (∃ s s', AtPrompt anyWait s ∧
      Exec (jobSys anyWait) (handleLine (utf8 "sleep 9") .exit) s.next .prompt s' ∧
      ∃ c ∈ s'.children, c.line = s.line + 1 ∧ c.running = true) ∧
    ∃ s s', AtPrompt anyWait s ∧
      Exec (jobSys anyWait) (handleLine (utf8 "sleep 5 | sleep 9") .exit) s.next .prompt s' ∧
      ∃ c ∈ s'.children, c.line = s.line + 1 ∧ c.running = true := by
  have htrue : treat (utf8 "true &") = some (.background ⟨[utf8 "true"], none, none⟩) := by
    decide +kernel
  have hpipe : treat (utf8 "sleep 5 | sleep 9") =
      some (.pipeline [utf8 "sleep", utf8 "5"] [utf8 "sleep", utf8 "9"]) := by
    decide +kernel
  constructor
  · refine ⟨_, ⟨[⟨7, 1, true⟩], 1⟩, .start, ?_, ⟨7, 1, true⟩, by simp, rfl, rfl⟩
    rw [handleLine, treat_sleep]
    exact Exec.step (.parent 7) (jobSys_of_jobStep ⟨by simp [Jobs.next], rfl⟩)
      (Exec.step () (jobSys_of_jobStep ⟨.interrupted, trivial, rfl⟩) .ret)
  · have hfirst : AtPrompt anyWait ⟨[⟨6, 1, true⟩], 1⟩ := by
      refine @AtPrompt.line anyWait _ _ (utf8 "true &") .exit .start ?_
      rw [handleLine, htrue]
      exact Exec.step (.parent 6) (jobSys_of_jobStep ⟨by simp [Jobs.next], rfl⟩)
        (Exec.step () (jobSys_of_jobStep rfl) .ret)
    -- the background command ends, and its child stays in the table
    have hdone : AtPrompt anyWait ⟨[⟨6, 1, false⟩], 1⟩ := hfirst.elapse (elapse_one _ 6)
    refine ⟨_, ⟨[⟨8, 2, true⟩], 2⟩, hdone, ?_, ⟨8, 2, true⟩, by simp, rfl, rfl⟩
    rw [handleLine, hpipe]
    refine Exec.step (some (3, 4)) (jobSys_of_jobStep rfl) ?_
    refine Exec.step (.parent 7) (jobSys_of_jobStep ⟨by simp [Jobs.next], rfl⟩) ?_
    refine Exec.step (.parent 8) (jobSys_of_jobStep ⟨by simp [Jobs.next, Jobs.forked], rfl⟩) ?_
    refine Exec.step () (jobSys_of_jobStep rfl) (Exec.step () (jobSys_of_jobStep rfl) ?_)
    -- the first wait collects it, the second the left stage
    refine Exec.step () (jobSys_of_jobStep ⟨.collected 6, trivial, ⟨⟨6, 1, false⟩, ?_⟩, rfl⟩) ?_
    · simp [Jobs.next, Jobs.forked]
    · refine Exec.step () ⟨_, elapse_one _ 7, .collected 7, trivial, ⟨⟨7, 2, false⟩, ?_⟩, rfl⟩ .ret
      decide

end PosixLab.Shell
