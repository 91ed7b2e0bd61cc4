/-
# Redirections

What the operators of a line ask for is read off its words once more, in the abstract: `items`
pairs each `<` and `>` with the word behind it, and the last file of each kind counts.  The scan
of `main` finds the same (`scan_eq_items`).  `honoured_iff` then says for which lines, and for
which outcomes of `fork`, `open` and `execvp`, a command that is run has its standard streams
on the files the line names: `main` applies them only on the way to `execvp`, and does not look
at what `open` returned.
-/
import PosixLab.Shell.Process

namespace PosixLab.Shell

open Prog

/-! ## 1. What a line asks for -/

/-- The parts of a simple command. -/
inductive Item
  | word (w : Bytes)
  | input (file : Bytes)
  | output (file : Bytes)
deriving DecidableEq, Repr

/-- The parts that the words make up: an operator takes the word behind it. -/
def items : List Bytes → Option (List Item)
  | [] => some []
  | w :: ws =>
    if w = utf8 "<" then
      match ws with
      | [] => none
      | f :: ws => (items ws).map (.input f :: ·)
    else if w = utf8 ">" then
      match ws with
      | [] => none
      | f :: ws => (items ws).map (.output f :: ·)
    else (items ws).map (.word w :: ·)

/-- The command word and its arguments. -/
def commandWords (is : List Item) : List Bytes :=
  is.filterMap fun
    | .word w => some w
    | _ => none

/-- The last input file named. -/
def lastInput (is : List Item) : Option Bytes :=
  (is.filterMap fun
    | .input f => some f
    | _ => none).getLast?

/-- The last output file named. -/
def lastOutput (is : List Item) : Option Bytes :=
  (is.filterMap fun
    | .output f => some f
    | _ => none).getLast?

@[simp] theorem commandWords_word (w : Bytes) (is : List Item) :
    commandWords (.word w :: is) = w :: commandWords is := rfl

@[simp] theorem commandWords_input (f : Bytes) (is : List Item) :
    commandWords (.input f :: is) = commandWords is := rfl

@[simp] theorem commandWords_output (f : Bytes) (is : List Item) :
    commandWords (.output f :: is) = commandWords is := rfl

@[simp] theorem lastInput_word (w : Bytes) (is : List Item) :
    lastInput (.word w :: is) = lastInput is := rfl

@[simp] theorem lastInput_input (f : Bytes) (is : List Item) :
    lastInput (.input f :: is) = (lastInput is).or (some f) := by
  simp only [lastInput, List.filterMap_cons, List.getLast?_cons]
  cases (is.filterMap _).getLast? <;> rfl

@[simp] theorem lastInput_output (f : Bytes) (is : List Item) :
    lastInput (.output f :: is) = lastInput is := rfl

@[simp] theorem lastOutput_word (w : Bytes) (is : List Item) :
    lastOutput (.word w :: is) = lastOutput is := rfl

@[simp] theorem lastOutput_input (f : Bytes) (is : List Item) :
    lastOutput (.input f :: is) = lastOutput is := rfl

@[simp] theorem lastOutput_output (f : Bytes) (is : List Item) :
    lastOutput (.output f :: is) = (lastOutput is).or (some f) := by
  simp only [lastOutput, List.filterMap_cons, List.getLast?_cons]
  cases (is.filterMap _).getLast? <;> rfl

theorem items_in (f : Bytes) (ws : List Bytes) :
    items (utf8 "<" :: f :: ws) = (items ws).map (.input f :: ·) := by
  rw [items.eq_def]
  simp only [if_true]

theorem items_out (f : Bytes) (ws : List Bytes) :
    items (utf8 ">" :: f :: ws) = (items ws).map (.output f :: ·) := by
  have hne : utf8 ">" ≠ utf8 "<" := by decide
  rw [items.eq_def]
  simp only [if_neg hne, if_true]

theorem items_word {w : Bytes} (h₁ : w ≠ utf8 "<") (h₂ : w ≠ utf8 ">") (ws : List Bytes) :
    items (w :: ws) = (items ws).map (.word w :: ·) := by
  rw [items.eq_def]
  simp only [if_neg h₁, if_neg h₂]

/-- The scan with something found before is the scan of the rest, with the later files. -/
theorem scanLoop_eq_items (c : Command) (ws : List Bytes) :
    scanLoop c ws = (items ws).map fun is =>
      ⟨c.args ++ commandWords is, (lastInput is).or c.infile, (lastOutput is).or c.outfile⟩ := by
  fun_induction scanLoop c ws with
  | case1 c => simp [items, commandWords, lastInput, lastOutput]
  | case2 c => rfl
  | case3 c f ws ih =>
    rw [ih, items_in, Option.map_map]
    congr 1
    funext is
    simp
  | case4 c => rfl
  | case5 c _ f ws ih =>
    rw [ih, items_out, Option.map_map]
    congr 1
    funext is
    simp
  | case6 c w ws h₁ h₂ ih =>
    rw [ih, items_word h₁ h₂, Option.map_map]
    congr 1
    funext is
    simp

theorem scan_eq_items (ws : List Bytes) :
    scan ws = (items ws).map fun is => ⟨commandWords is, lastInput is, lastOutput is⟩ := by
  simp [scan, scanLoop_eq_items]

/-- The parts of a line, if it is not too long. -/
def lineItems (line : Bytes) : Option (List Item) := (vector (stripBg line)).bind items

theorem single_eq_items (line : Bytes) :
    single (stripBg line) =
      (lineItems line).map fun is => ⟨commandWords is, lastInput is, lastOutput is⟩ := by
  unfold single lineItems
  cases vector (stripBg line) with
  | none => rfl
  | some ws => exact scan_eq_items ws

/-! ## 2. Outcomes -/

/-- What becomes of the calls that decide: whether `fork` succeeds, which files can be opened in
which way, and which argument vectors `execvp` finds a program for. -/
structure Outcomes where
  forks : Bool
  opens : Bytes → OpenMode → Bool
  execs : List Bytes → Bool

/-- The result of a call is the one that the outcomes fix.  A `dup2` of an open descriptor
succeeds. -/
def Outcomes.Allows (o : Outcomes) (p : Proc) : (c : MainCall) → c.Result → Proc → Prop
  | .fork, r, _ => r = .failed ↔ o.forks = false
  | .openFile path mode, r, _ => r.isSome = o.opens path mode
  | .dup2 old new, _, p' => ∀ x, old.bind p.fds.lookup = some x → p' = p.attach new x
  | .execvp args, r, _ => r = o.execs args
  | _, _, _ => True

/-- The calls of `main` with these outcomes. -/
def outcomeSys (o : Outcomes) (p : Proc) (c : MainCall) (r : c.Result) (p' : Proc) : Prop :=
  mainSys p c r p' ∧ o.Allows p c r p'

section

variable {o : Outcomes} {p : Proc}

/-! ### Finished executions exist -/

theorem exists_free (p : Proc) : ∃ fd, fd ∉ p.fds := by
  obtain ⟨fd, hfd⟩ := Infinite.exists_notMem_finset p.fds.keys
  exact ⟨fd, fun h => hfd (Finmap.mem_keys.mpr h)⟩

theorem exec_print (text : Bytes) : Exec cmdSys (printText text) p () p := Exec.perform rfl

theorem exec_complain (msg : String) : Exec cmdSys (complain msg) p () p := Exec.perform rfl

/-- At the end of its input `confirm_action` answers no. -/
theorem exec_confirmAction (msg file : Bytes) : Exec cmdSys (confirmAction msg file) p false p := by
  have hloop : Exec cmdSys (iterate (fun _ : Unit => do
      let c ← perform .getchar
      if c = some 10 ∨ c = none then pure (.inr ()) else pure (.inl ())) ()) p () p :=
    .done (Exec.step none rfl .ret) .ret
  exact (exec_print _).bind (Exec.step none rfl (hloop.bind .ret))

theorem exec_mayOverwrite (i : Bool) (dest : Bytes) :
    Exec cmdSys (mayOverwrite i dest) p true p := by
  unfold mayOverwrite
  split
  · exact Exec.step false rfl .ret
  · exact .ret

theorem exec_mayRemove (i : Bool) (file : Bytes) :
    ∃ go, Exec cmdSys (mayRemove i file) p go p := by
  unfold mayRemove
  split
  · exact ⟨false, exec_confirmAction _ _⟩
  · exact ⟨true, .ret⟩

theorem exec_cmdCd (args : List Bytes) : Exec cmdSys (cmdCd args) p () p := by
  have hpath : ∃ path, Exec cmdSys (cdPath args) p path p := by
    unfold cdPath
    split
    · exact ⟨_, .ret⟩
    · exact ⟨none, Exec.perform rfl⟩
  obtain ⟨path, hpath⟩ := hpath
  have hfail : cmdSys p (.chdir path) false p := by simp [cmdSys]
  exact hpath.bind (Exec.step false hfail (exec_complain _))

theorem exec_cmdMkdir (args : List Bytes) : Exec cmdSys (cmdMkdir args) p () p := by
  unfold cmdMkdir
  split
  · exact exec_print _
  · exact Exec.step false rfl (exec_complain _)

theorem exec_cmdRmdir (args : List Bytes) : Exec cmdSys (cmdRmdir args) p () p := by
  unfold cmdRmdir
  split
  · exact exec_print _
  · exact Exec.step false rfl (exec_complain _)

theorem exec_cmdLn (args : List Bytes) : Exec cmdSys (cmdLn args) p () p := by
  unfold cmdLn
  split
  · split
    · exact Exec.step false rfl (exec_complain _)
    · exact Exec.step false rfl (exec_complain _)
  · exact exec_print _

theorem exec_cmdCp (args : List Bytes) : Exec cmdSys (cmdCp args) p () p := by
  unfold cmdCp
  split
  · exact (exec_mayOverwrite _ _).bind (Exec.step none rfl (exec_complain _))
  · exact exec_print _

theorem exec_cmdRm (args : List Bytes) : Exec cmdSys (cmdRm args) p () p := by
  unfold cmdRm
  split
  · obtain ⟨go, hgo⟩ := exec_mayRemove (p := p) _ _
    refine hgo.bind ?_
    split
    · exact Exec.step false rfl (exec_complain _)
    · exact .ret
  · exact exec_print _

theorem exec_cmdMv (args : List Bytes) : Exec cmdSys (cmdMv args) p () p := by
  unfold cmdMv
  split
  · exact (exec_mayOverwrite _ _).bind (Exec.step false rfl (exec_complain _))
  · exact exec_print _

theorem exec_cmdCat (args : List Bytes) : Exec cmdSys (cmdCat args) p () p := by
  unfold cmdCat
  split
  · exact Exec.step none rfl (exec_complain _)
  · exact exec_print _

theorem exec_cmdGrep (args : List Bytes) : Exec cmdSys (cmdGrep args) p () p := by
  unfold cmdGrep
  split
  · exact Exec.step none rfl (exec_complain _)
  · exact exec_print _

/-- Every built-in command comes to an end, for one when each of its calls fails. -/
theorem exec_run (b : Builtin) (args : List Bytes) : Exec cmdSys (b.run args) p () p := by
  cases b with
  | cd => exact exec_cmdCd args
  | ls => exact Exec.step none rfl (exec_complain _)
  | pwd => exact Exec.step none rfl (exec_complain _)
  | mkdir => exact exec_cmdMkdir args
  | rmdir => exact exec_cmdRmdir args
  | ln => exact exec_cmdLn args
  | cp => exact exec_cmdCp args
  | rm => exact exec_cmdRm args
  | mv => exact exec_cmdMv args
  | cat => exact exec_cmdCat args
  | grep => exact exec_cmdGrep args

/-- A redirection never gets stuck. -/
theorem exists_exec_redirect (file : Option Bytes) (mode : OpenMode) (std : Fd) (p : Proc) :
    ∃ p', Exec (outcomeSys o) (redirect file mode std) p () p' := by
  cases file with
  | none => exact ⟨p, .ret⟩
  | some path =>
    have hclose : ∀ (fd : Option Fd) (q : Proc),
        ∃ q', Exec (outcomeSys o) (call (.close fd)) q () q' :=
      fun fd q => ⟨_, Exec.perform ⟨rfl, trivial⟩⟩
    by_cases hopen : o.opens path mode = true
    · obtain ⟨fd, hfd⟩ := exists_free p
      have hget : (some fd).bind (p.attach fd (.file path mode)).fds.lookup =
          some (.file path mode) := by
        simp [Proc.attach]
      obtain ⟨p', h⟩ := hclose (some fd) ((p.attach fd (.file path mode)).attach std
        (.file path mode))
      refine ⟨p', Exec.step (some fd) ⟨⟨hfd, rfl⟩, hopen.symm⟩
        (Exec.step () ⟨.inr ⟨_, hget, rfl⟩, fun x hx => ?_⟩ h)⟩
      rw [Option.some.inj (hget.symm.trans hx)]
    · have hopen' : false = o.opens path mode := by simpa using hopen
      obtain ⟨p', h⟩ := hclose none p
      exact ⟨p', Exec.step none ⟨rfl, hopen'⟩ (Exec.step () ⟨.inl rfl, fun x hx => by cases hx⟩ h)⟩

theorem exists_exec_childProgram (cmd : Command) (p : Proc) :
    ∃ p', Exec (outcomeSys o) (childProgram cmd) p .gone p' := by
  obtain ⟨p₁, h₁⟩ := exists_exec_redirect (o := o) cmd.infile .read 0 p
  obtain ⟨p₂, h₂⟩ := exists_exec_redirect (o := o) cmd.outfile .write 1 p₁
  have hend : ∀ (replaced : Bool) (q : Proc), Exec (outcomeSys o) (if replaced then pure .gone
      else do
        call (.perror (utf8 "Command execution failed"))
        pure .gone) q After.gone q := by
    intro replaced q
    split
    · exact .ret
    · exact Exec.step () ⟨rfl, trivial⟩ .ret
  exact ⟨_, h₁.bind (h₂.bind (Exec.step (o.execs cmd.args) ⟨rfl, rfl⟩ (hend _ _)))⟩

theorem exists_exec_external (hfork : o.forks = true) (bg : Bool) (cmd : Command) (p : Proc) :
    ∃ p', Exec (outcomeSys o) (external bg cmd) p .gone p' := by
  obtain ⟨p', h⟩ := exists_exec_childProgram (o := o) cmd p
  exact ⟨p', Exec.step .child ⟨rfl, by simp [Outcomes.Allows, hfork]⟩ h⟩

/-! ### What a child has on its standard streams -/

/-- What stands on a standard stream behind a redirection: the file, if it was named and could be
opened, and otherwise what was there. -/
def attached (o : Outcomes) (file : Option Bytes) (mode : OpenMode) (x : Obj) : Obj :=
  match file with
  | none => x
  | some path => if o.opens path mode then .file path mode else x

theorem wp_redirect {file : Option Bytes} {mode : OpenMode} {std other : Fd} {x y : Obj}
    (hne : other ≠ std) (hstd : p.fds.lookup std = some x)
    (hother : p.fds.lookup other = some y) :
    wp (outcomeSys o) (redirect file mode std) (fun _ p' => p'.log = p.log ∧
      p'.fds.lookup std = some (attached o file mode x) ∧ p'.fds.lookup other = some y) p := by
  cases file with
  | none => exact ⟨rfl, hstd, hother⟩
  | some path =>
    simp only [redirect, wp_bind, wp_perform]
    rintro fd p₁ ⟨hopen, hres⟩ _ p₂ ⟨hdup, hdup'⟩ _ p₃ ⟨hclose, -⟩
    obtain rfl : p₃ = _ := hclose
    have hres' : fd.isSome = o.opens path mode := hres
    cases fd with
    | none =>
      -- `dup2(-1, std)` and `close(-1)` do nothing
      obtain rfl : p₁ = p := hopen
      obtain rfl : p₂ = p₁ := by
        rcases hdup with h | ⟨_, h, -⟩
        · exact h
        · simp at h
      have hno : o.opens path mode = false := by simpa using hres'.symm
      exact ⟨rfl, by simpa [attached, hno] using hstd, hother⟩
    | some fd =>
      obtain ⟨hfd, rfl⟩ := hopen
      have hyes : o.opens path mode = true := by simpa using hres'.symm
      have hget : (some fd).bind (p.attach fd (.file path mode)).fds.lookup =
          some (.file path mode) := by
        simp [Proc.attach]
      obtain rfl := hdup' _ hget
      -- the new descriptor is none of the two that are open
      have hold : ∀ {n : Fd} {z : Obj}, p.fds.lookup n = some z → n ≠ fd := by
        rintro n z hn rfl
        exact hfd (Finmap.mem_iff.mpr ⟨z, hn⟩)
      refine ⟨rfl, ?_, ?_⟩
      · simp [Proc.attach, Proc.release, Finmap.lookup_erase_ne (hold hstd), attached, hyes]
      · simp [Proc.attach, Proc.release, Finmap.lookup_erase_ne (hold hother),
          Finmap.lookup_insert_of_ne _ hne, Finmap.lookup_insert_of_ne _ (hold hother), hother]

/-- The shell in its initial surroundings: standard input and output are the terminal. -/
structure AtTerminal (p : Proc) : Prop where
  stdin : p.fds.lookup 0 = some .terminal
  stdout : p.fds.lookup 1 = some .terminal
  log : p.log = []

/-- The run of an external command with these outcomes. -/
def runOf (o : Outcomes) (cmd : Command) : Event :=
  .ran cmd.args (some (attached o cmd.infile .read .terminal))
    (some (attached o cmd.outfile .write .terminal))

theorem wp_childProgram_log (hp : AtTerminal p) (cmd : Command) :
    wp (outcomeSys o) (childProgram cmd)
      (fun a p' => a = .gone ∧ p'.log = if o.execs cmd.args then [runOf o cmd] else []) p := by
  rw [childProgram, wp_bind]
  refine wp_mono (wp_redirect (by decide) hp.stdin hp.stdout) ?_
  rintro _ p₁ ⟨hlog₁, hin₁, hout₁⟩
  rw [wp_bind]
  refine wp_mono (wp_redirect (by decide) hout₁ hin₁) ?_
  rintro _ p₂ ⟨hlog₂, hout₂, hin₂⟩
  have hlog : p₂.log = [] := hlog₂.trans (hlog₁.trans hp.log)
  rw [wp_bind, wp_perform]
  rintro replaced p₃ ⟨hexec, hres⟩
  obtain rfl : replaced = o.execs cmd.args := hres
  obtain rfl : p₃ = if o.execs cmd.args then p₂.ran cmd.args else p₂ := hexec
  cases o.execs cmd.args with
  | true => exact ⟨rfl, by simp [Proc.ran, hlog, hin₂, hout₂, runOf]⟩
  | false =>
    simp only [Bool.false_eq_true, if_false, wp_bind, wp_perform, wp_pure]
    rintro _ p₄ ⟨h₄, -⟩
    obtain rfl : p₄ = p₂ := h₄
    exact ⟨trivial, hlog⟩

/-- In the shell nothing is logged, and in the child the run of the command, if it is run. -/
theorem wp_external_log (hp : AtTerminal p) (bg : Bool) (cmd : Command) :
    wp (outcomeSys o) (external bg cmd) (fun a p' => (a = .gone → o.forks = true) ∧
      p'.log = if a = .gone ∧ o.execs cmd.args then [runOf o cmd] else []) p := by
  have hback : ∀ c : MainCall, (∀ {q r q'}, mainSys q c r q' → q' = q) →
      wp (outcomeSys o) (call c >>= fun _ => pure After.prompt) (fun a p' =>
        (a = .gone → o.forks = true) ∧
          p'.log = if a = .gone ∧ o.execs cmd.args then [runOf o cmd] else []) p := by
    intro c hc
    rw [wp_bind, wp_perform]
    rintro _ p₂ ⟨h₂, -⟩
    obtain rfl := hc h₂
    simp [hp.log]
  rw [external, wp_bind, wp_perform]
  rintro pid p₁ ⟨hfork, hres⟩
  obtain rfl : p₁ = p := hfork
  cases pid with
  | child =>
    have hforks : o.forks = true := by simpa [Outcomes.Allows] using hres
    refine wp_mono (wp_childProgram_log hp cmd) ?_
    rintro _ p' ⟨rfl, hlog⟩
    exact ⟨fun _ => hforks, by simpa using hlog⟩
  | parent pid =>
    dsimp only
    split
    · exact hback _ fun h => h
    · exact hback _ fun h => h
  | failed => exact hback _ fun h => h

/-! ## 3. When redirections are honoured -/

/-- A command that is run has the last named file on each standard stream a file is named for. -/
def Honours (is : List Item) : Event → Prop
  | .ran _ stdin stdout =>
    (∀ f, lastInput is = some f → stdin = some (.file f .read)) ∧
      ∀ f, lastOutput is = some f → stdout = some (.file f .write)
  | .moved _ => True

/-- The line means something, and every command that is run for it honours its redirections. -/
def Honoured (o : Outcomes) (p : Proc) (line : Bytes) : Prop :=
  ∃ is t, lineItems line = some is ∧ treat line = some t ∧
    ∀ a p', Exec (outcomeSys o) (handle t) p a p' → ∀ e ∈ p'.log, Honours is e

/-- The condition.  The line is not too long and every operator has an operand; and it names no
file, or has no command word, or the command is no built-in and, if it comes to be run, the
last files named can be opened. -/
def HonouredWhen (o : Outcomes) (line : Bytes) : Prop :=
  ∃ is, lineItems line = some is ∧
    ((lastInput is = none ∧ lastOutput is = none) ∨
      commandWords is = [] ∨
        (∃ w ∈ (commandWords is).head?, dispatch w = none) ∧
          (o.forks = true → o.execs (commandWords is) = true →
            (∀ f ∈ lastInput is, o.opens f .read = true) ∧
              ∀ f ∈ lastOutput is, o.opens f .write = true))

/-- The treatment of a pipe-free line other than `exit`. -/
theorem treat_of_pipeFree {line : Bytes} (hpipe : 124 ∉ line) (hexit : line ≠ utf8 "exit") :
    treat line = (lineItems line).map fun is =>
      dispatched (isBg line) ⟨commandWords is, lastInput is, lastOutput is⟩ := by
  by_cases hnil : line = []
  · rw [hnil]
    rfl
  · have hsplit : splitPipe (stripBg line) = none := by
      rw [splitPipe_eq_none]
      intro hmem
      refine hpipe ?_
      unfold stripBg at hmem
      split at hmem
      · exact List.mem_of_mem_dropLast ((List.rdropWhile_prefix _ _).subset hmem)
      · exact hmem
    unfold treat
    rw [if_neg hnil, if_neg hexit, hsplit]
    dsimp only
    rw [single_eq_items, Option.map_map]
    rfl

theorem honours_of_no_file {is : List Item} (h : lastInput is = none ∧ lastOutput is = none)
    (e : Event) : Honours is e := by
  cases e with
  | ran args stdin stdout => simp [Honours, h.1, h.2]
  | moved path => trivial

/-- A run from the terminal honours the redirections exactly if none is asked for. -/
theorem honours_terminal {is : List Item} {args : List Bytes} :
    Honours is (.ran args (some .terminal) (some .terminal)) ↔
      lastInput is = none ∧ lastOutput is = none := by
  simp [Honours, Option.eq_none_iff_forall_ne_some]

/-- The run of an external command honours them exactly if the last files could be opened. -/
theorem honours_runOf {is : List Item} :
    Honours is (runOf o ⟨commandWords is, lastInput is, lastOutput is⟩) ↔
      (∀ f ∈ lastInput is, o.opens f .read = true) ∧
        ∀ f ∈ lastOutput is, o.opens f .write = true := by
  have hone : ∀ (file : Option Bytes) (mode : OpenMode),
      (∀ f, file = some f → attached o file mode .terminal = .file f mode) ↔
        ∀ f ∈ file, o.opens f mode = true := by
    intro file mode
    cases file with
    | none => simp
    | some f => simp [attached]
  simp only [Honours, runOf, Option.some.injEq]
  rw [hone, hone]

/-- A built-in command runs on the terminal whatever the line names. -/
theorem builtin_honoured_iff (hp : AtTerminal p) (b : Builtin) (cmd : Command) (is : List Item) :
    (∀ a p', Exec (outcomeSys o) (handle (.builtin b cmd)) p a p' →
        ∀ e ∈ p'.log, Honours is e) ↔
      lastInput is = none ∧ lastOutput is = none := by
  constructor
  · intro h
    have hrun : Exec (outcomeSys o) (handle (.builtin b cmd)) p .prompt (p.ran cmd.args) :=
      Exec.step () ⟨exec_run b cmd.args, trivial⟩ .ret
    have := h _ _ hrun (.ran cmd.args (p.fds.lookup 0) (p.fds.lookup 1)) (by simp [Proc.ran])
    rw [hp.stdin, hp.stdout] at this
    exact honours_terminal.mp this
  · exact fun h _ _ _ e _ => honours_of_no_file h e

/-- An external command honours them if it is not run, or the last files could be opened. -/
theorem external_honoured_iff (hp : AtTerminal p) (bg : Bool) (is : List Item) :
    (∀ a p', Exec (outcomeSys o)
        (external bg ⟨commandWords is, lastInput is, lastOutput is⟩) p a p' →
        ∀ e ∈ p'.log, Honours is e) ↔
      (o.forks = true → o.execs (commandWords is) = true →
        (∀ f ∈ lastInput is, o.opens f .read = true) ∧
          ∀ f ∈ lastOutput is, o.opens f .write = true) := by
  constructor
  · intro h hfork hexec
    obtain ⟨p', hrun⟩ := exists_exec_external hfork bg
      ⟨commandWords is, lastInput is, lastOutput is⟩ p
    have hlog := (hrun.wp (wp_external_log hp bg _)).2
    rw [if_pos ⟨rfl, hexec⟩] at hlog
    exact honours_runOf.mp (h _ _ hrun _ (by simp [hlog]))
  · intro h a p' hrun e he
    obtain ⟨hfork, hlog⟩ := hrun.wp (wp_external_log hp bg _)
    rw [hlog] at he
    split at he
    · obtain ⟨ha, hexec⟩ := ‹_ ∧ _›
      rw [List.mem_singleton.mp he]
      exact honours_runOf.mpr (h (hfork ha) hexec)
    · cases he

/-- A line for which nothing is run honours its redirections. -/
theorem honoured_of_idle {t : Treatment} (hp : AtTerminal p) {is : List Item}
    (ht : wp (outcomeSys o) (handle t) (fun _ p' => p'.log = p.log) p) {a : After} {p' : Proc}
    (h : Exec (outcomeSys o) (handle t) p a p') (e : Event) (he : e ∈ p'.log) :
    Honours is e := by
  rw [h.wp ht, hp.log] at he
  cases he

theorem handle_dispatched_word {bg : Bool} {w : Bytes} {ws : List Bytes} {inf outf : Option Bytes}
    (h : dispatch w = none) :
    handle (dispatched bg ⟨w :: ws, inf, outf⟩) = external bg ⟨w :: ws, inf, outf⟩ := by
  cases bg <;> simp [dispatched, h, handle]

/-- When the redirections of a pipe-free line are honoured. -/
theorem honoured_iff {line : Bytes} (hpipe : 124 ∉ line) (hp : AtTerminal p) :
    Honoured o p line ↔ HonouredWhen o line := by
  by_cases hexit : line = utf8 "exit"
  · subst hexit
    have his : lineItems (utf8 "exit") = some [.word (utf8 "exit")] := by decide
    have ht : treat (utf8 "exit") = some .exit := by decide
    have hlog : wp (outcomeSys o) (handle .exit) (fun _ p' => p'.log = p.log) p := by
      rintro _ p' ⟨h, -⟩
      obtain rfl : p' = p := h
      rfl
    exact ⟨fun _ => ⟨_, his, .inl ⟨rfl, rfl⟩⟩,
      fun _ => ⟨_, _, his, ht, fun _ _ h e he => honoured_of_idle hp hlog h e he⟩⟩
  unfold Honoured HonouredWhen
  rw [treat_of_pipeFree hpipe hexit]
  refine exists_congr fun is => ?_
  rw [exists_and_left]
  refine and_congr_right fun his => ?_
  rw [his, Option.map_some]
  simp only [Option.some.injEq, exists_eq_left']
  -- by the kind of command
  cases hw : commandWords is with
  | nil =>
    have hlog : wp (outcomeSys o) (handle (.idle (lastInput is) (lastOutput is)))
        (fun _ p' => p'.log = p.log) p := rfl
    exact iff_of_true (fun _ _ h e he => honoured_of_idle hp hlog h e he) (.inr (.inl rfl))
  | cons w ws =>
    cases hd : dispatch w with
    | none =>
      rw [handle_dispatched_word hd, ← hw, external_honoured_iff hp]
      constructor
      · exact fun h => .inr (.inr ⟨⟨w, by simp [hw], hd⟩, h⟩)
      · rintro (⟨hin, hout⟩ | hnil | ⟨-, h⟩)
        · simp [hin, hout]
        · simp [hw] at hnil
        · exact h
    | some b =>
      have hb : dispatched (isBg line) ⟨w :: ws, lastInput is, lastOutput is⟩ =
          .builtin b ⟨w :: ws, lastInput is, lastOutput is⟩ := by
        simp [dispatched, hd]
      rw [hb, builtin_honoured_iff hp]
      simp [hd]

end

/-- Outcomes under which every call succeeds. -/
def allSucceed : Outcomes := ⟨true, fun _ _ => true, fun _ => true⟩

theorem atTerminal_shellAt (dir : Bytes) : AtTerminal (shellAt dir) := by
  refine ⟨?_, ?_, rfl⟩ <;> simp [shellAt, Finmap.lookup_insert_of_ne]

/-- The line `sort < a > b` when everything succeeds. -/
theorem honoured_iff_sort :
    Honoured allSucceed (shellAt (utf8 "/")) (utf8 "sort < a > b") := by
  have his : lineItems (utf8 "sort < a > b") =
      some [.word (utf8 "sort"), .input (utf8 "a"), .output (utf8 "b")] := by
    decide +kernel
  refine (honoured_iff (by decide +kernel) (atTerminal_shellAt _)).mpr
    ⟨_, his, .inr (.inr ⟨⟨utf8 "sort", rfl, by decide⟩, ?_⟩)⟩
  exact fun _ _ => ⟨fun _ _ => rfl, fun _ _ => rfl⟩

/-- The line `ls > f` writes to the terminal although `f` can be opened, and `sort < a` reads
from the terminal if `a` cannot. -/
theorem redirection_dropped :
    ¬ Honoured allSucceed (shellAt (utf8 "/")) (utf8 "ls > f") ∧
      ¬ Honoured { allSucceed with opens := fun _ _ => false } (shellAt (utf8 "/"))
        (utf8 "sort < a") := by
  have hls : lineItems (utf8 "ls > f") = some [.word (utf8 "ls"), .output (utf8 "f")] := by
    decide +kernel
  have hsort : lineItems (utf8 "sort < a") = some [.word (utf8 "sort"), .input (utf8 "a")] := by
    decide +kernel
  constructor
  · intro h
    obtain ⟨is, his, hwhen⟩ := (honoured_iff (by decide +kernel) (atTerminal_shellAt _)).mp h
    obtain rfl := Option.some.inj (hls.symm.trans his)
    rcases hwhen with ⟨-, hout⟩ | hnil | ⟨⟨w, hw, hd⟩, -⟩
    · exact absurd hout (by decide)
    · exact absurd hnil (by decide)
    · obtain rfl : utf8 "ls" = w := Option.some.inj hw
      exact absurd hd (by decide)
  · intro h
    obtain ⟨is, his, hwhen⟩ := (honoured_iff (by decide +kernel) (atTerminal_shellAt _)).mp h
    obtain rfl := Option.some.inj (hsort.symm.trans his)
    rcases hwhen with ⟨hin, -⟩ | hnil | ⟨-, hopen⟩
    · exact absurd hin (by decide)
    · exact absurd hnil (by decide)
    · exact absurd ((hopen rfl rfl).1 _ rfl) (by decide)

end PosixLab.Shell
