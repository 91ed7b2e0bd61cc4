/-
# The loop body of myshell

`handle` is what `main` runs for a line, by the treatment that the line gets: a program over
the calls of `main`, one of which is the call of a `cmd_` function.  An execution follows one
process.  After `fork` it goes on in the shell or in the child, and the end of the body says
which: at the prompt again, out of the loop, or, for a child, replaced by a program or gone.
-/
import PosixLab.Shell.Commands

namespace PosixLab.Shell

abbrev Pid := Nat

/-- What `fork` returns: 0 in the child, the child's number in the parent, or -1. -/
inductive ForkResult
  | child
  | parent (pid : Pid)
  | failed
deriving DecidableEq, Repr

/-- The calls that `main` makes for a line. -/
inductive MainCall
  | print (text : Bytes)
  | perror (msg : Bytes)
  | pipe
  | fork
  | openFile (path : Bytes) (mode : OpenMode)
  | dup2 (old : Option Fd) (new : Fd)
  | close (fd : Option Fd)
  | execvp (args : List Bytes)
  | wait
  | waitpid (pid : Pid)
  | builtin (b : Builtin) (args : List Bytes)
deriving DecidableEq, Repr

/-- What a call returns.  A successful `execvp` does not return; its result `true` stands for
the process running the program from there on. -/
abbrev MainCall.Result : MainCall → Type
  | print _ | perror _ | dup2 _ _ | close _ | wait | waitpid _ | builtin _ _ => Unit
  | pipe => Option (Fd × Fd)
  | fork => ForkResult
  | openFile _ _ => Option Fd
  | execvp _ => Bool

/-- Where the loop body leaves a process. -/
inductive After
  | prompt
  | leave
  | gone
deriving DecidableEq, Repr

abbrev Main (α : Type) := Prog MainCall MainCall.Result α

abbrev call (c : MainCall) : Main c.Result := Prog.perform c

open MainCall

/-- One redirection of a child, lines 152 to 155 and 156 to 159: what `open` returns goes to
`dup2` and `close` unchecked. -/
def redirect (file : Option Bytes) (mode : OpenMode) (std : Fd) : Main Unit :=
  match file with
  | none => pure ()
  | some path => do
    let fd ← call (openFile path mode)
    call (dup2 fd std)
    call (close fd)

/-- The child of the single-command branch. -/
def childProgram (cmd : Command) : Main After := do
  redirect cmd.infile .read 0
  redirect cmd.outfile .write 1
  let replaced ← call (execvp cmd.args)
  if replaced then pure .gone
  else
    call (perror (utf8 "Command execution failed"))
    pure .gone

/-- The single-command branch for a word that is no built-in, lines 150 to 168. -/
def external (bg : Bool) (cmd : Command) : Main After := do
  match ← call fork with
  | .child => childProgram cmd
  | .parent pid =>
    if bg then
      call (print (utf8 "[Background PID: " ++ decimalNat pid ++ utf8 "]\n"))
      pure .prompt
    else
      call (waitpid pid)
      pure .prompt
  | .failed =>
    call (perror (utf8 "fork failed"))
    pure .prompt

/-- The child for one stage: close the other end of the pipe, put the own one in place of the
standard stream `std`, and run the program. -/
def stage (own other std : Fd) (args : List Bytes) : Main After := do
  call (close (some other))
  call (dup2 (some own) std)
  call (close (some own))
  let _ ← call (execvp args)
  pure .gone

/-- The pipe branch from the second `fork` on, lines 103 to 113. -/
def rightStage (rd wr : Fd) (right : List Bytes) : Main After := do
  match ← call fork with
  | .child => stage rd wr 0 right
  | _ =>
    call (close (some rd))
    call (close (some wr))
    call wait
    call wait
    pure .prompt

/-- The pipe branch, lines 91 to 113. -/
def pipeline (left right : List Bytes) : Main After := do
  match ← call pipe with
  | none =>
    call (perror (utf8 "pipe error"))
    pure .prompt
  | some (rd, wr) =>
    match ← call fork with
    | .child => stage wr rd 1 left
    | _ => rightStage rd wr right

/-- The loop body for a line that is treated so. -/
def handle : Treatment → Main After
  | .idle _ _ => pure .prompt
  | .exit => do
    call (print (utf8 "MyShell을 종료합니다.\n"))
    pure .leave
  | .pipeline left right => pipeline left right
  | .builtin b cmd => do
    call (builtin b cmd.args)
    pure .prompt
  | .foreground cmd => external false cmd
  | .background cmd => external true cmd

/-- The loop body for a line.  Where C gives the line no meaning, `other` stands for what becomes
of it. -/
def handleLine (line : Bytes) (other : Treatment) : Main After :=
  handle ((treat line).getD other)

end PosixLab.Shell
