/-
# The built-in commands of myshell

The functions of `commands.c`, each as a program over the calls it makes to the C library and
the kernel.  Nothing is said here about what a call does: the same programs are read over the
resources of the process and over a file system.  A result that C spells `-1` or `NULL` is
`none` or `false`.  Text that several `printf`s in a row print is one `print`.  A line number is
an `int`, which wraps around.
-/
import PosixLab.Basis.CString
import PosixLab.Basis.Decimal
import PosixLab.Basis.Prog
import PosixLab.Shell.Line

namespace PosixLab.Shell

/-! ## 1. Calls -/

/-- A descriptor, or the `DIR *` or `FILE *` that a descriptor is open under. -/
abbrev Fd := Nat

/-- The two ways in which the shell opens a file: `O_RDONLY`, and
`O_WRONLY | O_CREAT | O_TRUNC` with the mode 0644. -/
inductive OpenMode
  | read | write
deriving DecidableEq, Repr

/-- The kinds of file that `cmd_ls` tells apart. -/
inductive FileKind
  | dir | link | other
deriving DecidableEq, Repr

/-- The fields of `struct stat` that `cmd_ls` prints. -/
structure Stat where
  kind : FileKind
  mode : Nat
  nlink : Nat
  uid : Nat
  gid : Nat
  size : Nat
  mtime : Int
deriving DecidableEq, Repr

/-- The calls of `commands.c`.  `timeText` is `localtime` and `strftime`. -/
inductive Call
  | print (text : Bytes)
  | perror (msg : Bytes)
  | getchar
  | getcwd
  | getenv (name : Bytes)
  | chdir (path : Option Bytes)
  | opendir (path : Bytes)
  | readdir (dp : Fd)
  | closedir (dp : Fd)
  | lstat (path : Bytes)
  | readlink (path : Bytes) (size : Nat)
  | getpwuid (uid : Nat)
  | getgrgid (gid : Nat)
  | timeText (t : Int)
  | mkdir (path : Bytes) (mode : Nat)
  | rmdir (path : Bytes)
  | symlink (target linkname : Bytes)
  | link (target linkname : Bytes)
  | access (path : Bytes)
  | unlink (path : Bytes)
  | rename (src dest : Bytes)
  | openFile (path : Bytes) (mode : OpenMode)
  | read (fd : Fd) (size : Nat)
  | write (fd : Fd) (data : Bytes)
  | close (fd : Fd)
  | fopen (path : Bytes)
  | fgets (fp : Fd) (size : Nat)
  | fclose (fp : Fd)
deriving DecidableEq, Repr

/-- What a call returns. -/
abbrev Call.Result : Call → Type
  | print _ | perror _ | closedir _ | close _ | fclose _ => Unit
  | getchar => Option Byte
  | getcwd | getenv _ | readdir _ | readlink _ _ | getpwuid _ | getgrgid _ => Option Bytes
  | timeText _ => Bytes
  | lstat _ => Option Stat
  | chdir _ | mkdir _ _ | rmdir _ | symlink _ _ | link _ _ | access _ | unlink _ | rename _ _ =>
    Bool
  | opendir _ | openFile _ _ | fopen _ => Option Fd
  | read _ _ | fgets _ _ => Option Bytes
  | write _ _ => Option Nat

/-- A function of `commands.c`. -/
abbrev Cmd (α : Type) := Prog Call Call.Result α

/-- Make a call. -/
abbrev perform (c : Call) : Cmd c.Result := Prog.perform c

section

open Call
open Prog (iterate)

def printText (text : Bytes) : Cmd Unit := perform (print text)

def complain (msg : String) : Cmd Unit := perform (perror (utf8 msg))

/-! ## 2. Arguments -/

/-- The loop over the arguments of `cmd_cp`, `cmd_mv` and `cmd_ln`: whether `flag` is among them,
and the first two of the others. -/
def scanTwo (flag : Bytes) (r : Bool × Option Bytes × Option Bytes) :
    List Bytes → Bool × Option Bytes × Option Bytes
  | [] => r
  | a :: as =>
    if a = flag then scanTwo flag (true, r.2.1, r.2.2) as
    else if r.2.1 = none then scanTwo flag (r.1, some a, r.2.2) as
    else if r.2.2 = none then scanTwo flag (r.1, r.2.1, some a) as
    else scanTwo flag r as

/-- The loop over the arguments of `cmd_rm` and `cmd_cat`: whether `flag` is among them, and the
last of the others. -/
def scanLast (flag : Bytes) (r : Bool × Option Bytes) : List Bytes → Bool × Option Bytes
  | [] => r
  | a :: as =>
    if a = flag then scanLast flag (true, r.2) as
    else scanLast flag (r.1, some a) as

/-- The flags and the operands that `cmd_grep` finds. -/
structure GrepArgs where
  n : Bool
  i : Bool
  pattern : Option Bytes
  file : Option Bytes
deriving DecidableEq, Repr

/-- The loop over the arguments of `cmd_grep`. -/
def scanGrep (r : GrepArgs) : List Bytes → GrepArgs
  | [] => r
  | a :: as =>
    if a = utf8 "-n" then scanGrep { r with n := true } as
    else if a = utf8 "-i" then scanGrep { r with i := true } as
    else if r.pattern = none then scanGrep { r with pattern := some a } as
    else if r.file = none then scanGrep { r with file := some a } as
    else scanGrep r as

/-- The flags and the path that `cmd_ls` finds. -/
structure LsArgs where
  a : Bool
  l : Bool
  path : Bytes
deriving DecidableEq, Repr

/-- The loop over the arguments of `cmd_ls`. -/
def scanLs (r : LsArgs) : List Bytes → LsArgs
  | [] => r
  | w :: ws =>
    if w.head? = some 45 then
      scanLs { r with a := r.a || w.contains 97, l := r.l || w.contains 108 } ws
    else scanLs { r with path := w } ws

/-! ## 3. Commands -/

/-- The function `confirm_action`: the first character of a line decides, the rest of the line
is read and dropped. -/
def confirmAction (msg filename : Bytes) : Cmd Bool := do
  printText (msg ++ utf8 " '" ++ filename ++ utf8 "'? (y/n): ")
  let ans ← perform getchar
  iterate (fun _ : Unit => do
    let c ← perform getchar
    if c = some 10 ∨ c = none then pure (.inr ()) else pure (.inl ())) ()
  pure (ans = some 121 ∨ ans = some 89)

def cmdPwd (_args : List Bytes) : Cmd Unit := do
  match ← perform getcwd with
  | some cwd => printText (cwd ++ [10])
  | none => complain "pwd error"

/-- The directory that `cmd_cd` goes to: the argument, or what `HOME` says, if it is set. -/
def cdPath (args : List Bytes) : Cmd (Option Bytes) :=
  match args[1]? with
  | some path => pure (some path)
  | none => perform (getenv (utf8 "HOME"))

def cmdCd (args : List Bytes) : Cmd Unit := do
  let path ← cdPath args
  let ok ← perform (chdir path)
  if ok then pure () else complain "cd error"

/-- The nine letters of the permissions. -/
def modeText (mode : Nat) : Bytes :=
  [(8, 114), (7, 119), (6, 120), (5, 114), (4, 119), (3, 120), (2, 114), (1, 119), (0, 120)].map
    fun (bit, letter) => if mode.testBit bit then letter else 45

def kindText : FileKind → Bytes
  | .dir => utf8 "d"
  | .link => utf8 "l"
  | .other => utf8 "-"

/-- A number printed to a width, padded with spaces on the left. -/
def padded (width n : Nat) : Bytes :=
  List.replicate (width - (decimalNat n).length) 32 ++ decimalNat n

/-- An `int` printed to a width. -/
def paddedInt (width : Nat) (n : Int) : Bytes :=
  List.replicate (width - (decimal n).length) 32 ++ decimal n

/-- The target of a symbolic link, at the end of its line. -/
def lsTarget (kind : FileKind) (fullpath : Bytes) : Cmd Unit := do
  if kind = .link then
    match ← perform (readlink fullpath 1023) with
    | some target => printText (utf8 " -> " ++ cstr target)
    | none => pure ()
  else pure ()

/-- One entry of `ls -l`. -/
def lsLong (path name : Bytes) : Cmd Unit := do
  let fullpath := path ++ utf8 "/" ++ name
  match ← perform (lstat fullpath) with
  | none => pure ()
  | some st =>
    printText (kindText st.kind ++ modeText st.mode)
    let pw ← perform (getpwuid st.uid)
    let gr ← perform (getgrgid st.gid)
    let timebuf ← perform (timeText st.mtime)
    printText (utf8 " " ++ decimalNat st.nlink ++ utf8 " " ++ pw.getD (utf8 "unknown") ++
      utf8 " " ++ gr.getD (utf8 "unknown") ++ utf8 " " ++ padded 5 st.size ++ utf8 " " ++
      timebuf ++ utf8 " " ++ name)
    lsTarget st.kind fullpath
    printText [10]

/-- The end of the line of names of a short listing. -/
def lsEnd (l : Bool) : Cmd Unit := if l then pure () else printText [10]

def cmdLs (args : List Bytes) : Cmd Unit := do
  let r := scanLs ⟨false, false, utf8 "."⟩ args.tail
  match ← perform (opendir r.path) with
  | none => complain "ls error"
  | some dp =>
    iterate (fun _ : Unit => do
      match ← perform (readdir dp) with
      | none => pure (.inr ())
      | some name =>
        if !r.a && name.head? == some 46 then pure (.inl ())
        else if r.l then do
          lsLong r.path name
          pure (.inl ())
        else do
          printText (name ++ utf8 "  ")
          pure (.inl ())) ()
    lsEnd r.l
    perform (closedir dp)

def cmdMkdir (args : List Bytes) : Cmd Unit := do
  match args[1]? with
  | none => printText (utf8 "usage: mkdir dirname\n")
  | some path =>
    let ok ← perform (mkdir path 0o755)
    if ok then pure () else complain "mkdir failed"

def cmdRmdir (args : List Bytes) : Cmd Unit := do
  match args[1]? with
  | none => printText (utf8 "usage: rmdir dirname\n")
  | some path =>
    let ok ← perform (rmdir path)
    if ok then pure () else complain "rmdir failed"

def cmdLn (args : List Bytes) : Cmd Unit := do
  match scanTwo (utf8 "-s") (false, none, none) args.tail with
  | (s, some target, some linkname) =>
    if s then
      let ok ← perform (symlink target linkname)
      if ok then
        printText (utf8 "Symbolic link created: " ++ linkname ++ utf8 " -> " ++ target ++ [10])
      else complain "symlink failed"
    else
      let ok ← perform (link target linkname)
      if ok then
        printText (utf8 "Hard link created: " ++ linkname ++ utf8 " -> " ++ target ++ [10])
      else complain "link failed"
  | _ => printText (utf8 "usage: ln [-s] target linkname\n")

/-- The question of `cmd_cp` and `cmd_mv`: whether to go on.  Asked only under `-i`, and only
if `access` finds the destination. -/
def mayOverwrite (i : Bool) (dest : Bytes) : Cmd Bool := do
  if i then
    let found ← perform (access dest)
    if found then confirmAction (utf8 "overwrite") dest else pure true
  else pure true

/-- The loop that copies: read a block, write it, until the end of the file or an error. -/
def copyLoop (sfd dfd : Fd) : Cmd Unit :=
  iterate (fun _ : Unit => do
    match ← perform (read sfd 4096) with
    | none => pure (.inr ())
    | some [] => pure (.inr ())
    | some (b :: bs) => do
      let _ ← perform (write dfd (b :: bs))
      pure (.inl ())) ()

def cmdCp (args : List Bytes) : Cmd Unit := do
  match scanTwo (utf8 "-i") (false, none, none) args.tail with
  | (i, some src, some dest) =>
    let go ← mayOverwrite i dest
    if go then
      match ← perform (openFile src .read) with
      | none => complain "src open error"
      | some sfd =>
        match ← perform (openFile dest .write) with
        | none => do
          complain "dest open error"
          perform (close sfd)
        | some dfd => do
          copyLoop sfd dfd
          perform (close sfd)
          perform (close dfd)
    else pure ()
  | _ => printText (utf8 "usage: cp [-i] src dest\n")

/-- The question of `cmd_rm`, asked only under `-i`. -/
def mayRemove (i : Bool) (file : Bytes) : Cmd Bool :=
  if i then confirmAction (utf8 "remove") file else pure true

def cmdRm (args : List Bytes) : Cmd Unit := do
  match scanLast (utf8 "-i") (false, none) args.tail with
  | (i, some file) =>
    let go ← mayRemove i file
    if go then
      let ok ← perform (unlink file)
      if ok then pure () else complain "rm failed"
    else pure ()
  | _ => printText (utf8 "usage: rm [-i] file\n")

def cmdMv (args : List Bytes) : Cmd Unit := do
  match scanTwo (utf8 "-i") (false, none, none) args.tail with
  | (i, some src, some dest) =>
    let go ← mayOverwrite i dest
    if go then
      let ok ← perform (rename src dest)
      if ok then pure () else complain "mv failed"
    else pure ()
  | _ => printText (utf8 "usage: mv [-i] src dest\n")

/-- One line of `cmd_cat` or `cmd_grep`, with its number in front under `-n`. -/
def printLine (n : Bool) (number line : Bytes) : Cmd Unit :=
  if n then do
    printText number
    printText line
  else printText line

def cmdCat (args : List Bytes) : Cmd Unit := do
  match scanLast (utf8 "-n") (false, none) args.tail with
  | (n, some file) =>
    match ← perform (fopen file) with
    | none => complain "cat file open error"
    | some fp =>
      iterate (fun lineNum : Int32 => do
        match ← perform (fgets fp 1024) with
        | none => pure (.inr ())
        | some line =>
          printLine n (paddedInt 6 lineNum.toInt ++ utf8 "  ") (cstr line)
          pure (.inl (if n then lineNum + 1 else lineNum))) 1
      perform (fclose fp)
  | _ => printText (utf8 "usage: cat [-n] file\n")

/-- The functions `strstr` and, with `i`, `strcasestr`, as a test. -/
def contains (i : Bool) (line pattern : Bytes) : Bool :=
  let fold (b : Byte) : Byte := if i && 65 ≤ b && b ≤ 90 then b + 32 else b
  decide (pattern.map fold <:+: line.map fold)

def cmdGrep (args : List Bytes) : Cmd Unit := do
  match scanGrep ⟨false, false, none, none⟩ args.tail with
  | ⟨n, i, some pattern, some file⟩ =>
    match ← perform (fopen file) with
    | none => complain "grep file open error"
    | some fp =>
      iterate (fun lineNum : Int32 => do
        match ← perform (fgets fp 1024) with
        | none => pure (.inr ())
        | some line =>
          if contains i (cstr line) pattern then do
            printLine n (decimal (lineNum + 1).toInt ++ utf8 ": ") (cstr line)
            pure (.inl (lineNum + 1))
          else pure (.inl (lineNum + 1))) 0
      perform (fclose fp)
  | _ => printText (utf8 "usage: grep [-n] [-i] pattern file\n")

/-- The function that a built-in command calls. -/
def Builtin.run : Builtin → List Bytes → Cmd Unit
  | .cd => cmdCd
  | .ls => cmdLs
  | .pwd => cmdPwd
  | .mkdir => cmdMkdir
  | .rmdir => cmdRmdir
  | .ln => cmdLn
  | .cp => cmdCp
  | .rm => cmdRm
  | .mv => cmdMv
  | .cat => cmdCat
  | .grep => cmdGrep

end

end PosixLab.Shell
