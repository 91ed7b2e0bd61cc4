/-
# Printing a file

`cmd_cat` and `cmd_grep` read a file with `fgets` into an array of 1024 bytes and print it from
there with `%s`.  So what they see of a file is its chunks, each up to its first NUL; they count
chunks, and print what they count, or the chunks that contain the pattern (`prints_cmdCat`,
`prints_cmdGrep`).  Read that way the two commands agree on every file: `grep_cat_agree`.
-/
import PosixLab.Basis.Lines
import PosixLab.Shell.Commands

namespace PosixLab.Shell

open Prog

/-! ## 1. Streams -/

/-- What is read from a file at each path that can be opened, what is left of each open stream,
and the texts that were printed and reported, one for each call. -/
structure Reader where
  file : Bytes → Option Bytes
  streams : List Bytes
  prints : List Bytes
  errors : List Bytes

/-- The end of a line. -/
def isNewline (b : Byte) : Bool := b == 10

/-- The call `fopen`: streams are numbered in the order in which they are opened. -/
def Reader.fopen (s : Reader) (path : Bytes) : Option Fd × Reader :=
  match s.file path with
  | none => (none, s)
  | some text => (some s.streams.length, { s with streams := s.streams ++ [text] })

/-- The call `fgets`: at most `size - 1` bytes, up to the end of a line. -/
def Reader.fgets (s : Reader) (fp : Fd) (size : Nat) : Option Bytes × Reader :=
  match s.streams[fp]? with
  | none | some [] => (none, s)
  | some (b :: rest) =>
    let line := chunk isNewline (size - 1) (b :: rest)
    (some line, { s with streams := s.streams.set fp ((b :: rest).drop line.length) })

/-- The calls of `cmd_cat` and `cmd_grep`. -/
def readerSys (s : Reader) : (c : Call) → c.Result → Reader → Prop
  | .print text, _, s' => s' = { s with prints := s.prints ++ [text] }
  | .perror msg, _, s' => s' = { s with errors := s.errors ++ [msg] }
  | .fopen path, r, s' => (r, s') = s.fopen path
  | .fgets fp size, r, s' => (r, s') = s.fgets fp size
  | .fclose fp, _, s' => s' = { s with streams := s.streams.set fp [] }
  | _, _, _ => False

/-- Each call has one outcome. -/
theorem readerSys_unique {s s' s'' : Reader} {c : Call} {r r' : c.Result}
    (h : readerSys s c r s') (h' : readerSys s c r' s'') : r' = r ∧ s'' = s' := by
  cases c with
  | print text | perror msg | fclose fp => exact ⟨rfl, h'.trans h.symm⟩
  | fopen path | fgets fp size => exact Prod.mk.inj (h'.trans h.symm)
  | _ => exact h.elim

/-- The command comes to an end, and has then printed these texts. -/
def Prints (p : Cmd Unit) (s : Reader) (out : List Bytes) : Prop :=
  (∃ s', Exec readerSys p s () s') ∧
    ∀ s', Exec readerSys p s () s' → s'.prints = s.prints ++ out

theorem Prints.of_exec {p : Cmd Unit} {s s' : Reader} {out : List Bytes}
    (h : Exec readerSys p s () s') (hs' : s'.prints = s.prints ++ out) : Prints p s out := by
  refine ⟨⟨s', h⟩, fun t ht => ?_⟩
  obtain ⟨-, rfl⟩ := ht.wp (h.wp_eq readerSys_unique)
  exact hs'

/-- There is one thing that a command prints. -/
theorem Prints.unique {p : Cmd Unit} {s : Reader} {out out' : List Bytes} (h : Prints p s out)
    (h' : Prints p s out') : out' = out := by
  obtain ⟨⟨s', hs'⟩, hout⟩ := h
  exact List.append_cancel_left ((h'.2 s' hs').symm.trans (hout s' hs'))

/-- What is printed can be named. -/
theorem Prints.exists_iff {p : Cmd Unit} {s : Reader} {out : List Bytes} (h : Prints p s out)
    (P : List Bytes → Prop) : (∃ out', Prints p s out' ∧ P out') ↔ P out := by
  constructor
  · rintro ⟨out', hout', hP⟩
    rwa [h.unique hout'] at hP
  · exact fun hP => ⟨out, h, hP⟩

/-! ## 2. What is printed -/

/-- What `fgets` reads of a text, call by call, with an array of 1024 bytes. -/
def pieces (text : Bytes) : List Bytes := chunks isNewline 1022 text

theorem flatten_pieces (text : Bytes) : (pieces text).flatten = text := flatten_chunks text

theorem eq_nil_of_pieces {text : Bytes} (h : pieces text = []) : text = [] := by
  rw [← flatten_pieces text, h]
  rfl

/-- The strings that are read, call by call. -/
def texts (text : Bytes) : List Bytes := (pieces text).map cstr

/-- The value of an `int` that has counted up to `k`. -/
def intOf (k : Nat) : Int := (Int32.ofNat k).toInt

/-- Strings with the numbers `f k`, `f (k + 1)` and so on. -/
def numbered (f : Nat → Int) (k : Nat) : List Bytes → List (Int × Bytes)
  | [] => []
  | t :: ts => (f k, t) :: numbered f (k + 1) ts

@[simp] theorem map_snd_numbered (f : Nat → Int) (k : Nat) (ts : List Bytes) :
    (numbered f k ts).map (·.2) = ts := by
  induction ts generalizing k with
  | nil => rfl
  | cons t ts ih => exact congrArg (t :: ·) (ih (k + 1))

/-- A numbered string as `cmd_cat` prints it. -/
def catRecord (r : Int × Bytes) : List Bytes := [paddedInt 6 r.1 ++ utf8 "  ", r.2]

/-- A numbered string as `cmd_grep` prints it. -/
def grepRecord (r : Int × Bytes) : List Bytes := [decimal r.1 ++ utf8 ": ", r.2]

/-- The numbered strings that contain the pattern. -/
def hits (i : Bool) (pattern : Bytes) (rs : List (Int × Bytes)) : List (Int × Bytes) :=
  rs.filter fun r => contains i r.2 pattern

/-- What numbered strings look like, with their numbers under `-n`. -/
def shown (n : Bool) (record : Int × Bytes → List Bytes) (rs : List (Int × Bytes)) :
    List Bytes :=
  if n then rs.flatMap record else rs.map (·.2)

@[simp] theorem shown_nil (n : Bool) (record : Int × Bytes → List Bytes) :
    shown n record [] = [] := by
  cases n <;> rfl

/-- One line more. -/
theorem shown_cons (n : Bool) (record : Int × Bytes → List Bytes) (r : Int × Bytes)
    (rs : List (Int × Bytes)) :
    shown n record (r :: rs) = (if n then record r else [r.2]) ++ shown n record rs := by
  cases n <;> rfl

/-- Without numbers it does not matter where the numbers start. -/
theorem shown_numbered (n : Bool) (record : Int × Bytes → List Bytes) (f : Nat → Int) (k : Nat)
    (ts : List Bytes) :
    shown n record (numbered f (if n then k + 1 else k) ts) =
      shown n record (numbered f (k + 1) ts) := by
  cases n with
  | true => rfl
  | false => simp [shown]

/-! ## 3. The runs -/

namespace Reader

variable {s : Reader} {fp : Fd}

theorem exec_print (s : Reader) (text : Bytes) :
    Exec readerSys (printText text) s () { s with prints := s.prints ++ [text] } :=
  Exec.perform rfl

theorem exec_printLine (s : Reader) (n : Bool) (number text : Bytes) :
    Exec readerSys (printLine n number text) s ()
      { s with prints := s.prints ++ if n then [number, text] else [text] } := by
  cases n with
  | false => exact exec_print s text
  | true =>
    have h := (exec_print s number).bind (f := fun _ => printText text) (exec_print _ text)
    simpa [printLine] using h

/-- At the end of the file. -/
theorem fgets_nil (h : s.streams[fp]? = some []) (size : Nat) : s.fgets fp size = (none, s) := by
  simp only [fgets, h]

/-- Before it the next piece is read. -/
theorem fgets_piece {text c : Bytes} {cs : List Bytes} (h : s.streams[fp]? = some text)
    (hc : pieces text = c :: cs) :
    ∃ rest, pieces rest = cs ∧
      s.fgets fp 1024 = (some c, { s with streams := s.streams.set fp rest }) := by
  cases text with
  | nil => cases hc
  | cons b text =>
    rw [pieces, chunks_cons] at hc
    obtain ⟨rfl, rfl⟩ := List.cons.inj hc
    exact ⟨_, rfl, by simp only [fgets, h]⟩

/-- The stream after a call is the rest. -/
theorem getElem?_set_of_some {text rest : Bytes} (h : s.streams[fp]? = some text) :
    (s.streams.set fp rest)[fp]? = some rest := by
  have hlt := (List.getElem?_eq_some_iff.mp h).1
  simp [hlt]

end Reader

/-- What the loop of `cmd_cat` does with a result of `fgets`. -/
def catLine (n : Bool) (lineNum : Int32) : Option Bytes → Cmd (Int32 ⊕ Unit)
  | none => pure (.inr ())
  | some line => do
    printLine n (paddedInt 6 lineNum.toInt ++ utf8 "  ") (cstr line)
    pure (.inl (if n then lineNum + 1 else lineNum))

/-- What the loop of `cmd_grep` does with a result of `fgets`. -/
def grepLine (n i : Bool) (pattern : Bytes) (lineNum : Int32) : Option Bytes → Cmd (Int32 ⊕ Unit)
  | none => pure (.inr ())
  | some line =>
    if contains i (cstr line) pattern then do
      printLine n (decimal (lineNum + 1).toInt ++ utf8 ": ") (cstr line)
      pure (.inl (lineNum + 1))
    else pure (.inl (lineNum + 1))

/-- A loop that reads a stream, with a line number. -/
def readLoop (fp : Fd) (body : Int32 → Option Bytes → Cmd (Int32 ⊕ Unit)) (k : Int32) : Cmd Unit :=
  iterate (fun k => perform (.fgets fp 1024) >>= body k) k

/-- The loops of the source, which look at the result of `fgets` on the spot. -/
theorem iterate_eq_readLoop {f body : Int32 → Option Bytes → Cmd (Int32 ⊕ Unit)}
    (h : ∀ k r, f k r = body k r) (fp : Fd) (k : Int32) :
    iterate (fun k => perform (.fgets fp 1024) >>= f k) k = readLoop fp body k := by
  obtain rfl : f = body := funext fun k => funext (h k)
  rfl

/-- The stream is read to its end, and `out` was printed on the way. -/
def Reader.drained (s : Reader) (fp : Fd) (out : List Bytes) : Reader :=
  { s with streams := s.streams.set fp [], prints := s.prints ++ out }

section

variable {s : Reader} {fp : Fd} {n i : Bool} {pattern text : Bytes} {k : Nat}
  {body : Int32 → Option Bytes → Cmd (Int32 ⊕ Unit)}

/-- A loop ends where the file ends. -/
theorem exec_readLoop_nil {j : Int32} (hbody : body j none = pure (.inr ()))
    (h : s.streams[fp]? = some []) :
    Exec readerSys (readLoop fp body j) s () (s.drained fp []) := by
  have hset : s.streams.set fp [] = s.streams := by
    obtain ⟨hlt, hget⟩ := List.getElem?_eq_some_iff.mp h
    rw [← hget, List.set_getElem_self]
  have hs : s.drained fp [] = s := by simp [Reader.drained, hset]
  rw [hs]
  refine .done (Exec.step none (Reader.fgets_nil h 1024).symm ?_) .ret
  rw [hbody]
  exact .ret

/-- One round, and the rounds after it. -/
theorem exec_readLoop_cons {c rest : Bytes} {j j' : Int32} {out out' : List Bytes}
    (h : s.streams[fp]? = some text)
    (hfgets : s.fgets fp 1024 = (some c, { s with streams := s.streams.set fp rest }))
    (hround : ∀ s : Reader,
      Exec readerSys (body j (some c)) s (.inl j') { s with prints := s.prints ++ out })
    (hrest : ∀ s : Reader, s.streams[fp]? = some rest →
      Exec readerSys (readLoop fp body j') s () (s.drained fp out')) :
    Exec readerSys (readLoop fp body j) s () (s.drained fp (out ++ out')) := by
  have hstep : Exec readerSys (perform (.fgets fp 1024) >>= body j) s (.inl j')
      { s with streams := s.streams.set fp rest, prints := s.prints ++ out } :=
    Exec.step (some c) hfgets.symm (hround { s with streams := s.streams.set fp rest })
  have htail := hrest { s with streams := s.streams.set fp rest, prints := s.prints ++ out }
    (Reader.getElem?_set_of_some h)
  simp only [Reader.drained, List.set_set, List.append_assoc] at htail ⊢
  exact .again hstep htail

theorem ofNat_add_one (k : Nat) : Int32.ofNat k + 1 = Int32.ofNat (k + 1) :=
  (Int32.ofNat_add k 1).symm

theorem exec_catLoop {cs : List Bytes} (hcs : pieces text = cs) (h : s.streams[fp]? = some text) :
    Exec readerSys (readLoop fp (catLine n) (Int32.ofNat k)) s ()
      (s.drained fp (shown n catRecord (numbered intOf k (cs.map cstr)))) := by
  induction cs generalizing s k text with
  | nil =>
    rw [List.map_nil, numbered, shown_nil]
    exact exec_readLoop_nil rfl (eq_nil_of_pieces hcs ▸ h)
  | cons c cs ih =>
    obtain ⟨rest, hrest, hfgets⟩ := Reader.fgets_piece h hcs
    rw [List.map_cons, numbered, shown_cons, ← shown_numbered]
    refine exec_readLoop_cons h hfgets (fun s => ?_) fun s hs => ih hrest hs
    have hnext : (if n then Int32.ofNat k + 1 else Int32.ofNat k) =
        Int32.ofNat (if n then k + 1 else k) := by
      rw [ofNat_add_one]
      cases n <;> rfl
    rw [← hnext]
    exact (Reader.exec_printLine s n _ _).bind .ret

theorem exec_grepLoop {cs : List Bytes} (hcs : pieces text = cs) (h : s.streams[fp]? = some text) :
    Exec readerSys (readLoop fp (grepLine n i pattern) (Int32.ofNat k)) s ()
      (s.drained fp
        (shown n grepRecord (hits i pattern (numbered intOf (k + 1) (cs.map cstr))))) := by
  induction cs generalizing s k text with
  | nil =>
    rw [List.map_nil, numbered, hits, List.filter_nil, shown_nil]
    exact exec_readLoop_nil rfl (eq_nil_of_pieces hcs ▸ h)
  | cons c cs ih =>
    obtain ⟨rest, hrest, hfgets⟩ := Reader.fgets_piece h hcs
    rw [List.map_cons, numbered, hits, List.filter_cons]
    cases hhit : contains i (cstr c) pattern with
    | true =>
      rw [if_pos rfl, shown_cons]
      refine exec_readLoop_cons h hfgets (fun s => ?_) fun s hs => ih hrest hs
      simp only [grepLine, hhit, if_true, ofNat_add_one]
      exact (Reader.exec_printLine s n _ _).bind .ret
    | false =>
      rw [if_neg (by simp), ← List.nil_append (shown n grepRecord _)]
      refine exec_readLoop_cons h hfgets (fun s => ?_) fun s hs => ih hrest hs
      simp only [grepLine, hhit, Bool.false_eq_true, if_false, List.append_nil, ofNat_add_one]
      exact .ret

end

/-! ## 4. The commands -/

section

variable {args : List Bytes} {s : Reader} {n i : Bool} {path pattern text : Bytes}

/-- What `cmd_cat` prints. -/
theorem prints_cmdCat (hargs : scanLast (utf8 "-n") (false, none) args.tail = (n, some path))
    (htext : s.file path = some text) :
    Prints (cmdCat args) s (shown n catRecord (numbered intOf 1 (texts text))) := by
  have hopen : s.fopen path =
      (some s.streams.length, { s with streams := s.streams ++ [text] }) := by
    simp only [Reader.fopen, htext]
  obtain ⟨t, hrun, ht⟩ : ∃ t, Exec readerSys
      (do
        readLoop s.streams.length (catLine n) 1
        perform (.fclose s.streams.length))
      { s with streams := s.streams ++ [text] } () t ∧
      t.prints = s.prints ++ shown n catRecord (numbered intOf 1 (texts text)) :=
    ⟨_, (exec_catLoop (k := 1) rfl (List.getElem?_concat_length)).bind (Exec.perform rfl), rfl⟩
  rw [cmdCat, hargs]
  refine .of_exec (Exec.step (some s.streams.length) hopen.symm ?_) ht
  convert hrun using 4
  exact iterate_eq_readLoop (fun k r => by cases r <;> rfl) _ _

/-- What `cmd_grep` prints. -/
theorem prints_cmdGrep
    (hargs : scanGrep ⟨false, false, none, none⟩ args.tail = ⟨n, i, some pattern, some path⟩)
    (htext : s.file path = some text) :
    Prints (cmdGrep args) s
      (shown n grepRecord (hits i pattern (numbered intOf 1 (texts text)))) := by
  have hopen : s.fopen path =
      (some s.streams.length, { s with streams := s.streams ++ [text] }) := by
    simp only [Reader.fopen, htext]
  obtain ⟨t, hrun, ht⟩ : ∃ t, Exec readerSys
      (do
        readLoop s.streams.length (grepLine n i pattern) 0
        perform (.fclose s.streams.length))
      { s with streams := s.streams ++ [text] } () t ∧
      t.prints = s.prints ++
        shown n grepRecord (hits i pattern (numbered intOf 1 (texts text))) :=
    ⟨_, (exec_grepLoop (k := 0) rfl (List.getElem?_concat_length)).bind (Exec.perform rfl), rfl⟩
  rw [cmdGrep, hargs]
  refine .of_exec (Exec.step (some s.streams.length) hopen.symm ?_) ht
  convert hrun using 4
  exact iterate_eq_readLoop (fun k r => by cases r <;> rfl) _ _

/-- A file that cannot be opened is not printed. -/
theorem prints_cmdCat_none (hargs : scanLast (utf8 "-n") (false, none) args.tail = (n, some path))
    (htext : s.file path = none) : Prints (cmdCat args) s [] := by
  have hopen : s.fopen path = (none, s) := by simp only [Reader.fopen, htext]
  rw [cmdCat, hargs]
  exact .of_exec (Exec.step none hopen.symm (Exec.perform rfl)) (List.append_nil _).symm

theorem prints_cmdGrep_none
    (hargs : scanGrep ⟨false, false, none, none⟩ args.tail = ⟨n, i, some pattern, some path⟩)
    (htext : s.file path = none) : Prints (cmdGrep args) s [] := by
  have hopen : s.fopen path = (none, s) := by simp only [Reader.fopen, htext]
  rw [cmdGrep, hargs]
  exact .of_exec (Exec.step none hopen.symm (Exec.perform rfl)) (List.append_nil _).symm

/-- On every file, and for every pattern, with `-i` or without: the numbered texts that `grep -n`
prints are those that `cat -n` prints and that contain the pattern. -/
theorem grep_cat_agree {cat grep : List Bytes}
    (hcat : scanLast (utf8 "-n") (false, none) cat.tail = (true, some path))
    (hgrep : scanGrep ⟨false, false, none, none⟩ grep.tail = ⟨true, i, some pattern, some path⟩)
    (s : Reader) :
    ∃ rs : List (Int × Bytes), Prints (cmdCat cat) s (rs.flatMap catRecord) ∧
      Prints (cmdGrep grep) s
        ((rs.filter fun r => contains i r.2 pattern).flatMap grepRecord) := by
  cases htext : s.file path with
  | none => exact ⟨[], prints_cmdCat_none hcat htext, prints_cmdGrep_none hgrep htext⟩
  | some text =>
    exact ⟨numbered intOf 1 (texts text), prints_cmdCat hcat htext, prints_cmdGrep hgrep htext⟩

/-- A single file, `f`. -/
def oneFile (text : Bytes) : Reader where
  file path := if path = utf8 "f" then some text else none
  streams := []
  prints := []
  errors := []

/-- A file with a NUL in its second line and no newline at its end. -/
def nulText : Bytes := utf8 "ab\nb" ++ 0 :: utf8 "a\na"

theorem grep_cat_agree_nul :
    ∃ rs : List (Int × Bytes),
      Prints (cmdCat [utf8 "cat", utf8 "-n", utf8 "f"]) (oneFile nulText) (rs.flatMap catRecord) ∧
      Prints (cmdGrep [utf8 "grep", utf8 "a", utf8 "-n", utf8 "f"]) (oneFile nulText)
        ((rs.filter fun r => contains false r.2 (utf8 "a")).flatMap grepRecord) := by
  have hcat : scanLast (utf8 "-n") (false, none) [utf8 "cat", utf8 "-n", utf8 "f"].tail =
      (true, some (utf8 "f")) := by
    decide
  have hgrep : scanGrep ⟨false, false, none, none⟩
      [utf8 "grep", utf8 "a", utf8 "-n", utf8 "f"].tail =
        ⟨true, false, some (utf8 "a"), some (utf8 "f")⟩ := by
    decide
  exact grep_cat_agree hcat hgrep (oneFile nulText)

example : numbered intOf 1 (texts nulText) =
    [(1, utf8 "ab\n"), (2, utf8 "b"), (3, utf8 "a")] := by
  decide

end

end PosixLab.Shell
