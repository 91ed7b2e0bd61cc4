/-
# Lines and what is printed of them

`cmd_cat` numbers, and `cmd_grep` chooses and numbers, what one call of `fgets` reads.  That is a
line only as long as the lines fit into the array, and it is printed as a C string.  The module
says exactly when the two commands do to the lines of a file what they do to its chunks:
`cat_reproduces_iff`, `grep_prints_lines_iff`.
-/
import PosixLab.Shell.TextFiles

namespace PosixLab.Shell

/-! ## 1. Lines -/

/-- The lines of a file, each with its newline, if it has one. -/
def textLines (text : Bytes) : List Bytes := lines isNewline text

/-- What `cmd_cat` is to print of a file. -/
def catText (n : Bool) (text : Bytes) : Bytes :=
  if n then ((numbered (fun k => k) 1 (textLines text)).flatMap catRecord).flatten else text

/-- The lines that `cmd_grep` is to print, with their numbers. -/
def lineHits (i : Bool) (pattern text : Bytes) : List (Int × Bytes) :=
  hits i pattern (numbered (fun k => k) 1 (textLines text))

theorem flatten_textLines (text : Bytes) : (textLines text).flatten = text := flatten_lines text

/-- The pieces of a file are those of its lines. -/
theorem pieces_eq_flatMap (text : Bytes) : pieces text = (textLines text).flatMap pieces :=
  chunks_eq_flatMap_lines text

theorem texts_of_nulFree {text : Bytes} (h : NulFree text) : texts text = pieces text := by
  refine (List.map_congr_left fun c hc => ?_).trans (List.map_id _)
  refine cstr_of_nulFree fun b hb => h b ?_
  rw [← flatten_pieces text]
  exact List.mem_flatten.mpr ⟨c, hc, hb⟩

/-- An `int` counts up to its bound. -/
theorem intOf_eq_iff (k : Nat) : intOf k = k ↔ k < 2 ^ 31 := by
  rw [intOf, Int32.toInt_ofNat', Int.bmod_def, show Int32.size = 4294967296 from rfl]
  norm_num
  omega

theorem numbered_append (f : Nat → Int) (k : Nat) (ts us : List Bytes) :
    numbered f k (ts ++ us) = numbered f k ts ++ numbered f (k + ts.length) us := by
  induction ts generalizing k with
  | nil => rfl
  | cons t ts ih =>
    rw [List.cons_append, numbered, ih, numbered, List.length_cons, List.cons_append]
    rw [show k + 1 + ts.length = k + (ts.length + 1) by omega]

/-! ## 2. The lines that contain the pattern -/

theorem contains_mono {i : Bool} {pattern c l : Bytes} (hcl : c <:+: l)
    (h : contains i c pattern = true) : contains i l pattern = true := by
  simp only [contains, decide_eq_true_eq] at h ⊢
  exact h.trans (hcl.map _)

theorem map_snd_hits (i : Bool) (pattern : Bytes) (f : Nat → Int) (k : Nat) (ts : List Bytes) :
    (hits i pattern (numbered f k ts)).map (·.2) = ts.filter (contains i · pattern) := by
  conv_rhs => rw [← map_snd_numbered f k ts, List.filter_map]
  rfl

theorem decimal_injective {m n : Int} (h : decimal m = decimal n) : m = n := by
  have hm := @strtol_decimal m [] rfl
  rw [h, strtol_decimal n rfl] at hm
  exact hm.symm

/-- The numbers and the texts can be read off from what is printed. -/
theorem flatMap_grepRecord_inj {rs rs' : List (Int × Bytes)}
    (h : rs.flatMap grepRecord = rs'.flatMap grepRecord) : rs = rs' := by
  induction rs generalizing rs' with
  | nil =>
    cases rs' with
    | nil => rfl
    | cons r' rs' => cases h
  | cons r rs ih =>
    cases rs' with
    | nil => cases h
    | cons r' rs' =>
      obtain ⟨hnumber, h⟩ := List.cons.inj h
      obtain ⟨htext, h⟩ := List.cons.inj h
      have hr : r = r' := Prod.ext (decimal_injective (List.append_cancel_right hnumber)) htext
      rw [hr, ih h]

/-- A line that is one of its own pieces is the only one. -/
theorem pieces_eq_of_mem {l : Bytes} (h : l ∈ pieces l) : pieces l = [l] := by
  obtain ⟨ps, qs, hsplit⟩ := List.append_of_mem h
  have hlen := congrArg List.length (flatten_pieces l)
  rw [hsplit, List.flatten_append, List.flatten_cons, List.length_append,
    List.length_append] at hlen
  have hne : [] ∉ pieces l := nil_notMem_chunks l
  have hnil : ∀ rs : List Bytes, (∀ r ∈ rs, r ∈ pieces l) → rs.flatten.length = 0 → rs = [] := by
    intro rs hrs hzero
    cases rs with
    | nil => rfl
    | cons r rs =>
      have hr : r = [] := by
        rw [List.flatten_cons, List.length_append] at hzero
        exact List.eq_nil_of_length_eq_zero (by omega)
      exact absurd (hr ▸ hrs r List.mem_cons_self) hne
  rw [hsplit, hnil ps (fun r hr => by rw [hsplit]; simp [hr]) (by omega),
    hnil qs (fun r hr => by rw [hsplit]; simp [hr]) (by omega)]
  rfl

theorem forall_getElem?_cons {α : Type*} {a : α} {l : List α} {P : Nat → α → Prop} :
    (∀ j x, (a :: l)[j]? = some x → P j x) ↔ P 0 a ∧ ∀ j x, l[j]? = some x → P (j + 1) x := by
  constructor
  · exact fun h => ⟨h 0 a rfl, fun j x hx => h (j + 1) x hx⟩
  · rintro ⟨h₀, h⟩ j x hx
    cases j with
    | zero =>
      obtain rfl : a = x := by simpa using hx
      exact h₀
    | succ j => exact h j x hx

section

variable {i : Bool} {pattern : Bytes} {f g : Nat → Int}

theorem hits_append (rs rs' : List (Int × Bytes)) :
    hits i pattern (rs ++ rs') = hits i pattern rs ++ hits i pattern rs' :=
  List.filter_append _ _

theorem hits_cons_pos {r : Int × Bytes} (h : contains i r.2 pattern = true)
    (rs : List (Int × Bytes)) : hits i pattern (r :: rs) = r :: hits i pattern rs :=
  List.filter_cons_of_pos h

theorem hits_cons_neg {r : Int × Bytes} (h : contains i r.2 pattern = false)
    (rs : List (Int × Bytes)) : hits i pattern (r :: rs) = hits i pattern rs :=
  List.filter_cons_of_neg (by simp [h])

/-- What is printed of a line that contains the pattern, and is not one piece, is not the line. -/
theorem hits_pieces_ne {l : Bytes} (hne : l ≠ []) (hone : pieces l ≠ [l]) (q k m : Nat) (z : Int)
    (ls : List Bytes) :
    hits i pattern (numbered f q (pieces l)) ++ hits i pattern (numbered f k (ls.flatMap pieces)) ≠
      (z, l) :: hits i pattern (numbered g m ls) := by
  intro h
  cases hfirst : hits i pattern (numbered f q (pieces l)) with
  | nil =>
    -- the later lines would have to make up for the length of this one
    rw [hfirst, List.nil_append] at h
    have hlen := congrArg (fun rs : List (Int × Bytes) => (rs.map (·.2)).flatten.length) h
    simp only [List.map_cons, map_snd_hits, List.flatten_cons, List.length_append] at hlen
    have hle : ((ls.flatMap pieces).filter (contains i · pattern)).flatten.length ≤
        (ls.filter (contains i · pattern)).flatten.length :=
      length_filter_flatMap_le contains_mono ls
    have hpos := List.length_pos_of_ne_nil hne
    omega
  | cons r rs =>
    rw [hfirst] at h
    obtain ⟨rfl, -⟩ := List.cons.inj h
    have hmem : l ∈ (hits i pattern (numbered f q (pieces l))).map (·.2) := by
      rw [hfirst]
      exact List.mem_cons_self
    rw [map_snd_hits] at hmem
    exact hone (pieces_eq_of_mem (List.mem_filter.mp hmem).1)

/-- Numbered by `f`, the pieces of some lines that contain the pattern are the lines that do,
numbered by `g`, exactly when each of these is one piece and has the same number both ways. -/
theorem hits_pieces_eq_iff {ls : List Bytes} (hne : [] ∉ ls) (q k : Nat) :
    hits i pattern (numbered f q (ls.flatMap pieces)) = hits i pattern (numbered g k ls) ↔
      ∀ j l, ls[j]? = some l → contains i l pattern = true →
        pieces l = [l] ∧ f (q + ((ls.take j).flatMap pieces).length) = g (k + j) := by
  induction ls generalizing q k with
  | nil => simp [numbered, hits]
  | cons l ls ih =>
    have hl : l ≠ [] := fun hnil => hne (hnil ▸ List.mem_cons_self)
    have hrest := ih (fun h => hne (List.mem_cons_of_mem _ h)) (q + (pieces l).length) (k + 1)
    have hshift : ∀ j, q + (((l :: ls).take (j + 1)).flatMap pieces).length =
        q + (pieces l).length + ((ls.take j).flatMap pieces).length := by
      intro j
      simp [Nat.add_assoc]
    have hnext : ∀ j, g (k + (j + 1)) = g (k + 1 + j) := by
      intro j
      rw [Nat.add_right_comm k 1 j]
      rfl
    rw [forall_getElem?_cons]
    simp only [hshift, hnext, List.take_zero, List.flatMap_nil, List.length_nil, Nat.add_zero]
    rw [← hrest, List.flatMap_cons, numbered_append, hits_append, numbered]
    cases hhit : contains i l pattern with
    | false =>
      have hnil : hits i pattern (numbered f q (pieces l)) = [] := by
        have htexts := map_snd_hits i pattern f q (pieces l)
        have hfilter : (pieces l).filter (contains i · pattern) = [] :=
          filter_chunks_eq_nil contains_mono hhit
        exact List.map_eq_nil_iff.mp (htexts.trans hfilter)
      rw [hnil, List.nil_append, hits_cons_neg hhit]
      simp
    | true =>
      rw [hits_cons_pos hhit]
      by_cases hone : pieces l = [l]
      · rw [hone, numbered, numbered, hits_cons_pos hhit]
        simp [hits]
      · simp only [hone, false_and, imp_false, not_true_eq_false, iff_false]
        exact hits_pieces_ne hl hone _ _ _ _ _

/-- A line fits into the array when it is one piece. -/
theorem pieces_eq_iff {text l : Bytes} (h : l ∈ textLines text) :
    pieces l = [l] ↔ l.length ≤ 1023 :=
  chunks_eq_singleton_iff h

/-- Without numbers: the chosen pieces, put together, are the chosen lines exactly when every piece
of a chosen line is chosen. -/
theorem hits_texts_iff {text : Bytes} (hnul : NulFree text) :
    ((hits i pattern (numbered intOf 1 (texts text))).map (·.2)).flatten =
        ((lineHits i pattern text).map (·.2)).flatten ↔
      ∀ l ∈ textLines text, contains i l pattern = true →
        ∀ c ∈ pieces l, contains i c pattern = true := by
  rw [texts_of_nulFree hnul, pieces_eq_flatMap, lineHits, map_snd_hits, map_snd_hits]
  exact filter_flatMap_eq_iff contains_mono (textLines text)

/-- With numbers: they are these lines exactly when each of them fits into the array, and the
pieces up to it are as many as the lines. -/
theorem hits_texts_eq_iff {text : Bytes} (hnul : NulFree text) :
    hits i pattern (numbered intOf 1 (texts text)) = lineHits i pattern text ↔
      ∀ k l, (textLines text)[k]? = some l → contains i l pattern = true →
        l.length ≤ 1023 ∧
          intOf (1 + (((textLines text).take k).flatMap pieces).length) = 1 + k := by
  have hne : [] ∉ textLines text := nil_notMem_lines text
  rw [texts_of_nulFree hnul, pieces_eq_flatMap, lineHits, hits_pieces_eq_iff hne]
  refine forall_congr' fun k => forall_congr' fun l => imp_congr_right fun hl => ?_
  rw [pieces_eq_iff (List.mem_of_getElem? hl), Nat.cast_add, Nat.cast_one]

variable {args : List Bytes} {s : Reader} {n : Bool} {path text : Bytes}

/-- For every file without NULs, every pattern and every setting of `-n` and `-i`.  Without `-n`
exactly the lines that contain the pattern are printed, byte for byte, exactly when every piece
of such a line contains it too.  With `-n` they are printed line by line with their numbers
exactly when each of them fits into the array and the count of pieces up to it, as an `int`, is
its number. -/
theorem grep_prints_lines_iff
    (hargs : scanGrep ⟨false, false, none, none⟩ args.tail = ⟨n, i, some pattern, some path⟩)
    (htext : s.file path = some text) (hnul : NulFree text) :
    (∃ out, Prints (cmdGrep args) s out ∧
        if n then out = (lineHits i pattern text).flatMap grepRecord
        else out.flatten = ((lineHits i pattern text).map (·.2)).flatten) ↔
      if n then
        ∀ k l, (textLines text)[k]? = some l → contains i l pattern = true →
          l.length ≤ 1023 ∧ intOf (1 + (((textLines text).take k).flatMap pieces).length) = 1 + k
      else
        ∀ l ∈ textLines text, contains i l pattern = true →
          ∀ c ∈ pieces l, contains i c pattern = true := by
  rw [(prints_cmdGrep (s := s) hargs htext).exists_iff]
  cases n with
  | false =>
    simp only [shown, Bool.false_eq_true, if_false]
    exact hits_texts_iff hnul
  | true =>
    simp only [shown, if_true]
    rw [← hits_texts_eq_iff hnul]
    exact ⟨flatMap_grepRecord_inj, fun h => by rw [h]⟩

end

/-- Three lines, the last one without a newline. -/
def shortLines : Bytes := utf8 "ab\nb\nBa"

theorem grep_prints_lines_iff_short :
    ∃ out, Prints (cmdGrep [utf8 "grep", utf8 "-n", utf8 "a", utf8 "-i", utf8 "f"]) (oneFile shortLines) out ∧
      out = (lineHits true (utf8 "a") shortLines).flatMap grepRecord := by
  have hargs : scanGrep ⟨false, false, none, none⟩
      [utf8 "grep", utf8 "-n", utf8 "a", utf8 "-i", utf8 "f"].tail =
        ⟨true, true, some (utf8 "a"), some (utf8 "f")⟩ := by
    decide
  have hlines : textLines shortLines = [utf8 "ab\n", utf8 "b\n", utf8 "Ba"] := by
    decide
  have h := grep_prints_lines_iff (s := oneFile shortLines) hargs rfl
    (by decide +kernel)
  refine h.mpr fun k l hl _ => ?_
  rw [hlines] at hl ⊢
  rcases k with _ | _ | _ | k
  · obtain rfl : utf8 "ab\n" = l := by simpa using hl
    decide
  · obtain rfl : utf8 "b\n" = l := by simpa using hl
    decide
  · obtain rfl : utf8 "Ba" = l := by simpa using hl
    decide
  · simp at hl

/-- A line that does not fit into the array: many an `x`, and a `y`. -/
def longFirst : Bytes := List.replicate 1023 120 ++ [121, 10]

/-- This line, and another one. -/
def longLine : Bytes := longFirst ++ [121, 10]

theorem textLines_longLine : textLines longLine = [longFirst, [121, 10]] := by
  have hno : ∀ b ∈ List.replicate 1023 120 ++ [121], isNewline b = false := by
    intro b hb
    rcases List.mem_append.mp hb with hb | hb
    · rw [List.eq_of_mem_replicate hb]
      decide
    · rw [List.mem_singleton.mp hb]
      decide
  have hsplit : longLine = (List.replicate 1023 120 ++ [121]) ++ 10 :: [121, 10] := by
    simp only [longLine, longFirst, List.append_assoc, List.cons_append, List.nil_append]
  have hfirst : longFirst = (List.replicate 1023 120 ++ [121]) ++ [10] := by
    simp only [longFirst, List.append_assoc, List.cons_append, List.nil_append]
  rw [hsplit, textLines, lines_append_stop hno rfl, hfirst]
  rfl

theorem length_longFirst : longFirst.length = 1025 := by
  rw [longFirst, List.length_append, List.length_replicate]
  rfl

theorem nulFree_longLine : NulFree longLine := by
  have hx : NulFree (List.replicate 1023 120) := by
    intro b hb
    rw [List.eq_of_mem_replicate hb]
    decide
  have hy : NulFree [121, 10] := by simp [NulFree]
  exact (hx.append hy).append hy

theorem contains_longFirst : contains false longFirst [121] = true := by
  have hend : ([121, 10] : Bytes) <:+: longFirst := (List.suffix_append _ _).isInfix
  exact contains_mono hend (by decide)

theorem contains_replicate (n : Nat) : contains false (List.replicate n 120) [121] = false := by
  rw [← Bool.not_eq_true]
  intro h
  simp only [contains, decide_eq_true_eq, List.map_replicate] at h
  have hmem := h.subset (List.mem_map_of_mem (List.mem_singleton_self _))
  exact absurd (List.eq_of_mem_replicate hmem) (by decide)

/-- Of the long line `grep y` prints the end alone, and for `grep -n y` the line behind it has the
number 3. -/
theorem grep_prints_pieces :
    (¬ ∃ out, Prints (cmdGrep [utf8 "grep", utf8 "y", utf8 "f"]) (oneFile longLine) out ∧
        out.flatten = ((lineHits false (utf8 "y") longLine).map (·.2)).flatten) ∧
      ¬ ∃ out, Prints (cmdGrep [utf8 "grep", utf8 "-n", utf8 "y", utf8 "f"]) (oneFile longLine) out ∧
        out = (lineHits false (utf8 "y") longLine).flatMap grepRecord := by
  have hplain : scanGrep ⟨false, false, none, none⟩ [utf8 "grep", utf8 "y", utf8 "f"].tail =
      ⟨false, false, some (utf8 "y"), some (utf8 "f")⟩ := by
    decide
  have hnumber : scanGrep ⟨false, false, none, none⟩
      [utf8 "grep", utf8 "-n", utf8 "y", utf8 "f"].tail =
        ⟨true, false, some (utf8 "y"), some (utf8 "f")⟩ := by
    decide
  have hy : utf8 "y" = [121] := by decide
  rw [hy] at hplain hnumber ⊢
  constructor
  · rw [(prints_cmdGrep (s := oneFile longLine) hplain rfl).exists_iff]
    intro h
    simp only [shown, Bool.false_eq_true, if_false] at h
    have hall := (hits_texts_iff nulFree_longLine).mp h longFirst
      (by rw [textLines_longLine]; exact List.mem_cons_self) contains_longFirst
    have hfull : List.replicate 1023 120 ∈ pieces longFirst := by
      rw [longFirst, pieces, chunks, chunksFrom_full (fun b hb => ?_) List.length_replicate]
      · exact List.mem_cons_self
      · rw [List.eq_of_mem_replicate hb]
        decide
    have hhit := hall _ hfull
    rw [contains_replicate] at hhit
    cases hhit
  · rw [(prints_cmdGrep (s := oneFile longLine) hnumber rfl).exists_iff]
    intro h
    simp only [shown, if_true] at h
    have hfit := ((hits_texts_eq_iff nulFree_longLine).mp (flatMap_grepRecord_inj h) 0 longFirst
      (by rw [textLines_longLine, List.getElem?_cons_zero]) contains_longFirst).1
    rw [length_longFirst] at hfit
    exact absurd hfit (by decide)

/-! ## 3. The numbered file -/

/-- The bytes of numbered texts as `cmd_cat` prints them. -/
def catBytes (rs : List (Int × Bytes)) : Bytes := (rs.flatMap catRecord).flatten

theorem catBytes_cons (z : Int) (t : Bytes) (rs : List (Int × Bytes)) :
    catBytes ((z, t) :: rs) = paddedInt 6 z ++ ([32, 32] ++ (t ++ catBytes rs)) := by
  have hblanks : utf8 "  " = [32, 32] := by decide
  simp [catBytes, catRecord, hblanks]

/-- Where `strtol` skips blanks. -/
theorem strtol_replicate (m : Nat) (s : Bytes) : strtol (List.replicate m 32 ++ s) = strtol s := by
  have hskip : (List.replicate m 32 ++ s).dropWhile isspace = s.dropWhile isspace := by
    refine List.dropWhile_append_of_pos fun b hb => ?_
    rw [List.eq_of_mem_replicate hb]
    decide
  rw [strtol, hskip, strtol]

/-- A number that is printed to a width can be read off. -/
theorem paddedInt_append_inj {m n : Int} {x y : Bytes}
    (h : paddedInt 6 m ++ ([32, 32] ++ x) = paddedInt 6 n ++ ([32, 32] ++ y)) : m = n ∧ x = y := by
  have hread : ∀ (z : Int) (w : Bytes), strtol (paddedInt 6 z ++ ([32, 32] ++ w)) = z := by
    intro z w
    rw [paddedInt, List.append_assoc, strtol_replicate]
    exact strtol_decimal z rfl
  have hmn : m = n := by
    have hm := hread m x
    rw [h, hread n y] at hm
    exact hm.symm
  rw [hmn, ← List.append_assoc, ← List.append_assoc] at h
  exact ⟨hmn, List.append_cancel_left h⟩

/-- The length of the first line, without its newline. -/
def lineLength (x : Bytes) : Nat := (x.takeWhile (!isNewline ·)).length

theorem lineLength_append {a : Bytes} (ha : ∀ b ∈ a, isNewline b = false) (x : Bytes) :
    lineLength (a ++ x) = a.length + lineLength x := by
  rw [lineLength, List.takeWhile_append_of_pos (fun b hb => by simp [ha b hb]), List.length_append]
  rfl

theorem lineLength_cons {b : Byte} (hb : isNewline b = false) (x : Bytes) :
    lineLength (b :: x) = 1 + lineLength x :=
  lineLength_append (a := [b]) (by simpa using hb) x

/-- Behind a newline nothing counts. -/
theorem lineLength_append_newline (a x y : Bytes) :
    lineLength (a ++ 10 :: x) = lineLength (a ++ 10 :: y) := by
  induction a with
  | nil => rfl
  | cons b a ih =>
    cases hb : isNewline b with
    | true => simp [lineLength, hb]
    | false =>
      rw [List.cons_append, List.cons_append, lineLength_cons hb, lineLength_cons hb, ih]

theorem lineLength_mono {x y : Bytes} (h : lineLength x ≤ lineLength y) (a : Bytes) :
    lineLength (a ++ x) ≤ lineLength (a ++ y) := by
  induction a with
  | nil => exact h
  | cons b a ih =>
    cases hb : isNewline b with
    | true => simp [lineLength, hb]
    | false =>
      rw [List.cons_append, List.cons_append, lineLength_cons hb, lineLength_cons hb]
      omega

/-- A printed number is not empty and has no newline in it. -/
theorem lineLength_number (z : Int) (x : Bytes) :
    lineLength x < lineLength (paddedInt 6 z ++ ([32, 32] ++ x)) := by
  have hdigit : ∀ b ∈ paddedInt 6 z, isNewline b = false := by
    intro b hb
    rcases List.mem_append.mp hb with hb | hb
    · rw [List.eq_of_mem_replicate hb]
      decide
    · rcases mem_decimal hb with rfl | hb
      · decide
      · by_contra h10
        have h10' : b = 10 := by simpa [isNewline] using h10
        rw [h10'] at hb
        cases hb
  have hblanks : ∀ b ∈ ([32, 32] : Bytes), isNewline b = false := by simp [isNewline]
  rw [lineLength_append hdigit, lineLength_append hblanks, List.length_cons, List.length_singleton]
  omega

/-- The numbers make the first line longer. -/
theorem lineLength_catBytes (f : Nat → Int) (k : Nat) (ts : List Bytes) :
    lineLength ts.flatten ≤ lineLength (catBytes (numbered f k ts)) ∧
      (ts ≠ [] → lineLength ts.flatten < lineLength (catBytes (numbered f k ts))) := by
  induction ts generalizing k with
  | nil => exact ⟨Nat.le_refl _, fun h => absurd rfl h⟩
  | cons t ts ih =>
    have hlt : lineLength (t :: ts).flatten < lineLength (catBytes (numbered f k (t :: ts))) := by
      rw [numbered, catBytes_cons, List.flatten_cons]
      exact Nat.lt_of_le_of_lt (lineLength_mono (ih (k + 1)).1 t) (lineLength_number _ _)
    exact ⟨Nat.le_of_lt hlt, fun _ => hlt⟩

theorem flatten_flatMap_pieces (ls : List Bytes) : (ls.flatMap pieces).flatten = ls.flatten := by
  induction ls with
  | nil => rfl
  | cons l ls ih =>
    rw [List.flatMap_cons, List.flatten_append, flatten_pieces, ih, List.flatten_cons]

/-- What follows a part of a line that goes to its end does not make the line longer. -/
theorem lineLength_end {t l c r : Bytes} {ls : List Bytes} (h : textLines t = l :: ls)
    (hl : l = c ++ r) (hr : r ≠ []) (f : Nat → Int) (k : Nat) :
    lineLength (r ++ catBytes (numbered f k ls)) = lineLength (r ++ ls.flatten) := by
  rcases lines_cons_spec h with ⟨q, a, hq, -, ha⟩ | ⟨-, rfl⟩
  · obtain rfl : a = 10 := by simpa [isNewline] using ha
    obtain ⟨r', b, rfl⟩ := (List.eq_nil_or_concat r).resolve_left hr
    have hb : b = 10 := by
      rw [hl, List.concat_eq_append, ← List.append_assoc] at hq
      exact List.singleton_inj.mp (List.append_inj' hq rfl).2
    rw [hb, List.concat_eq_append, List.append_assoc, List.append_assoc]
    exact lineLength_append_newline _ _ _
  · rfl

/-- Numbered as an `int`, the pieces of some lines print like the numbered lines exactly when each
line is one piece and its number fits. -/
theorem catBytes_pieces_eq_iff {ls : List Bytes} {t : Bytes} (hls : textLines t = ls) (k : Nat) :
    catBytes (numbered intOf k (ls.flatMap pieces)) = catBytes (numbered (fun k => k) k ls) ↔
      ∀ j l, ls[j]? = some l → l.length ≤ 1023 ∧ intOf (k + j) = (k + j : Nat) := by
  induction ls generalizing t k with
  | nil => simp [numbered]
  | cons l ls ih =>
    have hne : [] ∉ textLines t := nil_notMem_lines t
    have hmem : l ∈ textLines t := hls ▸ List.mem_cons_self
    have hrest := ih (lines_tail hls) (k + 1)
    obtain ⟨c, ps, hcs⟩ : ∃ c ps, pieces l = c :: ps := by
      refine List.exists_cons_of_ne_nil fun hnil => ?_
      rw [eq_nil_of_pieces hnil] at hmem
      exact hne hmem
    have hl : l = c ++ ps.flatten := by
      rw [← flatten_pieces l, hcs, List.flatten_cons]
    have hnext : ∀ j, k + (j + 1) = k + 1 + j := by omega
    rw [forall_getElem?_cons, List.flatMap_cons, hcs, List.cons_append, numbered, numbered,
      catBytes_cons, catBytes_cons, ← pieces_eq_iff hmem, hcs]
    constructor
    · intro h
      obtain ⟨hk, hx⟩ := paddedInt_append_inj h
      have hps : ps = [] := by
        by_contra hps
        -- the number before the second piece would be a part of the line
        have hr : ps.flatten ≠ [] := by
          obtain ⟨p, ps, rfl⟩ := List.exists_cons_of_ne_nil hps
          have hp : p ≠ [] := by
            rintro rfl
            exact @nil_notMem_chunks _ isNewline 1022 l
              (by rw [← pieces, hcs]; simp)
          simp [hp]
        rw [hl, List.append_assoc] at hx
        have hlong :=
          (lineLength_catBytes intOf (k + 1) (ps ++ ls.flatMap pieces)).2 (by simp [hps])
        rw [List.append_cancel_left hx, lineLength_end hls hl hr, List.flatten_append,
          flatten_flatMap_pieces] at hlong
        exact absurd hlong (Nat.lt_irrefl _)
      subst hps
      obtain rfl : l = c := by simpa using hl
      rw [List.nil_append] at hx
      refine ⟨⟨rfl, hk⟩, fun j l hl => ?_⟩
      rw [hnext]
      exact hrest.mp (List.append_cancel_left hx) j l hl
    · rintro ⟨⟨hone, hk⟩, h⟩
      obtain ⟨rfl, rfl⟩ := List.cons.inj hone
      have htail := hrest.mpr fun j l hl => by
        rw [← hnext]
        exact h j l hl
      rw [List.nil_append, htail, show intOf k = k from hk]

/-- No NUL is printed with numbered strings. -/
theorem nulFree_catBytes {ts : List Bytes} (hts : ∀ t ∈ ts, NulFree t) (f : Nat → Int) (k : Nat) :
    NulFree (catBytes (numbered f k ts)) := by
  induction ts generalizing k with
  | nil => exact fun b hb => by cases hb
  | cons t ts ih =>
    have hnumber : NulFree (paddedInt 6 (f k)) := by
      refine NulFree.append (fun b hb => ?_) (nulFree_decimal _)
      rw [List.eq_of_mem_replicate hb]
      decide
    rw [numbered, catBytes_cons]
    have hblanks : NulFree [32, 32] := by simp [NulFree]
    exact hnumber.append (hblanks.append
      ((hts t List.mem_cons_self).append (ih (fun u hu => hts u (List.mem_cons_of_mem _ hu)) _)))

/-- With numbers or without, no byte of the file is missing in what is to be printed. -/
theorem mem_catText {text : Bytes} {b : Byte} (hb : b ∈ text) (n : Bool) : b ∈ catText n text := by
  have hmem : ∀ (k : Nat) {ts : List Bytes}, b ∈ ts.flatten →
      b ∈ catBytes (numbered (fun k => k) k ts) := by
    intro k ts h
    induction ts generalizing k with
    | nil => exact h
    | cons t ts ih =>
      rw [numbered, catBytes_cons]
      rcases List.mem_append.mp h with h | h
      · simp [h]
      · simp [ih (k + 1) h]
  cases n with
  | false => exact hb
  | true => exact hmem 1 (by rwa [flatten_textLines])

section

variable {args : List Bytes} {s : Reader} {n : Bool} {path text : Bytes}

/-- What is printed is without NULs. -/
theorem nulFree_shown (text : Bytes) :
    NulFree (shown n catRecord (numbered intOf 1 (texts text))).flatten := by
  have htexts : ∀ t ∈ texts text, NulFree t := by
    intro t ht
    obtain ⟨c, -, rfl⟩ := List.mem_map.mp ht
    exact nulFree_cstr c
  cases n with
  | true => exact nulFree_catBytes htexts _ _
  | false =>
    intro b hb
    rw [shown, if_neg (by decide), map_snd_numbered] at hb
    obtain ⟨t, ht, hbt⟩ := List.mem_flatten.mp hb
    exact htexts t ht b hbt

/-- What is printed is the file, or its numbered lines. -/
theorem shown_eq_catText_iff (text : Bytes) :
    (shown n catRecord (numbered intOf 1 (texts text))).flatten = catText n text ↔
      NulFree text ∧ (n = true →
        (∀ l ∈ textLines text, l.length ≤ 1023) ∧ (textLines text).length < 2 ^ 31) := by
  have hfree : (shown n catRecord (numbered intOf 1 (texts text))).flatten = catText n text →
      NulFree text := by
    intro h b hb
    exact nulFree_shown text b (h ▸ mem_catText hb n)
  rw [← and_iff_right_of_imp hfree]
  refine and_congr_right fun hnul => ?_
  rw [texts_of_nulFree hnul]
  cases n with
  | false =>
    rw [shown, if_neg (by decide), map_snd_numbered, flatten_pieces]
    simp [catText]
  | true =>
    rw [pieces_eq_flatMap]
    refine (catBytes_pieces_eq_iff rfl 1).trans ?_
    simp only [intOf_eq_iff, true_imp_iff]
    constructor
    · refine fun h => ⟨fun l hl => ?_, ?_⟩
      · obtain ⟨j, hj⟩ := List.mem_iff_getElem?.mp hl
        exact (h j l hj).1
      · by_contra hlen
        have hlast : (textLines text).length - 1 < (textLines text).length := by omega
        have hint := (h _ _ (List.getElem?_eq_getElem hlast)).2
        omega
    · rintro ⟨hfit, hlen⟩ j l hj
      have hlt := (List.getElem?_eq_some_iff.mp hj).1
      exact ⟨hfit l (List.mem_of_getElem? hj), by omega⟩

/-- For every file.  Without `-n` the file is printed byte for byte exactly when there is no NUL
in it.  With `-n` each line is printed with its number in front exactly when moreover each line
fits into the array, and the number of the last one into an `int`. -/
theorem cat_reproduces_iff
    (hargs : scanLast (utf8 "-n") (false, none) args.tail = (n, some path))
    (htext : s.file path = some text) :
    (∃ out, Prints (cmdCat args) s out ∧ out.flatten = catText n text) ↔
      NulFree text ∧ (n = true →
        (∀ l ∈ textLines text, l.length ≤ 1023) ∧ (textLines text).length < 2 ^ 31) := by
  rw [(prints_cmdCat (s := s) hargs htext).exists_iff]
  exact shown_eq_catText_iff text

end

theorem cat_reproduces_iff_short :
    ∃ out, Prints (cmdCat [utf8 "cat", utf8 "-n", utf8 "f"]) (oneFile shortLines) out ∧
      out.flatten = catText true shortLines := by
  have hargs : scanLast (utf8 "-n") (false, none) [utf8 "cat", utf8 "-n", utf8 "f"].tail =
      (true, some (utf8 "f")) := by
    decide
  refine (cat_reproduces_iff (s := oneFile shortLines) hargs rfl).mpr
    ⟨by decide +kernel, fun _ => ?_⟩
  have hlines : textLines shortLines = [utf8 "ab\n", utf8 "b\n", utf8 "Ba"] := by
    decide
  rw [hlines]
  decide

/-- A NUL hides the rest of its line, and `cat -n` counts the long line twice. -/
theorem cat_prints_pieces :
    (¬ ∃ out, Prints (cmdCat [utf8 "cat", utf8 "f"]) (oneFile nulText) out ∧
        out.flatten = catText false nulText) ∧
      ¬ ∃ out, Prints (cmdCat [utf8 "cat", utf8 "-n", utf8 "f"]) (oneFile longLine) out ∧
        out.flatten = catText true longLine := by
  have hplain : scanLast (utf8 "-n") (false, none) [utf8 "cat", utf8 "f"].tail =
      (false, some (utf8 "f")) := by
    decide
  have hnumber : scanLast (utf8 "-n") (false, none) [utf8 "cat", utf8 "-n", utf8 "f"].tail =
      (true, some (utf8 "f")) := by
    decide
  constructor
  · rw [(prints_cmdCat (s := oneFile nulText) hplain rfl).exists_iff, shown_eq_catText_iff]
    exact fun h => absurd h.1 (by decide)
  · rw [(prints_cmdCat (s := oneFile longLine) hnumber rfl).exists_iff, shown_eq_catText_iff]
    intro h
    have hfit := (h.2 rfl).1 longFirst (by rw [textLines_longLine]; exact List.mem_cons_self)
    rw [length_longFirst] at hfit
    exact absurd hfit (by decide)

end PosixLab.Shell
