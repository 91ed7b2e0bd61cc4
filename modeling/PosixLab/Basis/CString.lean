/-
# C strings, character arrays and the words of a text

A `char` array is a list of bytes and a C string is what stands in it before the first NUL
(`cstr`).  The module has what the programs need of `<string.h>` and `<ctype.h>`, and the `%s`
conversion of the scanf family: `scanWord` skips blanks and takes the run of non-blanks that
follows, `words` is the list of all such runs, and `scanWord_eq_some` / `scanWord_eq_none` say
that scanning word by word walks down that list.
-/
import Mathlib.Data.List.Basic
import Mathlib.Data.List.TakeWhile
import Mathlib.Data.UInt

namespace PosixLab

/-- One `char`. -/
abbrev Byte := UInt8

/-- The contents of a `char` array, of a file or of a stretch of a byte stream. -/
abbrev Bytes := List Byte

/-- The bytes of a string literal of the source, which is stored as UTF-8. -/
def utf8 (s : String) : Bytes := s.toList.flatMap String.utf8EncodeChar

/-! ## 1. C strings -/

/-- The C string that starts an array: everything before the first NUL. -/
def cstr (a : Bytes) : Bytes := a.takeWhile (· != 0)

/-- A text without NUL bytes. -/
def NulFree (a : Bytes) : Prop := ∀ b ∈ a, b ≠ 0

instance (a : Bytes) : Decidable (NulFree a) := inferInstanceAs (Decidable (∀ b ∈ a, b ≠ 0))

/-- Looking for the one byte is quicker than comparing every byte of a long text. -/
theorem NulFree.of_notMem {a : Bytes} (h : 0 ∉ a) : NulFree a :=
  fun _ hb h0 => h (h0 ▸ hb)

theorem NulFree.append {a b : Bytes} (ha : NulFree a) (hb : NulFree b) : NulFree (a ++ b) := by
  intro x hx
  rcases List.mem_append.mp hx with h | h
  · exact ha x h
  · exact hb x h

theorem nulFree_cstr (a : Bytes) : NulFree (cstr a) := by
  intro b hb
  simpa using List.mem_takeWhile_imp hb

/-- A text without NUL bytes is its own C string. -/
theorem cstr_of_nulFree {a : Bytes} (h : NulFree a) : cstr a = a := by
  unfold cstr
  rw [List.takeWhile_eq_self_iff]
  intro b hb
  simpa using h b hb

/-- A text without NUL bytes starts the C string. -/
theorem cstr_append {a : Bytes} (h : NulFree a) (rest : Bytes) :
    cstr (a ++ rest) = a ++ cstr rest :=
  List.takeWhile_append_of_pos fun b hb => by simpa using h b hb

/-- Nothing after a NUL counts. -/
theorem cstr_append_nul (a rest : Bytes) : cstr (a ++ 0 :: rest) = cstr a := by
  induction a with
  | nil => rfl
  | cons b a ih =>
    have hcons : ∀ l : Bytes, cstr (b :: l) = if b != 0 then b :: cstr l else [] :=
      fun l => List.takeWhile_cons
    rw [List.cons_append, hcons, hcons, ih]

theorem cstr_append_zero {a : Bytes} (h : NulFree a) (rest : Bytes) :
    cstr (a ++ 0 :: rest) = a := by
  rw [cstr_append_nul, cstr_of_nulFree h]

theorem length_cstr_le (a : Bytes) : (cstr a).length ≤ a.length :=
  (List.takeWhile_prefix _).length_le

/-- Store the bytes `src` at the start of the array `dst`; the bytes behind them stay. -/
def store (dst src : Bytes) : Bytes := src ++ dst.drop src.length

/-- What `strcpy`, or `sprintf` of the text `src`, stores: its bytes and a terminating NUL. -/
def strcpy (dst src : Bytes) : Bytes := store dst (src ++ [0])

/-- What is stored with a NUL behind it is the string of the array. -/
theorem cstr_store_nul (dst src : Bytes) : cstr (store dst (src ++ [0])) = cstr src := by
  rw [store, List.append_assoc, List.singleton_append, cstr_append_nul]

theorem cstr_strcpy (dst : Bytes) {src : Bytes} (h : NulFree src) :
    cstr (strcpy dst src) = src := by
  rw [strcpy, cstr_store_nul, cstr_of_nulFree h]

/-! ## 2. Blanks and words -/

/-- The blanks of the C locale: space, and the five control characters from tab to return. -/
def isspace (b : Byte) : Bool := b == 32 || (9 ≤ b && b ≤ 13)

/-- A nonempty text without blanks: what one `%s` conversion reads. -/
def IsWord (w : Bytes) : Prop := w ≠ [] ∧ ∀ b ∈ w, isspace b = false

instance (w : Bytes) : Decidable (IsWord w) :=
  inferInstanceAs (Decidable (w ≠ [] ∧ ∀ b ∈ w, isspace b = false))

/-- Whether a text starts in the middle of a word. -/
def startsWord : Bytes → Bool
  | [] => false
  | b :: _ => !isspace b

/-- The maximal runs of non-blanks of a text, in order. -/
def words : Bytes → List Bytes
  | [] => []
  | b :: bs =>
    if isspace b then words bs
    else if startsWord bs then
      match words bs with
      | [] => [[b]]
      | w :: ws => (b :: w) :: ws
    else [b] :: words bs

@[simp] theorem words_nil : words [] = [] := rfl

theorem words_cons_space {b : Byte} (h : isspace b = true) (bs : Bytes) :
    words (b :: bs) = words bs := by
  simp [words, h]

/-- A non-blank before a blank, or at the end, is a word by itself. -/
theorem words_cons_last {b : Byte} (hb : isspace b = false) {bs : Bytes}
    (h : startsWord bs = false) : words (b :: bs) = [b] :: words bs := by
  simp [words, hb, h]

/-- A non-blank before a word extends it. -/
theorem words_cons_inner {b : Byte} (hb : isspace b = false) {bs : Bytes}
    (h : startsWord bs = true) {w : Bytes} {ws : List Bytes} (hw : words bs = w :: ws) :
    words (b :: bs) = (b :: w) :: ws := by
  simp [words, hb, h, hw]

/-- A text that starts in a word has a first word. -/
theorem exists_words_cons {s : Bytes} (h : startsWord s = true) :
    ∃ w ws, words s = w :: ws := by
  induction s with
  | nil => cases h
  | cons b bs ih =>
    have hb : isspace b = false := by simpa [startsWord] using h
    by_cases hs : startsWord bs = true
    · obtain ⟨w, ws, hw⟩ := ih hs
      exact ⟨b :: w, ws, words_cons_inner hb hs hw⟩
    · exact ⟨[b], words bs, words_cons_last hb (by simpa using hs)⟩

/-- A word followed by the end of the text or by a blank is the first word. -/
theorem words_word_append {w : Bytes} (hw : IsWord w) {rest : Bytes}
    (hr : startsWord rest = false) : words (w ++ rest) = w :: words rest := by
  obtain ⟨hne, hns⟩ := hw
  induction w with
  | nil => exact absurd rfl hne
  | cons b w ih =>
    have hb : isspace b = false := hns b List.mem_cons_self
    cases w with
    | nil => exact words_cons_last hb hr
    | cons c w =>
      have hc : isspace c = false := hns c (by simp)
      have ih' : words ((c :: w) ++ rest) = (c :: w) :: words rest :=
        ih (by simp) (fun x hx => hns x (List.mem_cons_of_mem _ hx))
      exact words_cons_inner hb (by simp [startsWord, hc]) ih'

theorem words_word {w : Bytes} (hw : IsWord w) : words w = [w] := by
  have h : words (w ++ []) = w :: words [] := words_word_append hw rfl
  simpa using h

/-- A blank separates: the words of a text with a blank in it are those before and those
behind it. -/
theorem words_append_space {c : Byte} (hc : isspace c = true) (a b : Bytes) :
    words (a ++ c :: b) = words a ++ words b := by
  induction a with
  | nil => simp [words_cons_space hc]
  | cons x a ih =>
    have hstart : startsWord (a ++ c :: b) = startsWord a := by
      cases a <;> simp [startsWord, hc]
    rw [List.cons_append]
    by_cases hx : isspace x = true
    · rw [words_cons_space hx, words_cons_space hx, ih]
    · have hx' : isspace x = false := by simpa using hx
      by_cases hs : startsWord a = true
      · obtain ⟨w, ws, hw⟩ := exists_words_cons hs
        rw [words_cons_inner hx' hs hw, words_cons_inner hx' (hstart.trans hs)
          (by rw [ih, hw, List.cons_append]), List.cons_append]
      · have hs' : startsWord a = false := by simpa using hs
        rw [words_cons_last hx' hs', words_cons_last hx' (hstart.trans hs'), ih,
          List.cons_append]

/-- A word of a text with one byte more in front is a word of the text, or starts with that
byte. -/
theorem mem_words_cons {b : Byte} {s w : Bytes} (h : w ∈ words (b :: s)) :
    w ∈ words s ∨ isspace b = false ∧ (w = [b] ∨ ∃ v ∈ words s, w = b :: v) := by
  by_cases hb : isspace b = true
  · exact .inl (words_cons_space hb s ▸ h)
  · have hb' : isspace b = false := by simpa using hb
    by_cases hs : startsWord s = true
    · obtain ⟨v, vs, hv⟩ := exists_words_cons hs
      rw [words_cons_inner hb' hs hv] at h
      rw [hv]
      rcases List.mem_cons.mp h with rfl | h
      · exact .inr ⟨hb', .inr ⟨v, List.mem_cons_self, rfl⟩⟩
      · exact .inl (List.mem_cons_of_mem _ h)
    · rw [words_cons_last hb' (by simpa using hs)] at h
      rcases List.mem_cons.mp h with rfl | h
      · exact .inr ⟨hb', .inl rfl⟩
      · exact .inl h

/-- Every word of a text is a word. -/
theorem isWord_of_mem_words {s w : Bytes} (h : w ∈ words s) : IsWord w := by
  induction s generalizing w with
  | nil => simp at h
  | cons b bs ih =>
    rcases mem_words_cons h with h | ⟨hb, rfl | ⟨v, hv, rfl⟩⟩
    · exact ih h
    · exact ⟨by simp, by simpa using hb⟩
    · refine ⟨by simp, fun x hx => ?_⟩
      rcases List.mem_cons.mp hx with rfl | hx
      · exact hb
      · exact (ih hv).2 x hx

/-- The bytes of a word are bytes of the text. -/
theorem mem_of_mem_words {s w : Bytes} (h : w ∈ words s) {x : Byte} (hx : x ∈ w) : x ∈ s := by
  induction s generalizing w with
  | nil => simp at h
  | cons b bs ih =>
    rcases mem_words_cons h with h | ⟨-, rfl | ⟨v, hv, rfl⟩⟩
    · exact List.mem_cons_of_mem _ (ih h hx)
    · rw [List.mem_singleton.mp hx]
      exact List.mem_cons_self
    · rcases List.mem_cons.mp hx with rfl | hx
      · exact List.mem_cons_self
      · exact List.mem_cons_of_mem _ (ih hv hx)

/-- A word is not longer than the text. -/
theorem length_le_of_mem_words {s w : Bytes} (h : w ∈ words s) : w.length ≤ s.length := by
  induction s generalizing w with
  | nil => simp at h
  | cons b bs ih =>
    rw [List.length_cons]
    rcases mem_words_cons h with h | ⟨-, rfl | ⟨v, hv, rfl⟩⟩
    · exact Nat.le_succ_of_le (ih h)
    · exact Nat.succ_le_succ (Nat.zero_le _)
    · exact Nat.succ_le_succ (ih hv)

/-- One more byte in front can make the first word longer, and leaves the others alone. -/
theorem words_cons_suffix (b : Byte) {s w : Bytes} (h : w ∈ words s) :
    ∃ v ∈ words (b :: s), w <:+ v := by
  by_cases hb : isspace b = true
  · rw [words_cons_space hb]
    exact ⟨w, h, List.suffix_rfl⟩
  · have hb' : isspace b = false := by simpa using hb
    by_cases hs : startsWord s = true
    · obtain ⟨v, vs, hv⟩ := exists_words_cons hs
      rw [words_cons_inner hb' hs hv]
      rw [hv] at h
      rcases List.mem_cons.mp h with rfl | h
      · exact ⟨b :: w, List.mem_cons_self, List.suffix_cons b w⟩
      · exact ⟨w, List.mem_cons_of_mem _ h, List.suffix_rfl⟩
    · rw [words_cons_last hb' (by simpa using hs)]
      exact ⟨w, List.mem_cons_of_mem _ h, List.suffix_rfl⟩

/-- The words of a tail are tails of words. -/
theorem words_of_suffix {s t w : Bytes} (hst : t <:+ s) (hw : w ∈ words t) :
    ∃ v ∈ words s, w <:+ v := by
  obtain ⟨p, rfl⟩ := hst
  induction p with
  | nil => exact ⟨w, hw, List.suffix_rfl⟩
  | cons b p ih =>
    obtain ⟨u, hu, hwu⟩ := ih
    obtain ⟨v, hv, huv⟩ := words_cons_suffix b hu
    exact ⟨v, hv, hwu.trans huv⟩

/-! ## 3. The `%s` conversion -/

/-- One `%s` conversion: skip blanks, then read up to the next blank.  `none` is an input
failure, the end of the input before any non-blank. -/
def scanWord (s : Bytes) : Option (Bytes × Bytes) :=
  match s.dropWhile isspace with
  | [] => none
  | b :: bs => some ((b :: bs).takeWhile (!isspace ·), (b :: bs).dropWhile (!isspace ·))

theorem words_dropWhile_isspace (s : Bytes) : words (s.dropWhile isspace) = words s := by
  induction s with
  | nil => rfl
  | cons b s ih =>
    by_cases hb : isspace b = true
    · rw [List.dropWhile_cons_of_pos hb, words_cons_space hb, ih]
    · rw [List.dropWhile_cons_of_neg hb]

theorem startsWord_dropWhile (s : Bytes) : startsWord (s.dropWhile (!isspace ·)) = false := by
  cases h : s.dropWhile (!isspace ·) with
  | nil => rfl
  | cons b bs =>
    have := List.head?_dropWhile_not (fun b => !isspace b) s
    simpa [h, startsWord] using this

/-- What is left after a conversion is a tail of the input. -/
theorem scanWord_suffix {s w r : Bytes} (h : scanWord s = some (w, r)) : r <:+ s := by
  unfold scanWord at h
  cases hd : s.dropWhile isspace with
  | nil => simp [hd] at h
  | cons b bs =>
    simp only [hd, Option.some.injEq, Prod.mk.injEq] at h
    rw [← h.2]
    have hsuf : b :: bs <:+ s := hd ▸ List.dropWhile_suffix _
    exact (List.dropWhile_suffix _).trans hsuf

/-- The conversion fails exactly when no word is left. -/
theorem scanWord_eq_none {s : Bytes} : scanWord s = none ↔ words s = [] := by
  rw [← words_dropWhile_isspace, scanWord]
  cases hd : s.dropWhile isspace with
  | nil => simp
  | cons b bs =>
    have hb : isspace b = false := by
      have := List.head?_dropWhile_not isspace s
      simpa [hd] using this
    obtain ⟨w, ws, hw⟩ := exists_words_cons (s := b :: bs) (by simp [startsWord, hb])
    simp [hw]

/-- The conversion reads the first word and leaves the others. -/
theorem words_of_scanWord {s w r : Bytes} (h : scanWord s = some (w, r)) :
    words s = w :: words r := by
  rw [← words_dropWhile_isspace]
  unfold scanWord at h
  cases hd : s.dropWhile isspace with
  | nil => simp [hd] at h
  | cons b bs =>
    simp only [hd, Option.some.injEq, Prod.mk.injEq] at h
    obtain ⟨rfl, rfl⟩ := h
    have hb : isspace b = false := by
      have := List.head?_dropWhile_not isspace s
      simpa [hd] using this
    have hword : IsWord ((b :: bs).takeWhile (!isspace ·)) := by
      refine ⟨by simp [hb], fun x hx => ?_⟩
      simpa using List.mem_takeWhile_imp hx
    conv_lhs => rw [← List.takeWhile_append_dropWhile (p := (!isspace ·)) (l := b :: bs)]
    exact words_word_append hword (startsWord_dropWhile _)

/-- What a conversion stores in its array: the word, or, after an input failure, nothing, so
that the array keeps the C string it had. -/
def converted (old : Bytes) (ws : List Bytes) (i : Nat) : Bytes := (ws[i]?).getD old

/-- What an array holds after a conversion has no NUL. -/
theorem nulFree_converted {old s : Bytes} (h : NulFree old) (hs : NulFree s) (i : Nat) :
    NulFree (converted old (words s) i) := by
  unfold converted
  cases hw : (words s)[i]? with
  | none => exact h
  | some w =>
    intro b hb
    exact hs b (mem_of_mem_words (List.mem_of_getElem? hw) hb)

/-- The call `sscanf(s, "%s %s %s", ..)` into three arrays that hold the given strings before: each
conversion that fails leaves its array, and all behind it, alone. -/
def sscanf3 (s old₀ old₁ old₂ : Bytes) : Bytes × Bytes × Bytes :=
  match scanWord s with
  | none => (old₀, old₁, old₂)
  | some (w₀, r₀) =>
    match scanWord r₀ with
    | none => (w₀, old₁, old₂)
    | some (w₁, r₁) =>
      match scanWord r₁ with
      | none => (w₀, w₁, old₂)
      | some (w₂, _) => (w₀, w₁, w₂)

/-- In terms of the words of the text. -/
theorem sscanf3_eq (s old₀ old₁ old₂ : Bytes) :
    sscanf3 s old₀ old₁ old₂ =
      (converted old₀ (words s) 0, converted old₁ (words s) 1, converted old₂ (words s) 2) := by
  unfold sscanf3
  cases h₀ : scanWord s with
  | none => simp [scanWord_eq_none.mp h₀, converted]
  | some p₀ =>
    obtain ⟨w₀, r₀⟩ := p₀
    simp only [words_of_scanWord h₀]
    cases h₁ : scanWord r₀ with
    | none => simp [scanWord_eq_none.mp h₁, converted]
    | some p₁ =>
      obtain ⟨w₁, r₁⟩ := p₁
      simp only [words_of_scanWord h₁]
      cases h₂ : scanWord r₁ with
      | none => simp [scanWord_eq_none.mp h₂, converted]
      | some p₂ => simp [words_of_scanWord h₂, converted]

/-- The call `sscanf(s, "%s %s", ..)`. -/
def sscanf2 (s old₀ old₁ : Bytes) : Bytes × Bytes :=
  match scanWord s with
  | none => (old₀, old₁)
  | some (w₀, r₀) =>
    match scanWord r₀ with
    | none => (w₀, old₁)
    | some (w₁, _) => (w₀, w₁)

theorem sscanf2_eq (s old₀ old₁ : Bytes) :
    sscanf2 s old₀ old₁ = (converted old₀ (words s) 0, converted old₁ (words s) 1) := by
  unfold sscanf2
  cases h₀ : scanWord s with
  | none => simp [scanWord_eq_none.mp h₀, converted]
  | some p₀ =>
    obtain ⟨w₀, r₀⟩ := p₀
    simp only [words_of_scanWord h₀]
    cases h₁ : scanWord r₀ with
    | none => simp [scanWord_eq_none.mp h₁, converted]
    | some p₁ => simp [words_of_scanWord h₁, converted]

end PosixLab
