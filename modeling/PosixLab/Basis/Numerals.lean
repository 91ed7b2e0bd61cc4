/-
# Decimal numerals and the conversion that reads them

A `Numeral` is an optional minus sign, some digits, and possibly a point and digits behind it.
`scanNumeral` is the `%lf` conversion of the scanf family on such texts: it skips blanks and takes
the longest number that follows.  Exponents, hexadecimal digits and the names of the infinities
need letters and are not read.
-/
import PosixLab.Basis.Decimal

namespace PosixLab

/-- A numeral, by its parts. -/
structure Numeral where
  minus : Bool
  whole : Bytes
  frac : Option Bytes
  whole_ne : whole ≠ []
  whole_digits : ∀ b ∈ whole, isdigit b = true
  frac_digits : ∀ f ∈ frac, f ≠ [] ∧ ∀ b ∈ f, isdigit b = true

/-- What stands before the digits. -/
def Numeral.sign (n : Numeral) : Bytes := if n.minus then [45] else []

/-- What stands behind them. -/
def Numeral.tail (n : Numeral) : Bytes := n.frac.elim [] (46 :: ·)

def Numeral.text (n : Numeral) : Bytes := n.sign ++ (n.whole ++ n.tail)

def IsNumeral (t : Bytes) : Prop := ∃ n : Numeral, n.text = t

/-- A sign, if there is one, and the text behind it. -/
def scanSign : Bytes → Bytes × Bytes
  | [] => ([], [])
  | b :: s => if b = 45 ∨ b = 43 then ([b], s) else ([], b :: s)

/-- A point and digits, if there is a point, and the text behind them. -/
def scanFrac : Bytes → Bytes × Bytes
  | [] => ([], [])
  | b :: s => if b = 46 then (46 :: s.takeWhile isdigit, s.dropWhile isdigit) else ([], b :: s)

/-- The conversion `%lf`: the text of the number, and what is left. -/
def scanNumeral (s : Bytes) : Option (Bytes × Bytes) :=
  let (sign, s) := scanSign (s.dropWhile isspace)
  let whole := s.takeWhile isdigit
  let (frac, rest) := scanFrac (s.dropWhile isdigit)
  if whole = [] ∧ frac.length ≤ 1 then none else some (sign ++ (whole ++ frac), rest)

/-! ## 1. The bytes of a numeral -/

theorem not_isspace_of_isdigit {b : Byte} (h : isdigit b = true) : isspace b = false := by
  simp only [isdigit, Bool.and_eq_true, decide_eq_true_eq, UInt8.le_iff_toNat_le] at h
  simp only [isspace, Bool.or_eq_false_iff, beq_eq_false_iff_ne, ne_eq, Bool.and_eq_false_iff,
    decide_eq_false_iff_not, UInt8.le_iff_toNat_le]
  have h48 : (48 : Byte).toNat = 48 := rfl
  have h13 : (13 : Byte).toNat = 13 := rfl
  refine ⟨?_, .inr (by omega)⟩
  rintro rfl
  exact absurd h.1 (by decide)

theorem ne_of_isdigit {b c : Byte} (h : isdigit b = true) (hc : isdigit c = false) : b ≠ c := by
  rintro rfl
  rw [h] at hc
  cases hc

theorem Numeral.mem_text {n : Numeral} {b : Byte} (h : b ∈ n.text) :
    b = 45 ∨ b = 46 ∨ isdigit b = true := by
  rcases List.mem_append.mp h with h | h
  · rw [Numeral.sign] at h
    split at h
    · exact .inl (List.mem_singleton.mp h)
    · cases h
  · rcases List.mem_append.mp h with h | h
    · exact .inr (.inr (n.whole_digits b h))
    · cases hf : n.frac with
      | none => simp [Numeral.tail, hf] at h
      | some f =>
        rcases List.mem_cons.mp (by simpa [Numeral.tail, hf] using h) with rfl | hb
        · exact .inr (.inl rfl)
        · exact .inr (.inr ((n.frac_digits f hf).2 b hb))

theorem Numeral.not_isspace_of_mem {n : Numeral} {b : Byte} (h : b ∈ n.text) :
    isspace b = false := by
  rcases n.mem_text h with rfl | rfl | h
  · rfl
  · rfl
  · exact not_isspace_of_isdigit h

theorem Numeral.text_ne_nil (n : Numeral) : n.text ≠ [] := by
  simp [Numeral.text, n.whole_ne]

/-- Digits are a numeral. -/
def Numeral.ofDigits (ds : Bytes) (hne : ds ≠ []) (hds : ∀ b ∈ ds, isdigit b = true) : Numeral :=
  ⟨false, ds, none, hne, hds, fun f hf => by cases hf⟩

@[simp] theorem Numeral.text_ofDigits (ds : Bytes) (hne : ds ≠ [])
    (hds : ∀ b ∈ ds, isdigit b = true) : (Numeral.ofDigits ds hne hds).text = ds :=
  List.append_nil ds

/-- A numeral with one more digit is a numeral. -/
theorem IsNumeral.concat {t : Bytes} (h : IsNumeral t) {d : Byte} (hd : isdigit d = true) :
    IsNumeral (t ++ [d]) := by
  have hdigits : ∀ {ds : Bytes}, (∀ b ∈ ds, isdigit b = true) →
      ∀ b ∈ ds ++ [d], isdigit b = true := by
    intro ds hds b hb
    rcases List.mem_append.mp hb with hb | hb
    · exact hds b hb
    · rwa [List.mem_singleton.mp hb]
  obtain ⟨⟨minus, whole, frac, hne, hwhole, hfrac⟩, rfl⟩ := h
  cases frac with
  | none =>
    refine ⟨⟨minus, whole ++ [d], none, by simp, hdigits hwhole, fun f hf => by cases hf⟩, ?_⟩
    simp [Numeral.text, Numeral.sign, Numeral.tail]
  | some f =>
    refine ⟨⟨minus, whole, some (f ++ [d]), hne, hwhole, fun g hg => ?_⟩, ?_⟩
    · obtain rfl : f ++ [d] = g := by simpa using hg
      exact ⟨by simp, hdigits (hfrac f rfl).2⟩
    · simp [Numeral.text, Numeral.sign, Numeral.tail]

theorem isNumeral_decimal (n : Int) : IsNumeral (decimal n) := by
  cases n with
  | ofNat n =>
    exact ⟨.ofDigits (decimalNat n) (decimalNat_ne_nil n) fun b hb => isdigit_of_mem_decimalNat hb,
      Numeral.text_ofDigits ..⟩
  | negSucc n =>
    exact ⟨⟨true, decimalNat (n + 1), none, decimalNat_ne_nil _,
      fun b hb => isdigit_of_mem_decimalNat hb, fun f hf => by cases hf⟩,
      by simp [Numeral.text, Numeral.sign, Numeral.tail, decimal]⟩

/-! ## 2. Reading a numeral -/

/-- The text goes on with neither a digit nor a point. -/
def EndsNumeral (rest : Bytes) : Prop := ∀ b ∈ rest.head?, isdigit b = false ∧ b ≠ 46

theorem takeWhile_digits {ds rest : Bytes} (hds : ∀ b ∈ ds, isdigit b = true)
    (hrest : ∀ b ∈ rest.head?, isdigit b = false) :
    (ds ++ rest).takeWhile isdigit = ds ∧ (ds ++ rest).dropWhile isdigit = rest := by
  rw [List.takeWhile_append_of_pos hds, List.dropWhile_append_of_pos hds]
  cases rest with
  | nil => simp
  | cons b rest => simp [hrest b rfl]

theorem scanSign_text (n : Numeral) (rest : Bytes) :
    scanSign (n.text ++ rest) = (n.sign, n.whole ++ (n.tail ++ rest)) := by
  obtain ⟨b, ds, hwhole⟩ := List.exists_cons_of_ne_nil n.whole_ne
  have hb : isdigit b = true := n.whole_digits b (by simp [hwhole])
  have hno : ¬(b = 45 ∨ b = 43) := by
    rintro (h | h)
    · exact ne_of_isdigit hb rfl h
    · exact ne_of_isdigit hb rfl h
  rw [Numeral.text, Numeral.sign]
  split
  · simp [scanSign]
  · simp [scanSign, hwhole, hno]

theorem scanFrac_tail (n : Numeral) {rest : Bytes} (hrest : EndsNumeral rest) :
    scanFrac (n.tail ++ rest) = (n.tail, rest) := by
  cases hf : n.frac with
  | none =>
    cases rest with
    | nil => simp [Numeral.tail, hf, scanFrac]
    | cons b rest => simp [Numeral.tail, hf, scanFrac, (hrest b rfl).2]
  | some f =>
    obtain ⟨htake, hdrop⟩ := takeWhile_digits (n.frac_digits f hf).2 fun b hb => (hrest b hb).1
    simp [Numeral.tail, hf, scanFrac, htake, hdrop]

theorem dropWhile_isspace_text (n : Numeral) (rest : Bytes) :
    (n.text ++ rest).dropWhile isspace = n.text ++ rest := by
  obtain ⟨b, t, ht⟩ := List.exists_cons_of_ne_nil n.text_ne_nil
  have hb : isspace b = false := n.not_isspace_of_mem (by simp [ht])
  simp [ht, hb]

/-- A numeral is read whole, and nothing of what comes behind it. -/
theorem scanNumeral_text (n : Numeral) {rest : Bytes} (hrest : EndsNumeral rest) :
    scanNumeral (n.text ++ rest) = some (n.text, rest) := by
  have hpoint : ∀ b ∈ (n.tail ++ rest).head?, isdigit b = false := by
    intro b hb
    cases hf : n.frac with
    | none => exact (hrest b (by simpa [Numeral.tail, hf] using hb)).1
    | some f =>
      obtain rfl : 46 = b := by simpa [Numeral.tail, hf] using hb
      rfl
  obtain ⟨htake, hdrop⟩ := takeWhile_digits n.whole_digits hpoint
  simp only [scanNumeral, dropWhile_isspace_text, scanSign_text, htake, hdrop,
    scanFrac_tail n hrest, n.whole_ne, false_and, if_false]
  rfl

/-- Blanks before a number do not matter. -/
theorem scanNumeral_space (s : Bytes) : scanNumeral (32 :: s) = scanNumeral s := rfl

end PosixLab
