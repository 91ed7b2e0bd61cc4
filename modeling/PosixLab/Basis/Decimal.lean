/-
# Printing and reading decimal numbers

`decimal` is the `%d` conversion of printf and `atoi` the function of `<stdlib.h>`, as glibc
computes it: `(int) strtol(s, NULL, 10)`, which skips blanks, takes an optional sign and the
digits that follow, saturates at the bounds of `long` and then keeps the low 32 bits.
`atoi_decimal` is the round trip on the values an `int` can hold.
-/
import PosixLab.Basis.CString
import Mathlib.Data.Nat.Digits.Defs
import Mathlib.Tactic.NormNum

namespace PosixLab

/-! ## 1. Printing -/

/-- The digits of a natural number. -/
def decimalNat (n : Nat) : Bytes := (Nat.toDigits 10 n).map fun c => UInt8.ofNat c.toNat

/-- The `%d` conversion. -/
def decimal : Int → Bytes
  | .ofNat n => decimalNat n
  | .negSucc n => 45 :: decimalNat (n + 1)

/-- Whether a byte is a decimal digit. -/
def isdigit (b : Byte) : Bool := 48 ≤ b && b ≤ 57

/-- Whether a text starts with a digit. -/
def startsDigit : Bytes → Bool
  | [] => false
  | b :: _ => isdigit b

theorem toNat_ofNat_digit {c : Char} (h : c.isDigit = true) :
    (UInt8.ofNat c.toNat).toNat = c.toNat := by
  simp only [Char.isDigit, ge_iff_le, Bool.and_eq_true, decide_eq_true_eq] at h
  have hle : c.toNat ≤ 57 := by
    have := h.2
    simpa [UInt32.le_iff_toNat_le] using this
  simp only [UInt8.toNat_ofNat']
  omega

theorem isdigit_of_mem_decimalNat {n : Nat} {b : Byte} (h : b ∈ decimalNat n) :
    isdigit b = true := by
  simp only [decimalNat, List.mem_map] at h
  obtain ⟨c, hc, rfl⟩ := h
  have hd : c.isDigit = true := Nat.isDigit_of_mem_toDigits (by decide) (by decide) hc
  have hn := toNat_ofNat_digit hd
  simp only [Char.isDigit, ge_iff_le, Bool.and_eq_true, decide_eq_true_eq,
    UInt32.le_iff_toNat_le] at hd
  simp only [isdigit, Bool.and_eq_true, decide_eq_true_eq, UInt8.le_iff_toNat_le, hn]
  exact hd

theorem decimalNat_ne_nil (n : Nat) : decimalNat n ≠ [] := by
  simp [decimalNat, Nat.toDigits_ne_nil]

/-- The bytes of a printed number are digits and the minus sign. -/
theorem mem_decimal {n : Int} {b : Byte} (h : b ∈ decimal n) : b = 45 ∨ isdigit b = true := by
  cases n with
  | ofNat n => exact Or.inr (isdigit_of_mem_decimalNat h)
  | negSucc n =>
    rcases List.mem_cons.mp h with h | h
    · exact Or.inl h
    · exact Or.inr (isdigit_of_mem_decimalNat h)

theorem length_decimalNat_le {n e : Nat} (he : 0 < e) (hn : n < 10 ^ e) :
    (decimalNat n).length ≤ e := by
  rw [decimalNat, List.length_map]
  exact Nat.toDigits_length 10 n e he hn

theorem nulFree_decimal (n : Int) : NulFree (decimal n) := by
  intro b hb
  rcases mem_decimal hb with rfl | hb
  · decide
  · rintro rfl
    cases hb

/-! ## 2. Reading -/

/-- The value of the digits a text starts with, behind the digits read so far. -/
def digitsValue : Nat → Bytes → Nat
  | acc, [] => acc
  | acc, b :: bs => if isdigit b then digitsValue (acc * 10 + (b.toNat - 48)) bs else acc

/-- The number `strtol` reads in base 10, before it is made to fit a `long`. -/
def strtol (s : Bytes) : Int :=
  match s.dropWhile isspace with
  | [] => 0
  | b :: bs =>
    if b = 45 then -(digitsValue 0 bs : Int)
    else if b = 43 then digitsValue 0 bs
    else digitsValue 0 (b :: bs)

/-- Saturate at the bounds of a 64-bit `long`. -/
def clampLong (z : Int) : Int := max (-(2 ^ 63)) (min (2 ^ 63 - 1) z)

/-- The function `atoi`: the low 32 bits, as a signed number. -/
def atoi (s : Bytes) : Int := (clampLong (strtol s)).bmod (2 ^ 32)

/-- The values of a 32-bit `int`. -/
def IsInt (z : Int) : Prop := -(2 ^ 31) ≤ z ∧ z < 2 ^ 31

instance (z : Int) : Decidable (IsInt z) :=
  inferInstanceAs (Decidable (-(2 ^ 31) ≤ z ∧ z < 2 ^ 31))

/-- An `int` prints as a sign and ten digits at most. -/
theorem length_decimal_le {n : Int} (h : IsInt n) : (decimal n).length ≤ 11 := by
  obtain ⟨hlo, hhi⟩ := h
  cases n with
  | ofNat n =>
    have hlt : n < 10 ^ 11 := by
      simp only [Int.ofNat_eq_natCast] at hhi
      omega
    exact length_decimalNat_le (by decide) hlt
  | negSucc n =>
    have hlt : n + 1 < 10 ^ 10 := by omega
    exact Nat.succ_le_succ (length_decimalNat_le (by decide) hlt)

theorem isInt_atoi (s : Bytes) : IsInt (atoi s) := by
  have hlo := Int.le_bmod (x := clampLong (strtol s)) (m := 2 ^ 32) (by decide)
  have hhi := Int.bmod_lt (x := clampLong (strtol s)) (m := 2 ^ 32) (by decide)
  simp only [atoi, IsInt]
  norm_num at hlo hhi ⊢
  exact ⟨hlo, hhi⟩

theorem bmod_clampLong {z : Int} (h : IsInt z) : (clampLong z).bmod (2 ^ 32) = z := by
  obtain ⟨h₁, h₂⟩ := h
  have hc : clampLong z = z := by
    simp only [clampLong]
    omega
  rw [hc, Int.bmod_def]
  norm_num at h₁ h₂ ⊢
  omega

/-- Only what stands before a byte that no number goes on with counts. -/
theorem digitsValue_append {c : Byte} (hc : isdigit c = false) (acc : Nat) (s rest : Bytes) :
    digitsValue acc (s ++ c :: rest) = digitsValue acc s := by
  induction s generalizing acc with
  | nil => simp [digitsValue, hc]
  | cons b s ih =>
    rw [List.cons_append, digitsValue, digitsValue]
    split
    · exact ih _
    · rfl

theorem atoi_append {c : Byte} (hdigit : isdigit c = false) (hspace : isspace c = false)
    (hminus : c ≠ 45) (hplus : c ≠ 43) (s rest : Bytes) : atoi (s ++ c :: rest) = atoi s := by
  have hstrtol : strtol (s ++ c :: rest) = strtol s := by
    induction s with
    | nil => simp [strtol, hspace, hminus, hplus, digitsValue, hdigit]
    | cons b s ih =>
      by_cases hb : isspace b = true
      · simpa [strtol, hb] using ih
      · have hrest := digitsValue_append hdigit 0 s rest
        have hwhole := digitsValue_append hdigit 0 (b :: s) rest
        rw [List.cons_append] at hwhole
        simp [strtol, hb, hrest, hwhole]
  rw [atoi, hstrtol, atoi]

/-! ## 3. The round trip -/

/-- Reading the digits of a number, with any other text behind them, gives the number. -/
theorem digitsValue_digits {cs : List Char} (hcs : ∀ c ∈ cs, c.isDigit = true) (acc : Nat)
    {rest : Bytes} (hr : startsDigit rest = false) :
    digitsValue acc (cs.map (fun c => UInt8.ofNat c.toNat) ++ rest) =
      Nat.ofDigitChars 10 cs acc := by
  induction cs generalizing acc with
  | nil =>
    cases rest with
    | nil => simp [digitsValue]
    | cons b bs =>
      have hb : isdigit b = false := hr
      simp [digitsValue, hb]
  | cons c cs ih =>
    have hc : c.isDigit = true := hcs c List.mem_cons_self
    have hn := toNat_ofNat_digit hc
    have hdig : isdigit (UInt8.ofNat c.toNat) = true := by
      simp only [Char.isDigit, ge_iff_le, Bool.and_eq_true, decide_eq_true_eq,
        UInt32.le_iff_toNat_le] at hc
      simp only [isdigit, Bool.and_eq_true, decide_eq_true_eq, UInt8.le_iff_toNat_le, hn]
      exact hc
    rw [List.map_cons, List.cons_append, digitsValue, if_pos hdig, hn,
      ih (fun x hx => hcs x (List.mem_cons_of_mem _ hx)), Nat.ofDigitChars_cons,
      Nat.mul_comm acc 10]
    rfl

theorem digitsValue_decimalNat (n : Nat) {rest : Bytes} (hr : startsDigit rest = false) :
    digitsValue 0 (decimalNat n ++ rest) = n := by
  rw [decimalNat, digitsValue_digits
    (fun c hc => Nat.isDigit_of_mem_toDigits (by decide) (by decide) hc) 0 hr,
    Nat.ofDigitChars_ten_toDigits]

theorem strtol_decimal (n : Int) {rest : Bytes} (hr : startsDigit rest = false) :
    strtol (decimal n ++ rest) = n := by
  cases n with
  | negSucc n =>
    have h : strtol (45 :: (decimalNat (n + 1) ++ rest)) =
        -(digitsValue 0 (decimalNat (n + 1) ++ rest) : Int) := rfl
    rw [decimal, List.cons_append, h, digitsValue_decimalNat _ hr]
    rfl
  | ofNat n =>
    cases hd : decimalNat n with
    | nil => exact absurd hd (decimalNat_ne_nil n)
    | cons b bs =>
      have hb : isdigit b = true := isdigit_of_mem_decimalNat (n := n) (by rw [hd]; simp)
      have hdig : 48 ≤ b.toNat ∧ b.toNat ≤ 57 := by
        simpa [isdigit, UInt8.le_iff_toNat_le] using hb
      have hval : digitsValue 0 (b :: bs ++ rest) = n := by
        rw [← hd]
        exact digitsValue_decimalNat n hr
      have hsp : isspace b = false := by
        simp only [isspace, Bool.or_eq_false_iff, beq_eq_false_iff_ne, ne_eq,
          Bool.and_eq_false_iff, decide_eq_false_iff_not, UInt8.le_iff_toNat_le]
        refine ⟨fun h => ?_, Or.inr ?_⟩
        · rw [h] at hdig
          exact absurd hdig.1 (by decide)
        · have : (13 : Byte).toNat = 13 := rfl
          omega
      have h45 : b ≠ 45 := fun h => by rw [h] at hdig; exact absurd hdig.1 (by decide)
      have h43 : b ≠ 43 := fun h => by rw [h] at hdig; exact absurd hdig.1 (by decide)
      rw [decimal, hd, List.cons_append, strtol, List.dropWhile_cons_of_neg (by simp [hsp])]
      simp only [h45, h43, if_false]
      rw [List.cons_append] at hval
      rw [hval]
      rfl

/-- The round trip: `atoi` reads back what `%d` prints, whatever non-digit follows. -/
theorem atoi_decimal {n : Int} (hn : IsInt n) {rest : Bytes} (hr : startsDigit rest = false) :
    atoi (decimal n ++ rest) = n := by
  rw [atoi, strtol_decimal n hr, bmod_clampLong hn]

example : atoi (utf8 " 42x") = 42 := by decide

/-- Where a number ends can be seen, so two texts that start with numbers agree piece by piece. -/
theorem decimal_append_inj {m n : Int} {r r' : Bytes} (hr : startsDigit r = false)
    (hr' : startsDigit r' = false) (h : decimal m ++ r = decimal n ++ r') : m = n ∧ r = r' := by
  have hmn : m = n := by rw [← strtol_decimal m hr, h, strtol_decimal n hr']
  rw [hmn] at h
  exact ⟨hmn, List.append_cancel_left h⟩

theorem decimal_inj {m n : Int} (h : decimal m = decimal n) : m = n :=
  (decimal_append_inj (r := []) rfl rfl (congrArg (· ++ []) h)).1

end PosixLab
