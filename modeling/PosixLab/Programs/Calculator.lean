/-
# The calculator

The state of `my_calc_gtk.c` is the text of its display and the flag `has_operator`.  The handlers
of the buttons edit the text, and `on_equals_clicked` reads it with `sscanf`.  What that handler
computes is floating point, so the text of its result is a parameter, `resultText`: the text that
is printed for two operands and the operator between them.

The flag tells at any time which of two forms the display has (`Consistent`), so `=` computes a
result exactly when there is a second operand (`display_consistent`).
-/
import PosixLab.Basis.Numerals

namespace PosixLab.Programs

open PosixLab

/-! ## 1. The handlers -/

/-- The operator buttons. -/
inductive Operator
  | add
  | sub
  | mul
  | div
deriving DecidableEq

/-- The label of an operator button. -/
def Operator.byte : Operator → Byte
  | .add => 43
  | .sub => 45
  | .mul => 42
  | .div => 47

/-- The label of a digit button. -/
def digitByte (d : Fin 10) : Byte := UInt8.ofNat (48 + d)

inductive Click
  | number (d : Fin 10)
  | operator (op : Operator)
  | clear
  | equals
deriving DecidableEq

/-- The text of the entry, and the flag. -/
structure Calc where
  display : Bytes
  hasOperator : Int
deriving DecidableEq

def Calc.init : Calc := ⟨utf8 "0", 0⟩

/-- The size of `new_text` and of `result_str`. -/
def textSize : Nat := 100

/-- A text that is printed into an array, unless it goes past the end. -/
def sprintf (text : Bytes) : Option Bytes := if text.length < textSize then some text else none

def onNumberClicked (num : Bytes) (s : Calc) : Option Calc :=
  if s.display = utf8 "0" then some { s with display := num }
  else (sprintf (s.display ++ num)).map fun text => { s with display := text }

def onOperatorClicked (op : Byte) (s : Calc) : Option Calc :=
  if s.hasOperator ≠ 0 then some s
  else (sprintf (s.display ++ [32, op, 32])).map fun text => ⟨text, 1⟩

def onClearClicked (_ : Calc) : Option Calc := some ⟨utf8 "0", 0⟩

/-- The call `sscanf(text, "%lf %c %lf", &n1, &op, &n2)`, when it converts all three. -/
def scanOperands (text : Bytes) : Option (Bytes × Byte × Bytes) :=
  (scanNumeral text).bind fun (n1, s) =>
    match s.dropWhile isspace with
    | [] => none
    | op :: s => (scanNumeral s).map fun (n2, _) => (n1, op, n2)

def onEqualsClicked (resultText : Bytes → Byte → Bytes → Bytes) (s : Calc) : Option Calc :=
  match scanOperands s.display with
  | none => some s
  | some (n1, op, n2) => (sprintf (resultText n1 op n2)).map fun text => ⟨text, 0⟩

/-- A click; `none` where a text goes past the end of its array. -/
def click (resultText : Bytes → Byte → Bytes → Bytes) (s : Calc) : Click → Option Calc
  | .number d => onNumberClicked [digitByte d] s
  | .operator op => onOperatorClicked op.byte s
  | .clear => onClearClicked s
  | .equals => onEqualsClicked resultText s

/-- One click after the other. -/
def clicks (resultText : Bytes → Byte → Bytes → Bytes) : Calc → List Click → Option Calc
  | s, [] => some s
  | s, c :: cs => (click resultText s c).bind fun s' => clicks resultText s' cs

/-! ## 2. What the display shows -/

/-- A numeral, an operator between spaces, and the digits of the second operand so far. -/
def IsUnfinished (t ds : Bytes) : Prop :=
  ∃ (n : Numeral) (op : Operator),
    t = n.text ++ [32, op.byte, 32] ++ ds ∧ ∀ b ∈ ds, isdigit b = true

/-- The flag agrees with the display. -/
def Consistent (s : Calc) : Prop :=
  (IsNumeral s.display ∧ s.hasOperator = 0) ∨
    ((∃ ds, IsUnfinished s.display ds) ∧ s.hasOperator = 1)

theorem isdigit_digitByte (d : Fin 10) : isdigit (digitByte d) = true := by
  revert d
  decide

theorem isNumeral_digit (d : Fin 10) : IsNumeral [digitByte d] :=
  ⟨.ofDigits [digitByte d] (by simp) fun b hb => by
    rw [List.mem_singleton.mp hb]
    exact isdigit_digitByte d, Numeral.text_ofDigits ..⟩

theorem isNumeral_zero : IsNumeral (utf8 "0") := isNumeral_digit 0

theorem sprintf_eq_some {text t : Bytes} (h : sprintf text = some t) : t = text := by
  unfold sprintf at h
  split at h
  · exact (Option.some.inj h).symm
  · cases h

/-- A numeral has no space in it, and an unfinished text has one. -/
theorem IsUnfinished.not_isNumeral {t ds : Bytes} (h : IsUnfinished t ds) : ¬IsNumeral t := by
  obtain ⟨n, op, rfl, -⟩ := h
  rintro ⟨m, hm⟩
  have hspace : (32 : Byte) ∈ m.text := by
    rw [hm]
    simp
  exact absurd (m.not_isspace_of_mem hspace) (by decide)

/-- The digits are the ones of the text. -/
theorem IsUnfinished.unique {t ds ds' : Bytes} (h : IsUnfinished t ds) (h' : IsUnfinished t ds') :
    ds = ds' := by
  obtain ⟨n, op, rfl, -⟩ := h
  obtain ⟨m, op', heq, -⟩ := h'
  have hsplit : ∀ (n : Numeral) (op : Operator) (ds : Bytes),
      (n.text ++ [32, op.byte, 32] ++ ds).dropWhile (!isspace ·) = 32 :: op.byte :: 32 :: ds := by
    intro n op ds
    rw [List.append_assoc,
      List.dropWhile_append_of_pos fun b hb => by simp [n.not_isspace_of_mem hb]]
    rfl
  have hrest := congrArg (List.dropWhile (!isspace ·)) heq
  rw [hsplit, hsplit] at hrest
  simp only [List.cons.injEq, true_and] at hrest
  exact hrest.2

/-! ## 3. What `=` reads -/

theorem not_isspace_byte (op : Operator) : isspace op.byte = false := by
  cases op <;> rfl

/-- A numeral alone is not enough. -/
theorem scanOperands_numeral {t : Bytes} (h : IsNumeral t) : scanOperands t = none := by
  obtain ⟨n, rfl⟩ := h
  have hread : scanNumeral (n.text ++ []) = some (n.text, []) :=
    scanNumeral_text n fun b hb => by cases hb
  rw [List.append_nil] at hread
  rw [scanOperands, hread]
  rfl

/-- Behind an operator the digits are the second operand, if there are any. -/
theorem scanOperands_unfinished (n : Numeral) (op : Operator) {ds : Bytes}
    (hds : ∀ b ∈ ds, isdigit b = true) :
    scanOperands (n.text ++ [32, op.byte, 32] ++ ds) =
      if ds = [] then none else some (n.text, op.byte, ds) := by
  have hfirst : scanNumeral (n.text ++ (32 :: op.byte :: 32 :: ds)) =
      some (n.text, 32 :: op.byte :: 32 :: ds) := by
    refine scanNumeral_text n fun b hb => ?_
    obtain rfl : 32 = b := by simpa using hb
    decide
  have hop : (32 :: op.byte :: 32 :: ds).dropWhile isspace = op.byte :: 32 :: ds := by
    rw [List.dropWhile_cons_of_pos (by decide),
      List.dropWhile_cons_of_neg (by simp [not_isspace_byte])]
  have hsecond : scanNumeral (32 :: ds) = if ds = [] then none else some (ds, []) := by
    rw [scanNumeral_space]
    split
    · rename_i hnil
      rw [hnil]
      rfl
    · rename_i hne
      let m := Numeral.ofDigits ds hne hds
      have hread : scanNumeral (m.text ++ []) = some (m.text, []) :=
        scanNumeral_text m fun b hb => by cases hb
      simpa [m] using hread
  rw [List.append_assoc]
  simp only [List.cons_append, List.nil_append, scanOperands, hfirst, Option.bind_some, hop,
    hsecond]
  split <;> rfl

/-! ## 4. What the clicks keep -/

section

variable {resultText : Bytes → Byte → Bytes → Bytes} {s s' : Calc}

theorem Consistent.number (h : Consistent s) {d : Fin 10}
    (hs : onNumberClicked [digitByte d] s = some s') : Consistent s' := by
  unfold onNumberClicked at hs
  rcases h with ⟨hnum, hflag⟩ | ⟨⟨ds, hun⟩, hflag⟩
  · split at hs
    · cases hs
      exact .inl ⟨isNumeral_digit d, hflag⟩
    · obtain ⟨text, htext, rfl⟩ := Option.map_eq_some_iff.mp hs
      rw [sprintf_eq_some htext]
      exact .inl ⟨hnum.concat (isdigit_digitByte d), hflag⟩
  · have hzero : s.display ≠ utf8 "0" := fun hz => hun.not_isNumeral (hz ▸ isNumeral_zero)
    rw [if_neg hzero] at hs
    obtain ⟨text, htext, rfl⟩ := Option.map_eq_some_iff.mp hs
    rw [sprintf_eq_some htext]
    obtain ⟨n, op, hdisplay, hds⟩ := hun
    refine .inr ⟨⟨ds ++ [digitByte d], n, op, by simp [hdisplay], fun b hb => ?_⟩, hflag⟩
    rcases List.mem_append.mp hb with hb | hb
    · exact hds b hb
    · rw [List.mem_singleton.mp hb]
      exact isdigit_digitByte d

theorem Consistent.operator (h : Consistent s) {op : Operator}
    (hs : onOperatorClicked op.byte s = some s') : Consistent s' := by
  unfold onOperatorClicked at hs
  split at hs
  · cases hs
    exact h
  · rename_i hflag
    rcases h with ⟨⟨n, hn⟩, -⟩ | ⟨-, hone⟩
    · obtain ⟨text, htext, rfl⟩ := Option.map_eq_some_iff.mp hs
      rw [sprintf_eq_some htext]
      exact .inr ⟨⟨[], n, op, by simp [hn], fun b hb => by cases hb⟩, rfl⟩
    · simp [hone] at hflag

/-- With a second operand `=` shows the result, and else it does nothing. -/
theorem Consistent.equals
    (hresult : ∀ (n m : Numeral) (op : Operator), IsNumeral (resultText n.text op.byte m.text))
    (h : Consistent s) (hs : onEqualsClicked resultText s = some s') :
    ((∃ ds, IsUnfinished s.display ds ∧ ds ≠ []) ∧ IsNumeral s'.display ∧ s'.hasOperator = 0) ∨
      ((∀ ds, IsUnfinished s.display ds → ds = []) ∧ s' = s) := by
  unfold onEqualsClicked at hs
  rcases h with ⟨hnum, -⟩ | ⟨⟨ds, hun⟩, -⟩
  · rw [scanOperands_numeral hnum] at hs
    cases hs
    exact .inr ⟨fun ds hun => absurd hnum hun.not_isNumeral, rfl⟩
  · obtain ⟨n, op, hdisplay, hds⟩ := id hun
    rw [hdisplay, scanOperands_unfinished n op hds] at hs
    by_cases hnil : ds = []
    · rw [if_pos hnil] at hs
      cases hs
      exact .inr ⟨fun ds' hun' => (hun'.unique hun).trans hnil, rfl⟩
    · rw [if_neg hnil] at hs
      obtain ⟨text, htext, rfl⟩ := Option.map_eq_some_iff.mp hs
      rw [sprintf_eq_some htext]
      have hres := hresult n (.ofDigits ds hnil hds) op
      rw [Numeral.text_ofDigits] at hres
      exact .inl ⟨⟨ds, hun, hnil⟩, hres, rfl⟩

theorem Consistent.click
    (hresult : ∀ (n m : Numeral) (op : Operator), IsNumeral (resultText n.text op.byte m.text))
    (h : Consistent s) {c : Click} (hs : click resultText s c = some s') : Consistent s' := by
  cases c with
  | number d => exact h.number hs
  | operator op => exact h.operator hs
  | clear =>
    cases hs
    exact .inl ⟨isNumeral_zero, rfl⟩
  | equals =>
    rcases h.equals hresult hs with ⟨-, hnum, hflag⟩ | ⟨-, rfl⟩
    · exact .inl ⟨hnum, hflag⟩
    · exact h

theorem Consistent.clicks
    (hresult : ∀ (n m : Numeral) (op : Operator), IsNumeral (resultText n.text op.byte m.text))
    {cs : List Click} (h : Consistent s) (hs : clicks resultText s cs = some s') :
    Consistent s' := by
  induction cs generalizing s with
  | nil =>
    cases hs
    exact h
  | cons c cs ih =>
    obtain ⟨s₁, hs₁, hrest⟩ := Option.bind_eq_some_iff.mp hs
    exact ih (h.click hresult hs₁) hrest

/-- For every sequence of clicks during which no text goes past the end of its array, if the text
of a result is a numeral: the display is a numeral and `has_operator` is 0, or it is a numeral, an
operator between spaces and some digits, and `has_operator` is 1; and `=` changes the display
exactly if there are such digits. -/
theorem display_consistent
    (hresult : ∀ (n m : Numeral) (op : Operator), IsNumeral (resultText n.text op.byte m.text))
    {cs : List Click} (hs : Programs.clicks resultText .init cs = some s) :
    Consistent s ∧ ∀ s', Programs.click resultText s .equals = some s' →
      (s'.display ≠ s.display ↔ ∃ ds, IsUnfinished s.display ds ∧ ds ≠ []) := by
  have hinit : Consistent .init := .inl ⟨isNumeral_zero, rfl⟩
  have hc : Consistent s := hinit.clicks hresult hs
  refine ⟨hc, fun s' hs' => ?_⟩
  rcases hc.equals hresult hs' with ⟨⟨ds, hun, hne⟩, hnum, -⟩ | ⟨hnil, rfl⟩
  · refine iff_of_true (fun heq => ?_) ⟨ds, hun, hne⟩
    exact hun.not_isNumeral (heq ▸ hnum)
  · refine iff_of_false (fun hne => hne rfl) ?_
    rintro ⟨ds, hun, hne⟩
    exact hne (hnil ds hun)

end

/-- What is printed for two small integers, but for quotients. -/
def integerText (n₁ : Bytes) (op : Byte) (n₂ : Bytes) : Bytes :=
  decimal (if op = 43 then atoi n₁ + atoi n₂ else if op = 45 then atoi n₁ - atoi n₂
    else if op = 42 then atoi n₁ * atoi n₂ else 0)

/-- The clicks `1 2 - 3 0 =`, and then `+ 7`. -/
theorem display_consistent_sum : ∃ s, clicks integerText .init
      [.number 1, .number 2, .operator .sub, .number 3, .number 0, .equals, .operator .add,
        .number 7] = some s ∧
    s = ⟨utf8 "-18 + 7", 1⟩ ∧ Consistent s ∧
    ∀ s', click integerText s .equals = some s' →
      (s'.display ≠ s.display ↔ ∃ ds, IsUnfinished s.display ds ∧ ds ≠ []) := by
  have hrun : clicks integerText .init
      [.number 1, .number 2, .operator .sub, .number 3, .number 0, .equals, .operator .add,
        .number 7] = some ⟨utf8 "-18 + 7", 1⟩ := by decide
  exact ⟨_, hrun, rfl, display_consistent (fun n m op => isNumeral_decimal _) hrun⟩

end PosixLab.Programs
