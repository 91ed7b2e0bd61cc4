/-
# The redirection scan over the array of pointers

`scanLoop` of `Line` goes through the words as a list.  The loop of `main` goes through
`temp_args`, an array of pointers whose elements behind the final `NULL` are what earlier lines
left there, and advances its index in three places.  This module has the loop as the source
writes it, with every index it reads, and says when it finds what the words ask for: when the
last word is not an operator (`scanned_iff`).

Which words are operators is a matter of their places: `<` and `>` are, unless the word before
is one and takes them as its operand (`isOperatorAt`).
-/
import PosixLab.Shell.Line

namespace PosixLab.Shell

/-! ## 1. The loop -/

/-- The array as `parse_args` leaves it: the words, the final `NULL`, and behind it what it
held before. -/
def tempArgs (ws : List Bytes) (stale : Nat → Option Bytes) (k : Nat) : Option Bytes :=
  if k ≤ ws.length then ws[k]? else stale k

/-- The variables of the scan, and the indices at which it has read `temp_args`. -/
structure ScanState where
  i : Nat
  argIdx : Nat
  args : Nat → Option Bytes
  infile : Option Bytes
  outfile : Option Bytes
  reads : List Nat

/-- The variables before the loop; `args` still has the pointers of the line before. -/
def ScanState.start (args : Nat → Option Bytes) : ScanState := ⟨0, 0, args, none, none, []⟩

/-- A test of the loop that finds the word `w` at `temp_args[i]`, and the body. -/
def scanRound (temp : Nat → Option Bytes) (s : ScanState) (w : Bytes) : ScanState :=
  if w = utf8 "<" then
    { s with
      i := s.i + 1 + 1
      infile := (temp (s.i + 1)).or s.infile
      reads := s.reads ++ [s.i, s.i + 1] }
  else if w = utf8 ">" then
    { s with
      i := s.i + 1 + 1
      outfile := (temp (s.i + 1)).or s.outfile
      reads := s.reads ++ [s.i, s.i + 1] }
  else
    { s with
      i := s.i + 1
      argIdx := s.argIdx + 1
      args := Function.update s.args s.argIdx (some w)
      reads := s.reads ++ [s.i] }

/-- The loop, for up to `fuel` tests of its condition, and the final `NULL` of `args`. -/
def scanRounds (temp : Nat → Option Bytes) : Nat → ScanState → Option ScanState
  | 0, _ => none
  | fuel + 1, s =>
    match temp s.i with
    | none =>
      some { s with args := Function.update s.args s.argIdx none, reads := s.reads ++ [s.i] }
    | some w => scanRounds temp fuel (scanRound temp s w)

/-! ## 2. Operators and operands, place by place -/

/-- The word at index `i` is `<` or `>`. -/
def opAt (ws : List Bytes) (i : Nat) : Bool := ws[i]?.any isOp

/-- The word at index `i` is `<` or `>`, and not the operand of the word before it. -/
def isOperatorAt (ws : List Bytes) : Nat → Bool
  | 0 => opAt ws 0
  | i + 1 => opAt ws (i + 1) && !isOperatorAt ws i

/-- Index `i` is that of an operator or follows one. -/
def dropped (op : Nat → Bool) : Nat → Bool
  | 0 => op 0
  | i + 1 => op (i + 1) || op i

/-- The words without the operators and the word following each. -/
def kept (op : Nat → Bool) (ws : List Bytes) : List Bytes :=
  (List.range ws.length).filterMap fun i => if dropped op i then none else ws[i]?

/-- The word after the last operator `o` that has one. -/
def lastOperand (op : Nat → Bool) (o : Bytes) (ws : List Bytes) : Option Bytes :=
  ((List.range ws.length).filterMap fun i =>
    if op i && ws[i]? = some o then ws[i + 1]? else none).getLast?

section

variable {w f : Bytes} {ws : List Bytes} {op : Nat → Bool}

theorem isOperatorAt_word (hw : isOp w = false) (i : Nat) :
    isOperatorAt (w :: ws) (i + 1) = isOperatorAt ws i := by
  induction i with
  | zero => simp [isOperatorAt, opAt, hw]
  | succ i ih =>
    rw [isOperatorAt, ih, isOperatorAt]
    simp [opAt]

theorem isOperatorAt_op (hw : isOp w = true) (i : Nat) :
    isOperatorAt (w :: f :: ws) (i + 2) = isOperatorAt ws i := by
  induction i with
  | zero => simp [isOperatorAt, opAt, hw]
  | succ i ih =>
    rw [isOperatorAt, ih, isOperatorAt]
    simp [opAt]

/-- Where no two operators stand side by side, each of them is one. -/
theorem isOperatorAt_eq_opAt (h : ∀ i, opAt ws i = true → opAt ws (i + 1) = false) (i : Nat) :
    isOperatorAt ws i = opAt ws i := by
  induction i with
  | zero => rfl
  | succ i ih =>
    rw [isOperatorAt, ih]
    cases hi : opAt ws i with
    | false => simp
    | true => simp [h i hi]

theorem dropped_word (h₀ : op 0 = false) (i : Nat) :
    dropped op (i + 1) = dropped (fun i => op (i + 1)) i := by
  cases i <;> simp [dropped, h₀]

theorem dropped_op (h₁ : op 1 = false) (i : Nat) :
    dropped op (i + 2) = dropped (fun i => op (i + 2)) i := by
  cases i <;> simp [dropped, h₁]

theorem kept_word (h₀ : op 0 = false) :
    kept op (w :: ws) = w :: kept (fun i => op (i + 1)) ws := by
  have hfirst : dropped op 0 = false := h₀
  rw [kept, List.length_cons, List.range_succ_eq_map, List.filterMap_cons, List.filterMap_map]
  simp [kept, hfirst, dropped_word h₀]

theorem kept_op (h₀ : op 0 = true) (h₁ : op 1 = false) :
    kept op (w :: f :: ws) = kept (fun i => op (i + 2)) ws := by
  have hfirst : dropped op 0 = true := h₀
  have hsecond : dropped op 1 = true := by simp [dropped, h₀]
  rw [kept, List.length_cons, List.length_cons, List.range_succ_eq_map, List.range_succ_eq_map]
  simp [kept, hfirst, hsecond, dropped_op h₁, Function.comp_def, List.filterMap_map]

theorem lastOperand_cons (o : Bytes) :
    lastOperand op o (w :: ws) =
      (lastOperand (fun i => op (i + 1)) o ws).or (if op 0 && w = o then ws[0]? else none) := by
  rw [lastOperand, List.length_cons, List.range_succ_eq_map, List.filterMap_cons,
    List.filterMap_map]
  split
  · rename_i h
    have hfirst : (if op 0 && w = o then ws[0]? else none) = none := by simpa using h
    rw [hfirst]
    simp [lastOperand]
  · rename_i f h
    have hfirst : (if op 0 && w = o then ws[0]? else none) = some f := by simpa using h
    rw [hfirst, List.getLast?_cons]
    simp [lastOperand]

/-- The places behind a word are those of the rest. -/
theorem places_word (hw : isOp w = false) (ws : List Bytes) :
    isOperatorAt (w :: ws) ws.length = isOperatorAt ws (ws.length - 1) ∧
      kept (isOperatorAt (w :: ws)) (w :: ws) = w :: kept (isOperatorAt ws) ws ∧
      ∀ o, lastOperand (isOperatorAt (w :: ws)) o (w :: ws) =
        lastOperand (isOperatorAt ws) o ws := by
  have hzero : isOperatorAt (w :: ws) 0 = false := by simp [isOperatorAt, opAt, hw]
  have hshift : (fun i => isOperatorAt (w :: ws) (i + 1)) = isOperatorAt ws :=
    funext fun i => isOperatorAt_word hw i
  refine ⟨?_, ?_, fun o => ?_⟩
  · cases ws with
    | nil => exact hzero
    | cons v ws => exact isOperatorAt_word hw _
  · rw [kept_word hzero, hshift]
  · rw [lastOperand_cons, hshift, hzero]
    simp

/-- The places behind an operator and its operand are those of the rest. -/
theorem places_op (hw : isOp w = true) (f : Bytes) (ws : List Bytes) :
    isOperatorAt (w :: f :: ws) (ws.length + 1) = isOperatorAt ws (ws.length - 1) ∧
      kept (isOperatorAt (w :: f :: ws)) (w :: f :: ws) = kept (isOperatorAt ws) ws ∧
      ∀ o, lastOperand (isOperatorAt (w :: f :: ws)) o (w :: f :: ws) =
        (lastOperand (isOperatorAt ws) o ws).or (if w = o then some f else none) := by
  have hzero : isOperatorAt (w :: f :: ws) 0 = true := by simp [isOperatorAt, opAt, hw]
  have hone : isOperatorAt (w :: f :: ws) 1 = false := by simp [isOperatorAt, opAt, hw]
  have hshift : (fun i => isOperatorAt (w :: f :: ws) (i + 1 + 1)) = isOperatorAt ws :=
    funext fun i => isOperatorAt_op hw i
  refine ⟨?_, ?_, fun o => ?_⟩
  · cases ws with
    | nil => exact hone
    | cons v ws => exact isOperatorAt_op hw _
  · rw [kept_op hzero hone, hshift]
  · rw [lastOperand_cons, lastOperand_cons, hshift, hzero, hone]
    simp

theorem isOp_in : isOp (utf8 "<") = true := by decide

theorem isOp_out : isOp (utf8 ">") = true := by decide

/-- Read from the left, the words say the same as their places. -/
theorem scanLoop_eq (c : Command) (ws : List Bytes) :
    scanLoop c ws =
      if isOperatorAt ws (ws.length - 1) then none
      else some
        { args := c.args ++ kept (isOperatorAt ws) ws
          infile := (lastOperand (isOperatorAt ws) (utf8 "<") ws).or c.infile
          outfile := (lastOperand (isOperatorAt ws) (utf8 ">") ws).or c.outfile } := by
  have hne : utf8 "<" ≠ utf8 ">" := by decide
  fun_induction scanLoop c ws with
  | case1 c => simp [isOperatorAt, opAt, kept, lastOperand]
  | case2 c | case4 c => simp [isOperatorAt, opAt, isOp_in, isOp_out]
  | case3 c f ws ih =>
    obtain ⟨hlast, hkept, hoperand⟩ := places_op isOp_in f ws
    rw [ih, List.length_cons, List.length_cons, Nat.add_sub_cancel, hlast, hkept, hoperand,
      hoperand]
    simp [hne]
  | case5 c f ws hne' ih =>
    obtain ⟨hlast, hkept, hoperand⟩ := places_op isOp_out f ws
    rw [ih, List.length_cons, List.length_cons, Nat.add_sub_cancel, hlast, hkept, hoperand,
      hoperand]
    simp [hne']
  | case6 c w ws h₁ h₂ ih =>
    obtain ⟨hlast, hkept, hoperand⟩ := places_word (not_isOp h₁ h₂) ws
    rw [ih, List.length_cons, Nat.add_sub_cancel, hlast, hkept, hoperand, hoperand]
    simp

end

/-! ## 3. What the loop does -/

/-- The array holds the words and a final `NULL`. -/
def Holds (array : Nat → Option Bytes) (ws : List Bytes) : Prop := ∀ k ≤ ws.length, array k = ws[k]?

theorem holds_unique {array : Nat → Option Bytes} {ws ws' : List Bytes} (h : Holds array ws)
    (h' : Holds array ws') : ws = ws' := by
  -- the `NULL` of one is behind the words of the other
  have hle : ∀ {us vs : List Bytes}, Holds array us → Holds array vs → vs.length ≤ us.length := by
    intro us vs hu hv
    by_contra hlt
    have hnull := hu us.length (Nat.le_refl _)
    rw [hv us.length (Nat.le_of_not_le hlt), List.getElem?_eq_none (Nat.le_refl _),
      List.getElem?_eq_none_iff] at hnull
    exact hlt hnull
  have hlen : ws.length = ws'.length := Nat.le_antisymm (hle h' h) (hle h h')
  refine List.ext_getElem? fun k => ?_
  rcases Nat.lt_or_ge ws.length k with hk | hk
  · rw [List.getElem?_eq_none (Nat.le_of_lt hk), List.getElem?_eq_none (hlen ▸ Nat.le_of_lt hk)]
  · rw [← h k hk, h' k (hlen ▸ hk)]

/-- The loop has filled its variables with the parts of `c`. -/
structure ScanState.Filled (s : ScanState) (c : Command) : Prop where
  argIdx : s.argIdx = c.args.length
  args : ∀ k < c.args.length, s.args k = c.args[k]?
  infile : s.infile = c.infile
  outfile : s.outfile = c.outfile

section

variable {temp : Nat → Option Bytes} {s s' : ScanState} {c c' : Command} {ws : List Bytes}

/-- An operator takes the loop two elements on, and both are read. -/
theorem scanRound_op (temp : Nat → Option Bytes) {w : Bytes} (hw : isOp w = true) (s : ScanState) :
    (scanRound temp s w).i = s.i + 1 + 1 ∧
      (scanRound temp s w).reads = s.reads ++ [s.i, s.i + 1] := by
  have h : w = utf8 "<" ∨ w = utf8 ">" := by simpa [isOp] using hw
  unfold scanRound
  split
  · exact ⟨rfl, rfl⟩
  · rw [if_pos (h.resolve_left ‹_›)]
    exact ⟨rfl, rfl⟩

theorem scanRound_word (temp : Nat → Option Bytes) {w : Bytes} (hw : isOp w = false)
    (s : ScanState) :
    (scanRound temp s w).i = s.i + 1 ∧ (scanRound temp s w).reads = s.reads ++ [s.i] := by
  have h : w ≠ utf8 "<" ∧ w ≠ utf8 ">" := by simpa [isOp] using hw
  simp [scanRound, h.1, h.2]

/-- What has been read stays read, and each round reads the element it is at. -/
theorem scanRound_reads (s : ScanState) (w : Bytes) :
    (∀ k ∈ s.reads, k ∈ (scanRound temp s w).reads) ∧ s.i ∈ (scanRound temp s w).reads := by
  cases hw : isOp w with
  | true => simp +contextual [(scanRound_op temp hw s).2]
  | false => simp +contextual [(scanRound_word temp hw s).2]

theorem scanRounds_reads {fuel : Nat} (h : scanRounds temp fuel s = some s') {k : Nat}
    (hk : k ∈ s.reads) : k ∈ s'.reads := by
  fun_induction scanRounds temp fuel s with
  | case1 => cases h
  | case2 fuel s hnull =>
    cases h
    exact List.mem_append_left _ hk
  | case3 fuel s w hw ih => exact ih h ((scanRound_reads s w).1 k hk)

/-- However often the condition may be tested, the loop ends in the same state. -/
theorem scanRounds_unique {fuel fuel' : Nat} {s₁ s₂ : ScanState}
    (h₁ : scanRounds temp fuel s = some s₁) (h₂ : scanRounds temp fuel' s = some s₂) : s₁ = s₂ := by
  fun_induction scanRounds temp fuel s generalizing fuel' with
  | case1 => cases h₁
  | case2 fuel s hnull =>
    cases fuel' with
    | zero => cases h₂
    | succ fuel' =>
      rw [scanRounds, hnull] at h₂
      exact Option.some.inj (h₁.symm.trans h₂)
  | case3 fuel s w hw ih =>
    cases fuel' with
    | zero => cases h₂
    | succ fuel' =>
      rw [scanRounds, hw] at h₂
      exact ih h₁ h₂

/-- A loop that gets to an index reads the array there. -/
theorem mem_reads_of_scanRounds {fuel : Nat} (h : scanRounds temp fuel s = some s') :
    s.i ∈ s'.reads := by
  cases fuel with
  | zero => cases h
  | succ fuel =>
    rw [scanRounds] at h
    split at h
    · cases h
      exact List.mem_append_right _ List.mem_cons_self
    · exact scanRounds_reads h (scanRound_reads s _).2

theorem scanRounds_word {w : Bytes} (hw : temp s.i = some w) (fuel : Nat) :
    scanRounds temp (fuel + 1) s = scanRounds temp fuel (scanRound temp s w) := by
  rw [scanRounds, hw]

/-- The array from an index on holds the words: so it does from the next one on. -/
theorem holds_tail {w : Bytes} {i : Nat} (h : Holds (fun k => temp (i + k)) (w :: ws)) :
    temp i = some w ∧ Holds (fun k => temp (i + 1 + k)) ws := by
  refine ⟨by simpa using h 0 (Nat.zero_le _), fun k hk => ?_⟩
  simpa [Nat.add_assoc, Nat.add_comm 1 k] using h (k + 1) (Nat.succ_le_succ hk)

theorem ScanState.Filled.args_null (hs : s.Filled c) :
    Holds (Function.update s.args s.argIdx none) c.args := by
  intro k hk
  rcases Nat.lt_or_eq_of_le hk with hlt | rfl
  · rw [Function.update_of_ne (by rw [hs.argIdx]; exact Nat.ne_of_lt hlt), hs.args k hlt]
  · rw [← hs.argIdx, Function.update_self, hs.argIdx]
    simp

theorem ScanState.Filled.word (hs : s.Filled c) {w : Bytes} (h₁ : w ≠ utf8 "<")
    (h₂ : w ≠ utf8 ">") : (scanRound temp s w).Filled { c with args := c.args ++ [w] } := by
  simp only [scanRound, if_neg h₁, if_neg h₂]
  refine ⟨by simp [hs.argIdx], fun k hk => ?_, hs.infile, hs.outfile⟩
  rcases Nat.lt_or_eq_of_le (Nat.le_of_lt_succ (by simpa using hk)) with hlt | rfl
  · simp only [Function.update_of_ne (show k ≠ s.argIdx by rw [hs.argIdx]; exact Nat.ne_of_lt hlt)]
    rw [hs.args k hlt, List.getElem?_append_left hlt]
  · simp [← hs.argIdx]

/-- The loop never goes back. -/
theorem scanRound_reads_lt (w : Bytes) (h : ∀ k ∈ s.reads, k < s.i) :
    ∀ k ∈ (scanRound temp s w).reads, k < (scanRound temp s w).i := by
  intro k hk
  cases hw : isOp w with
  | true =>
    obtain ⟨hi, hr⟩ := scanRound_op temp hw s
    rw [hr] at hk
    rw [hi]
    rcases List.mem_append.mp hk with hk | hk
    · exact Nat.lt_succ_of_lt (Nat.lt_succ_of_lt (h k hk))
    · simp at hk
      omega
  | false =>
    obtain ⟨hi, hr⟩ := scanRound_word temp hw s
    rw [hr] at hk
    rw [hi]
    rcases List.mem_append.mp hk with hk | hk
    · exact Nat.lt_succ_of_lt (h k hk)
    · exact Nat.lt_succ_of_le (Nat.le_of_eq (List.mem_singleton.mp hk))

/-- The round of an operator that has an operand. -/
theorem scanRound_operand {w f : Bytes} (hw : isOp w = true)
    (htemp : Holds (fun k => temp (s.i + k)) (w :: f :: ws)) :
    temp s.i = some w ∧ temp (s.i + 1) = some f ∧
      Holds (fun k => temp ((scanRound temp s w).i + k)) ws ∧
      (scanRound temp s w).i + ws.length = s.i + (w :: f :: ws).length := by
  have hi := (scanRound_op temp hw s).1
  obtain ⟨hw, hrest⟩ := holds_tail htemp
  obtain ⟨hf, hrest⟩ := holds_tail hrest
  refine ⟨hw, hf, by rwa [hi], ?_⟩
  simp [hi]
  omega

/-- The round of a word that is no operator. -/
theorem scanRound_argument {w : Bytes} (hw : isOp w = false)
    (htemp : Holds (fun k => temp (s.i + k)) (w :: ws)) :
    temp s.i = some w ∧ Holds (fun k => temp ((scanRound temp s w).i + k)) ws ∧
      (scanRound temp s w).i + ws.length = s.i + (w :: ws).length := by
  have hi := (scanRound_word temp hw s).1
  obtain ⟨hw, hrest⟩ := holds_tail htemp
  refine ⟨hw, by rwa [hi], ?_⟩
  simp [hi]
  omega

/-- A run of the loop from the next round on, and the round before it. -/
theorem scanRounds_from {P : ScanState → Prop} {w : Bytes} {m n : Nat}
    (hw : temp s.i = some w) (hi : (scanRound temp s w).i + m = s.i + n)
    (h : ∃ fuel s', scanRounds temp fuel (scanRound temp s w) = some s' ∧
      (∀ k ∈ s'.reads, k ≤ (scanRound temp s w).i + m) ∧ P s') :
    ∃ fuel s', scanRounds temp fuel s = some s' ∧ (∀ k ∈ s'.reads, k ≤ s.i + n) ∧ P s' := by
  obtain ⟨fuel, s', hrun, hle, hP⟩ := h
  rw [hi] at hle
  exact ⟨fuel + 1, s', (scanRounds_word hw fuel).trans hrun, hle, hP⟩

/-- Where the list scan succeeds the loop does the same, up to the final `NULL`. -/
theorem scanRounds_of_scanLoop (h : scanLoop c ws = some c')
    (htemp : Holds (fun k => temp (s.i + k)) ws) (hs : s.Filled c)
    (hreads : ∀ k ∈ s.reads, k < s.i) :
    ∃ fuel s', scanRounds temp fuel s = some s' ∧ (∀ k ∈ s'.reads, k ≤ s.i + ws.length) ∧
      Holds s'.args c'.args ∧ s'.infile = c'.infile ∧ s'.outfile = c'.outfile := by
  fun_induction scanLoop c ws generalizing s with
  | case1 c =>
    obtain rfl : c = c' := by simpa using h
    have hnull : temp s.i = none := by simpa using htemp 0 (Nat.le_refl _)
    have hrun : scanRounds temp 1 s = some { s with
        args := Function.update s.args s.argIdx none
        reads := s.reads ++ [s.i] } := by
      rw [scanRounds, hnull]
    refine ⟨1, _, hrun, fun k hk => ?_, hs.args_null, hs.infile, hs.outfile⟩
    rcases List.mem_append.mp hk with hk | hk
    · exact Nat.le_of_lt (hreads k hk)
    · exact Nat.le_of_eq (List.mem_singleton.mp hk)
  | case2 | case4 => cases h
  | case3 c f ws ih =>
    obtain ⟨hw, hf, hrest, hlen⟩ := scanRound_operand isOp_in htemp
    refine scanRounds_from hw hlen (ih h hrest ?_ (scanRound_reads_lt _ hreads))
    exact ⟨hs.argIdx, hs.args, by simp [scanRound, hf], hs.outfile⟩
  | case5 c f ws hne ih =>
    obtain ⟨hw, hf, hrest, hlen⟩ := scanRound_operand isOp_out htemp
    refine scanRounds_from hw hlen (ih h hrest ?_ (scanRound_reads_lt _ hreads))
    simp only [scanRound, if_neg hne, if_true, hf]
    exact ⟨hs.argIdx, hs.args, hs.infile, rfl⟩
  | case6 c w ws h₁ h₂ ih =>
    obtain ⟨hw, hrest, hlen⟩ := scanRound_argument (not_isOp h₁ h₂) htemp
    exact scanRounds_from hw hlen (ih h hrest (hs.word h₁ h₂) (scanRound_reads_lt _ hreads))

/-- The round of an operator without an operand steps over the final `NULL`. -/
theorem mem_reads_of_dangling {w : Bytes} (hw : isOp w = true)
    (htemp : Holds (fun k => temp (s.i + k)) [w]) {fuel : Nat}
    (hrun : scanRounds temp fuel s = some s') : s.i + 1 + 1 ∈ s'.reads := by
  cases fuel with
  | zero => cases hrun
  | succ fuel =>
    rw [scanRounds_word (holds_tail htemp).1] at hrun
    rw [← (scanRound_op temp hw s).1]
    exact mem_reads_of_scanRounds hrun

/-- Where it fails the loop, if it ends at all, reads the element behind the final `NULL`. -/
theorem mem_reads_of_scanLoop (h : scanLoop c ws = none)
    (htemp : Holds (fun k => temp (s.i + k)) ws) {fuel : Nat}
    (hrun : scanRounds temp fuel s = some s') : s.i + ws.length + 1 ∈ s'.reads := by
  -- the next round leaves the sum as it is
  have hnext : ∀ {w : Bytes} {m n : Nat} {s : ScanState}, temp s.i = some w →
      (scanRound temp s w).i + m = s.i + n → ∀ {fuel}, scanRounds temp fuel s = some s' →
      (∀ {fuel}, scanRounds temp fuel (scanRound temp s w) = some s' →
        (scanRound temp s w).i + m + 1 ∈ s'.reads) → s.i + n + 1 ∈ s'.reads := by
    intro w m n s hw hi fuel hrun hrest
    cases fuel with
    | zero => cases hrun
    | succ fuel =>
      rw [scanRounds_word hw] at hrun
      rw [← hi]
      exact hrest hrun
  fun_induction scanLoop c ws generalizing s fuel with
  | case1 => cases h
  | case2 c => exact mem_reads_of_dangling isOp_in htemp hrun
  | case3 c f ws ih =>
    obtain ⟨hw, -, hrest, hlen⟩ := scanRound_operand isOp_in htemp
    exact hnext hw hlen hrun (ih h hrest)
  | case4 c hne => exact mem_reads_of_dangling isOp_out htemp hrun
  | case5 c f ws hne ih =>
    obtain ⟨hw, -, hrest, hlen⟩ := scanRound_operand isOp_out htemp
    exact hnext hw hlen hrun (ih h hrest)
  | case6 c w ws h₁ h₂ ih =>
    obtain ⟨hw, hrest, hlen⟩ := scanRound_argument (not_isOp h₁ h₂) htemp
    exact hnext hw hlen hrun (ih h hrest)

end

/-! ## 4. What the words ask for -/

/-- The scan of the words ends, reads nothing behind the final `NULL`, and finds what the words
ask for, where `op` says at which indices the operators are. -/
def Scanned (ws : List Bytes) (stale args : Nat → Option Bytes) (op : Nat → Bool) : Prop :=
  ∃ fuel s, scanRounds (tempArgs ws stale) fuel (.start args) = some s ∧
    (∀ k ∈ s.reads, k ≤ ws.length) ∧ Holds s.args (kept op ws) ∧
    s.infile = lastOperand op (utf8 "<") ws ∧ s.outfile = lastOperand op (utf8 ">") ws

theorem holds_tempArgs (ws : List Bytes) (stale : Nat → Option Bytes) :
    Holds (fun k => tempArgs ws stale (0 + k)) ws := by
  intro k hk
  simp [tempArgs, hk]

theorem filled_start (args : Nat → Option Bytes) :
    (ScanState.start args).Filled ⟨[], none, none⟩ :=
  ⟨rfl, fun k hk => absurd hk (Nat.not_lt_zero k), rfl, rfl⟩

/-- An operator in last place that is nobody's operand. -/
theorem not_scanned {ws : List Bytes} (h : isOperatorAt ws (ws.length - 1) = true)
    (stale args : Nat → Option Bytes) (op : Nat → Bool) : ¬Scanned ws stale args op := by
  rintro ⟨fuel, s, hrun, hreads, -⟩
  have hscan : scanLoop ⟨[], none, none⟩ ws = none := by rw [scanLoop_eq, if_pos h]
  have hbehind := hreads _ (mem_reads_of_scanLoop hscan (holds_tempArgs ws stale) hrun)
  simp only [ScanState.start] at hbehind
  omega

theorem scanned {ws : List Bytes} (h : isOperatorAt ws (ws.length - 1) = false)
    (stale args : Nat → Option Bytes) : Scanned ws stale args (isOperatorAt ws) := by
  have hscan := scanLoop_eq ⟨[], none, none⟩ ws
  rw [h] at hscan
  obtain ⟨fuel, s, hrun, hreads, hargs, hin, hout⟩ := scanRounds_of_scanLoop hscan
    (s := .start args) (holds_tempArgs ws stale) (filled_start args) (by simp [ScanState.start])
  refine ⟨fuel, s, hrun, by simpa [ScanState.start] using hreads, by simpa using hargs, ?_, ?_⟩
  · simpa using hin
  · simpa using hout

/-- The words say the same when every `<` and `>` counts as an operator, also where it stands as
the operand of another one. -/
def ReadsAlike (ws : List Bytes) : Prop :=
  kept (opAt ws) ws = kept (isOperatorAt ws) ws ∧
    lastOperand (opAt ws) (utf8 "<") ws = lastOperand (isOperatorAt ws) (utf8 "<") ws ∧
    lastOperand (opAt ws) (utf8 ">") ws = lastOperand (isOperatorAt ws) (utf8 ">") ws

theorem readsAlike_of_apart {ws : List Bytes}
    (h : ∀ i, opAt ws i = true → opAt ws (i + 1) = false) : ReadsAlike ws := by
  rw [ReadsAlike, ← funext (isOperatorAt_eq_opAt h)]
  exact ⟨rfl, rfl, rfl⟩

/-- The two readings of a scan that ends are that of one and the same state. -/
theorem Scanned.readsAlike {ws : List Bytes} {stale args : Nat → Option Bytes}
    (h : Scanned ws stale args (opAt ws)) (h' : Scanned ws stale args (isOperatorAt ws)) :
    ReadsAlike ws := by
  obtain ⟨fuel, s, hrun, -, hargs, hin, hout⟩ := h
  obtain ⟨fuel', s', hrun', -, hargs', hin', hout'⟩ := h'
  obtain rfl : s = s' := scanRounds_unique hrun hrun'
  exact ⟨holds_unique hargs hargs', hin.symm.trans hin', hout.symm.trans hout'⟩

/-- For every list of words, and whatever `temp_args` holds behind the final `NULL`: the scan
finds what the words ask for exactly when the last word is not an operator.  To the letter, with
every `<` and `>` for an operator, it does so when moreover the words say the same that way, and
they do where no two of `<` and `>` stand side by side. -/
theorem scanned_iff (ws : List Bytes) (stale args : Nat → Option Bytes) :
    (Scanned ws stale args (isOperatorAt ws) ↔ isOperatorAt ws (ws.length - 1) = false) ∧
      (Scanned ws stale args (opAt ws) ↔
        isOperatorAt ws (ws.length - 1) = false ∧ ReadsAlike ws) ∧
      ((∀ i, opAt ws i = true → opAt ws (i + 1) = false) → ReadsAlike ws) := by
  have hlast : ∀ {op : Nat → Bool}, Scanned ws stale args op →
      isOperatorAt ws (ws.length - 1) = false := by
    intro op h
    by_contra hlast
    exact not_scanned (by simpa using hlast) stale args op h
  refine ⟨⟨hlast, fun h => scanned h stale args⟩, ⟨fun h => ?_, ?_⟩, readsAlike_of_apart⟩
  · exact ⟨hlast h, h.readsAlike (scanned (hlast h) stale args)⟩
  · rintro ⟨h, hargs, hin, hout⟩
    rw [Scanned, hargs, hin, hout]
    exact scanned h stale args

/-- A line whose last word is `<`, after a longer one: the loop goes on behind the `NULL` and
takes up a word of the line before. -/
theorem scan_dangling :
    vector (utf8 "sort <") = some [utf8 "sort", utf8 "<"] ∧
      (¬Scanned [utf8 "sort", utf8 "<"] (fun k => if k = 3 then some (utf8 "old") else none)
        (fun _ => none) (isOperatorAt [utf8 "sort", utf8 "<"])) ∧
      (scanRounds
        (tempArgs [utf8 "sort", utf8 "<"] fun k => if k = 3 then some (utf8 "old") else none) 9
        (.start fun _ => none)).map (fun s => (s.args 0, s.args 1, s.reads)) =
          some (some (utf8 "sort"), some (utf8 "old"), [0, 1, 2, 3, 4]) := by
  refine ⟨by decide, not_scanned (by decide) _ _ _, by decide⟩

/-! ## 5. Lines without a meaning -/

/-- The lines that C gives no meaning: a stage has too many words for an argument array, or the
last word of the only stage is an operator without an operand. -/
def Overruns (input : Bytes) : Prop :=
  input ≠ [] ∧ input ≠ utf8 "exit" ∧
    match splitPipe (stripBg input) with
    | some (left, right) =>
      maxArgLen ≤ (tokens isBlank left).length ∨ maxArgLen ≤ (tokens isBlank right).length
    | none =>
      maxArgLen ≤ (tokens isBlank (stripBg input)).length ∨
        isOperatorAt (tokens isBlank (stripBg input))
          ((tokens isBlank (stripBg input)).length - 1) = true

section

variable {input : Bytes}

theorem scan_eq_none {ws : List Bytes} :
    scan ws = none ↔ isOperatorAt ws (ws.length - 1) = true := by
  rw [scan, scanLoop_eq]
  simp

theorem vector_eq_none (h : NulFree input) :
    vector input = none ↔ maxArgLen ≤ (tokens isBlank input).length := by
  rw [← argv_eq_tokens h, length_argv, ← Nat.not_lt]
  simp [vector]

theorem single_eq_none (h : NulFree input) :
    single input = none ↔ maxArgLen ≤ (tokens isBlank input).length ∨
      isOperatorAt (tokens isBlank input) ((tokens isBlank input).length - 1) = true := by
  unfold single
  cases hv : vector input with
  | none => simp [(vector_eq_none h).mp hv]
  | some ws =>
    obtain ⟨rfl, hlen⟩ := (vector_eq_some h).mp hv
    rw [Option.bind_some, scan_eq_none, or_iff_right (Nat.not_le.mpr hlen)]

theorem nulFree_of_splitPipe {left right : Bytes} (h : NulFree input)
    (hs : splitPipe input = some (left, right)) : NulFree left ∧ NulFree right := by
  obtain ⟨rfl, -⟩ := splitPipe_eq_some.mp hs
  exact ⟨fun b hb => h b (by simp [hb]), fun b hb => h b (by simp [hb])⟩

theorem treat_eq_none (h : NulFree input) : treat input = none ↔ Overruns input := by
  unfold treat Overruns
  by_cases hnil : input = []
  · simp [hnil]
  by_cases hexit : input = utf8 "exit"
  · rw [if_neg hnil, if_pos hexit]
    simp [hexit]
  rw [if_neg hnil, if_neg hexit]
  have hstrip := nulFree_stripBg h
  cases hsplit : splitPipe (stripBg input) with
  | none => simp [hnil, hexit, single_eq_none hstrip]
  | some p =>
    obtain ⟨hleft, hright⟩ := nulFree_of_splitPipe hstrip hsplit
    simp only [hnil, hexit, not_false_eq_true, ne_eq, true_and, ← vector_eq_none hleft,
      ← vector_eq_none hright]
    cases vector p.1 <;> simp

end

end PosixLab.Shell
