/-
# Tokens

`tokens sep l` is the list of the maximal runs of elements of `l` that are no separators, in
order.  It is Lean's `List.splitOnP` without the empty pieces, so any number of separators in
a row, or at either end, counts as one.  `tokens_cons` reads the tokens off from the left, the
way a loop over the list finds them; `tokens_concat` says what one more element at the right
end does.
-/
import Mathlib.Data.List.Basic
import Mathlib.Data.List.DropRight
import Mathlib.Data.List.TakeWhile

namespace PosixLab

variable {α : Type*} {sep : α → Bool}

/-- The maximal runs of elements that are no separators. -/
def tokens (sep : α → Bool) (l : List α) : List (List α) :=
  (l.splitOnP sep).filter (!·.isEmpty)

@[simp] theorem tokens_nil : tokens sep [] = [] := by
  simp [tokens, List.splitOnP_nil]

/-- A separator separates: the tokens are those before it and those behind it. -/
theorem tokens_append_sep {c : α} (hc : sep c = true) (a b : List α) :
    tokens sep (a ++ c :: b) = tokens sep a ++ tokens sep b := by
  simp [tokens, List.splitOnP_append_cons a b hc]

theorem tokens_cons_sep {c : α} (hc : sep c = true) (l : List α) :
    tokens sep (c :: l) = tokens sep l := by
  simpa using tokens_append_sep hc [] l

/-- A run without separators is one token. -/
theorem tokens_run {l : List α} (hne : l ≠ []) (h : ∀ x ∈ l, sep x = false) :
    tokens sep l = [l] := by
  simp [tokens, List.splitOnP_eq_singleton h, hne]

/-- Separators at the end do not matter. -/
theorem tokens_append_seps (l : List α) {w : List α} (hw : ∀ x ∈ w, sep x = true) :
    tokens sep (l ++ w) = tokens sep l := by
  induction w using List.reverseRecOn with
  | nil => simp
  | append_singleton w c ih =>
    have hc : sep c = true := hw c (by simp)
    rw [← List.append_assoc, tokens_append_sep hc, ih fun x hx => hw x (by simp [hx])]
    simp

/-- From the left: an element that is no separator starts a token, which goes on to the next
separator. -/
theorem tokens_cons {a : α} (ha : sep a = false) (l : List α) :
    tokens sep (a :: l) = (a :: l.takeWhile (!sep ·)) :: tokens sep (l.dropWhile (!sep ·)) := by
  have hrun : ∀ x ∈ a :: l.takeWhile (!sep ·), sep x = false := by
    intro x hx
    rcases List.mem_cons.mp hx with rfl | hx
    · exact ha
    · simpa using List.mem_takeWhile_imp hx
  have hl : a :: l = (a :: l.takeWhile (!sep ·)) ++ l.dropWhile (!sep ·) := by
    rw [List.cons_append, List.takeWhile_append_dropWhile]
  rw [hl]
  cases hd : l.dropWhile (!sep ·) with
  | nil => simp [tokens_run (by simp) hrun]
  | cons c r =>
    have hc : sep c = true := by
      have := List.head?_dropWhile_not (fun x => !sep x) l
      simpa [hd] using this
    rw [tokens_append_sep hc, tokens_run (by simp) hrun, tokens_cons_sep hc]
    rfl

/-- A run behind a separator, or at the start, is the last token. -/
theorem tokens_append_run {b r : List α} (hb : ∀ h : b ≠ [], sep (b.getLast h) = true)
    (hne : r ≠ []) (hr : ∀ x ∈ r, sep x = false) :
    tokens sep (b ++ r) = tokens sep b ++ [r] := by
  induction b using List.reverseRecOn with
  | nil => simpa using tokens_run hne hr
  | append_singleton b c _ =>
    have hc : sep c = true := by simpa using hb (by simp)
    rw [List.append_assoc, List.singleton_append, tokens_append_sep hc, tokens_append_sep hc,
      tokens_run hne hr, tokens_nil, List.append_nil]

/-- From the right: one more element that is no separator is a token of its own, or makes the
last token longer. -/
theorem tokens_concat {c : α} (hc : sep c = false) (l : List α) :
    tokens sep (l ++ [c]) = tokens sep l ++ [[c]] ∨
      ∃ ts t, tokens sep l = ts ++ [t] ∧ tokens sep (l ++ [c]) = ts ++ [t ++ [c]] := by
  -- `r` is the run at the end of `l`, which `c` goes on
  obtain ⟨b, r, hl, hb, hr⟩ : ∃ b r, b ++ r = l ∧
      (∀ h : b ≠ [], sep (b.getLast h) = true) ∧ ∀ x ∈ r, sep x = false := by
    refine ⟨_, _, List.rdropWhile_append_rtakeWhile (p := (!sep ·)), fun h => ?_, fun x hx => ?_⟩
    · simpa using List.rdropWhile_last_not (!sep ·) l h
    · simpa using List.mem_rtakeWhile_imp hx
  have hrc : ∀ x ∈ r ++ [c], sep x = false := by
    intro x hx
    rcases List.mem_append.mp hx with h | h
    · exact hr x h
    · exact List.mem_singleton.mp h ▸ hc
  rw [← hl, List.append_assoc, tokens_append_run hb (by simp) hrc]
  by_cases hnil : r = []
  · exact .inl (by simp [hnil])
  · exact .inr ⟨tokens sep b, r, tokens_append_run hb hnil hr, rfl⟩

/-- What is dropped at the right end ends at the latest at an element that stays. -/
theorem rdropWhile_append_cons {p : α → Bool} {c : α} (hc : p c = false) (a b : List α) :
    (a ++ c :: b).rdropWhile p = a ++ c :: b.rdropWhile p := by
  induction b using List.reverseRecOn with
  | nil => exact List.rdropWhile_concat_neg p a c (by simp [hc])
  | append_singleton b x ih =>
    rw [← List.cons_append, ← List.append_assoc, List.rdropWhile_concat, List.rdropWhile_concat]
    split
    · exact ih
    · simp

/-- Put together, the tokens are the list without its separators. -/
theorem flatten_tokens (l : List α) : (tokens sep l).flatten = l.filter (!sep ·) := by
  induction l using List.reverseRecOn with
  | nil => simp
  | append_singleton l c ih =>
    by_cases hc : sep c = true
    · rw [tokens_append_seps l (by simpa using hc), ih]
      simp [hc]
    · have hc' : sep c = false := by simpa using hc
      have hstep : (tokens sep (l ++ [c])).flatten = (tokens sep l).flatten ++ [c] := by
        rcases tokens_concat hc' l with h | ⟨ts, t, h, h'⟩
        · simp [h]
        · simp [h, h']
      simp [hstep, ih, hc']

end PosixLab
