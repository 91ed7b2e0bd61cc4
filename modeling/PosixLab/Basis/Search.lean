/-
# The first occurrence of a text

`strstr` finds the first place at which a text contains another one.  It is given by what stands
from there on, as the C function gives it, so that what stands behind the occurrence is a `drop`
away.
-/
import Mathlib.Data.List.Infix

namespace PosixLab

variable {α : Type*} [DecidableEq α] {pat s : List α}

/-- The call `strstr(s, pat)`: the text from the first occurrence of `pat` on. -/
def strstr (pat : List α) : List α → Option (List α)
  | [] => if pat = [] then some [] else none
  | a :: s => if pat <+: a :: s then some (a :: s) else strstr pat s

theorem strstr_isSome : (strstr pat s).isSome = true ↔ pat <:+: s := by
  induction s with
  | nil => by_cases h : pat = [] <;> simp [strstr, h]
  | cons a s ih =>
    rw [strstr, List.infix_cons_iff]
    split
    · simp [*]
    · simp [*]

theorem strstr_eq_none : strstr pat s = none ↔ ¬pat <:+: s := by
  rw [← strstr_isSome, Option.isSome_iff_ne_none, not_not]

/-- What is found starts with the text that was looked for. -/
theorem strstr_prefix {t : List α} (h : strstr pat s = some t) : pat <+: t := by
  induction s with
  | nil =>
    simp only [strstr, Option.ite_none_right_eq_some] at h
    rw [h.1]
    exact List.nil_prefix
  | cons a s ih =>
    rw [strstr] at h
    split at h
    · next hp =>
      obtain rfl : a :: s = t := by simpa using h
      exact hp
    · exact ih h

theorem strstr_self_append (pat post : List α) : strstr pat (pat ++ post) = some (pat ++ post) := by
  cases hs : pat ++ post with
  | nil =>
    obtain rfl : pat = [] := (List.append_eq_nil_iff.mp hs).1
    rfl
  | cons a s => exact if_pos (hs ▸ List.prefix_append pat post)

/-- An occurrence before which there is none is the one that is found. -/
theorem strstr_append {pre : List α} (h : ¬pat <:+: (pre ++ pat).dropLast) (post : List α) :
    strstr pat (pre ++ pat ++ post) = some (pat ++ post) := by
  induction pre with
  | nil =>
    cases pat with
    | nil => exact absurd (List.nil_infix) h
    | cons c pat => exact if_pos (List.prefix_append _ _)
  | cons a pre ih =>
    have hne : pre ++ pat ≠ [] := by
      intro hnil
      rw [(List.append_eq_nil_iff.mp hnil).2] at h
      exact h List.nil_infix
    rw [List.cons_append, List.dropLast_cons_of_ne_nil hne] at h
    have hlater : ¬pat <+: a :: (pre ++ pat ++ post) := by
      intro hp
      have hd : a :: (pre ++ pat).dropLast <+: a :: (pre ++ pat ++ post) :=
        (List.prefix_cons_inj a).mpr ((List.dropLast_prefix _).trans (List.prefix_append _ _))
      have hle : pat.length ≤ (a :: (pre ++ pat).dropLast).length := by
        simp
        omega
      exact h (List.prefix_of_prefix_length_le hp hd hle).isInfix
    rw [List.cons_append, List.cons_append, strstr, if_neg hlater]
    exact ih fun hin => h (hin.trans (List.suffix_cons a _).isInfix)

omit [DecidableEq α] in
/-- A text that a separator is no part of cannot start before the separator and end behind it. -/
theorem prefix_append_sep_iff {c : α} (hc : c ∉ pat) (p rest : List α) :
    pat <+: p ++ c :: rest ↔ pat <+: p := by
  refine ⟨fun h => ?_, fun h => h.trans (List.prefix_append _ _)⟩
  rcases List.prefix_or_prefix_of_prefix h (List.prefix_append p (c :: rest)) with hle | hle
  · exact hle
  · obtain ⟨q, rfl⟩ := hle
    have hq : q <+: c :: rest := (List.prefix_append_right_inj p).mp h
    cases q with
    | nil => simp
    | cons x q =>
      obtain rfl : x = c := (List.cons_prefix_cons.mp hq).1
      exact absurd (by simp) hc

/-- With a separator that is no part of the text, the search goes from piece to piece. -/
theorem strstr_append_sep {c : α} (hc : c ∉ pat) (hne : pat ≠ []) (p rest : List α) :
    strstr pat (p ++ c :: rest) =
      match strstr pat p with
      | some t => some (t ++ c :: rest)
      | none => strstr pat rest := by
  induction p with
  | nil =>
    have hno : ¬pat <+: c :: rest := by
      rw [← List.nil_append (c :: rest), prefix_append_sep_iff hc]
      exact fun h => hne (List.prefix_nil.mp h)
    rw [List.nil_append]
    simp only [strstr, if_neg hno, if_neg hne]
  | cons a p ih =>
    have hiff : pat <+: a :: (p ++ c :: rest) ↔ pat <+: a :: p :=
      prefix_append_sep_iff hc (a :: p) rest
    rw [List.cons_append, strstr, strstr]
    by_cases h : pat <+: a :: p
    · rw [if_pos h, if_pos (hiff.mpr h)]
      rfl
    · rw [if_neg h, if_neg fun hp => h (hiff.mp hp)]
      exact ih

end PosixLab
