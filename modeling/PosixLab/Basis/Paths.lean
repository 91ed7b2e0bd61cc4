/-
# Paths, resolved by their dots

A path is a walk through the tree of directories: a component stays (`.`), goes up (`..`) or
goes down (a name).  Where no symbolic link is met the walk ends where the names say, so a place
in the tree is the list of names on the way to it from the root.  A walk stays below where it
starts exactly when it goes up at no point more often than it has gone down
(`resolve_within_iff`, `resolvePath_confined_iff`).
-/
import PosixLab.Basis.CString
import PosixLab.Basis.Tokens

namespace PosixLab

/-! ## 1. Walks -/

/-- What one component of a path asks for. -/
inductive PathStep (α : Type*)
  | stay
  | up
  | down (name : α)
deriving DecidableEq

section

variable {α : Type*}

/-- The place that a walk from the place `dir` ends at.  The root is its own parent. -/
def resolve (dir : List α) : List (PathStep α) → List α
  | [] => dir
  | .stay :: ps => resolve dir ps
  | .up :: ps => resolve dir.dropLast ps
  | .down name :: ps => resolve (dir ++ [name]) ps

/-- At no point does the walk go up more often than it has gone down, from `depth` levels
below. -/
def within : Nat → List (PathStep α) → Bool
  | _, [] => true
  | depth, .stay :: ps => within depth ps
  | 0, .up :: _ => false
  | depth + 1, .up :: ps => within depth ps
  | depth, .down _ :: ps => within (depth + 1) ps

/-- A walk that stays below a directory ends below it. -/
theorem prefix_resolve {ps : List (PathStep α)} {below : List α}
    (h : within below.length ps = true) (dir : List α) : dir <+: resolve (dir ++ below) ps := by
  induction ps generalizing below with
  | nil => exact List.prefix_append dir below
  | cons p ps ih =>
    cases p with
    | stay => exact ih h
    | up =>
      cases below using List.reverseRecOn with
      | nil => cases h
      | append_singleton below name =>
        rw [resolve, ← List.append_assoc, List.dropLast_concat]
        exact ih (by simpa [within] using h)
    | down name =>
      rw [resolve, List.append_assoc]
      exact ih (by simpa [within] using h)

theorem prefix_resolve_of_within {ps : List (PathStep α)} (h : within 0 ps = true)
    (dir : List α) : dir <+: resolve dir ps := by
  have hnil : within ([] : List α).length ps = true := h
  simpa using prefix_resolve hnil dir

/-- A walk comes to a name only by starting there or by going down to it. -/
theorem notMem_resolve {ps : List (PathStep α)} {dir : List α} {x : α} (hdir : x ∉ dir)
    (hps : .down x ∉ ps) : x ∉ resolve dir ps := by
  induction ps generalizing dir with
  | nil => exact hdir
  | cons p ps ih =>
    have hps' : .down x ∉ ps := fun h => hps (List.mem_cons_of_mem p h)
    cases p with
    | stay => exact ih hdir hps'
    | up => exact ih (fun h => hdir (List.mem_of_mem_dropLast h)) hps'
    | down name =>
      refine ih (fun h => ?_) hps'
      rcases List.mem_append.mp h with h | h
      · exact hdir h
      · obtain rfl := List.mem_singleton.mp h
        exact hps List.mem_cons_self

/-- A walk that leaves a directory does not find back, if it does not know its name. -/
theorem notMem_resolve_of_leaves {ps : List (PathStep α)} {below : List α} {x : α}
    (hbelow : x ∉ below) (hps : .down x ∉ ps) (h : within below.length ps = false) :
    x ∉ resolve (x :: below) ps := by
  induction ps generalizing below with
  | nil => cases h
  | cons p ps ih =>
    have hps' : .down x ∉ ps := fun h => hps (List.mem_cons_of_mem p h)
    cases p with
    | stay => exact ih hbelow hps' h
    | up =>
      cases below using List.reverseRecOn with
      | nil =>
        rw [resolve]
        exact notMem_resolve (by simp) hps'
      | append_singleton below name =>
        rw [resolve, ← List.cons_append, List.dropLast_concat]
        refine ih (fun hx => hbelow ?_) hps' (by simpa [within] using h)
        exact List.mem_append_left _ hx
    | down name =>
      refine ih (fun hx => ?_) hps' (by simpa [within] using h)
      rcases List.mem_append.mp hx with hx | hx
      · exact hbelow hx
      · obtain rfl := List.mem_singleton.mp hx
        exact hps List.mem_cons_self

/-- From a directory whose name it does not know, a walk ends below it exactly when it never
leaves it. -/
theorem resolve_within_iff {ps : List (PathStep α)} {x : α} (hps : .down x ∉ ps) :
    [x] <+: resolve [x] ps ↔ within 0 ps = true := by
  constructor
  · intro h
    by_contra hleaves
    refine notMem_resolve_of_leaves (List.not_mem_nil) hps (by simpa using hleaves) ?_
    exact h.subset List.mem_cons_self
  · exact fun h => prefix_resolve_of_within h [x]

end

/-! ## 2. Paths in bytes -/

/-- The components of a path. -/
def pathSteps (p : Bytes) : List (PathStep Bytes) :=
  (tokens (· == 47) p).map fun c =>
    if c = [46] then .stay else if c = [46, 46] then .up else .down c

/-- Where a path leads from the directory `cwd`. -/
def resolvePath (cwd : List Bytes) (p : Bytes) : List Bytes :=
  resolve (if p.head? = some 47 then [] else cwd) (pathSteps p)

/-- What a directory entry can be called. -/
def IsName (name : Bytes) : Prop :=
  name ≠ [] ∧ name ≠ [46] ∧ name ≠ [46, 46] ∧ ∀ b ∈ name, b ≠ 0 ∧ b ≠ 47

/-- The path is relative and does not leave the directory it starts from. -/
def staysWithin (p : Bytes) : Bool := p.head? != some 47 && within 0 (pathSteps p)

/-- There is a name that a path does not have. -/
theorem exists_name_notMem (p : Bytes) : ∃ name, IsName name ∧ .down name ∉ pathSteps p := by
  have hlen : ∀ c ∈ tokens (· == 47) p, c.length ≤ p.length := by
    intro c hc
    have hflat : (tokens (· == 47) p).flatten.Sublist p := by
      rw [flatten_tokens]
      exact List.filter_sublist
    exact ((List.sublist_flatten_of_mem hc).trans hflat).length_le
  refine ⟨List.replicate (p.length + 3) 97, ⟨?_, ?_, ?_, fun b hb => ?_⟩, fun h => ?_⟩
  · simp
  · simp [List.replicate_succ]
  · simp [List.replicate_succ]
  · rw [List.eq_of_mem_replicate hb]
    decide
  · obtain ⟨c, hc, heq⟩ := List.mem_map.mp h
    split at heq
    · cases heq
    · split at heq
      · cases heq
      · obtain rfl := PathStep.down.inj heq
        have hle := hlen _ hc
        rw [List.length_replicate] at hle
        omega

/-- Whatever directory it is resolved in, a path leads to a place below it if and only if it is
relative and does not leave the directory it starts from. -/
theorem resolvePath_confined_iff (p : Bytes) :
    (∀ cwd : List Bytes, (∀ name ∈ cwd, IsName name) → cwd <+: resolvePath cwd p) ↔
      staysWithin p = true := by
  unfold resolvePath staysWithin
  by_cases habs : p.head? = some 47
  · obtain ⟨x, hx, hfresh⟩ := exists_name_notMem p
    simp only [habs, if_true, bne_self_eq_false, Bool.false_and, Bool.false_eq_true, iff_false]
    intro h
    have hmem := (h [x] (by simpa using hx)).subset List.mem_cons_self
    exact notMem_resolve List.not_mem_nil hfresh hmem
  · have hrel : (p.head? != some 47) = true := by simpa using habs
    simp only [if_neg habs, hrel, Bool.true_and]
    constructor
    · intro h
      obtain ⟨x, hx, hfresh⟩ := exists_name_notMem p
      exact (resolve_within_iff hfresh).mp (h [x] (by simpa using hx))
    · intro h cwd _
      exact prefix_resolve_of_within h cwd

end PosixLab
