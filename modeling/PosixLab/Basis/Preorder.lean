/-
# Listing a tree from the top

`preorder children n a` lists a node and then, child by child, what is below it, for `n` levels.
If a rank falls from each node to its children, the rank of `a` bounds the levels that there are,
and everything below `a` is listed (`mem_preorder`); in a tree nothing is listed twice
(`IsTree.nodup_preorder`); and a node always comes behind its parent (`guarded_preorder`).
-/
import Mathlib.Data.List.Nodup
import Mathlib.Logic.Relation
import PosixLab.Basis.Runs

namespace PosixLab

variable {α : Type*} {children : α → List α} {a b c x : α} {n : Nat}

/-- A node and what is below it, for so many levels. -/
def preorder (children : α → List α) : Nat → α → List α
  | 0, _ => []
  | n + 1, a => a :: (children a).flatMap (preorder children n)

/-- The first node is the second one or lies above it. -/
def Below (children : α → List α) : α → α → Prop :=
  Relation.ReflTransGen fun a b => b ∈ children a

theorem Below.refl (a : α) : Below children a a := Relation.ReflTransGen.refl

theorem Below.head (hc : c ∈ children a) (h : Below children c x) : Below children a x :=
  Relation.ReflTransGen.head hc h

theorem Below.tail (h : Below children a b) (hx : x ∈ children b) : Below children a x :=
  Relation.ReflTransGen.tail h hx

/-! ## 1. What is listed -/

theorem below_of_mem_preorder (h : x ∈ preorder children n a) : Below children a x := by
  induction n generalizing a with
  | zero => cases h
  | succ n ih =>
    rcases List.mem_cons.mp h with rfl | h
    · exact .refl x
    · obtain ⟨c, hc, hx⟩ := List.mem_flatMap.mp h
      exact .head hc (ih hx)

/-- Where the rank falls from level to level, everything is listed. -/
theorem mem_preorder {rank : α → Nat}
    (hrank : ∀ {b c}, Below children a b → c ∈ children b → rank c < rank b) (hn : rank a < n) :
    x ∈ preorder children n a ↔ Below children a x := by
  refine ⟨below_of_mem_preorder, fun h => ?_⟩
  induction n generalizing a with
  | zero => exact absurd hn (Nat.not_lt_zero _)
  | succ n ih =>
    rcases Relation.ReflTransGen.cases_head h with rfl | ⟨c, hc, hx⟩
    · exact List.mem_cons_self
    · have hlt : rank c < rank a := hrank (.refl a) hc
      refine List.mem_cons_of_mem _ (List.mem_flatMap.mpr ⟨c, hc, ?_⟩)
      exact ih (fun hb => hrank (.head hc hb)) (by omega) hx

/-- More levels than that list nothing more. -/
theorem preorder_eq {rank : α → Nat}
    (hrank : ∀ {b c}, Below children a b → c ∈ children b → rank c < rank b) {m : Nat}
    (hn : rank a < n) (hm : rank a < m) : preorder children n a = preorder children m a := by
  induction n generalizing a m with
  | zero => exact absurd hn (Nat.not_lt_zero _)
  | succ n ih =>
    obtain ⟨m, rfl⟩ : ∃ k, m = k + 1 := ⟨m - 1, by omega⟩
    rw [preorder, preorder]
    congr 1
    refine List.flatMap_congr fun c hc => ?_
    have hlt : rank c < rank a := hrank (.refl a) hc
    exact ih (fun hb => hrank (.head hc hb)) (by omega) (by omega)

/-! ## 2. Once -/

/-- What is below a node is a tree: no node is a child twice, and the node itself is none. -/
structure IsTree (children : α → List α) (a : α) : Prop where
  nodup : ∀ {b}, Below children a b → (children b).Nodup
  once : ∀ {b b' c}, Below children a b → Below children a b' → c ∈ children b →
    c ∈ children b' → b = b'
  root : ∀ {b}, Below children a b → a ∉ children b

/-- No child lies above its parent. -/
theorem IsTree.not_below (h : IsTree children a) (hc : c ∈ children a) : ¬Below children c a := by
  intro hca
  rcases Relation.ReflTransGen.cases_tail hca with rfl | ⟨b, hcb, hab⟩
  · exact h.root (.refl a) hc
  · exact h.root (.head hc hcb) hab

theorem IsTree.child (h : IsTree children a) (hc : c ∈ children a) : IsTree children c := by
  refine ⟨fun hb => h.nodup (.head hc hb), fun hb hb' => h.once (.head hc hb) (.head hc hb'),
    fun {b} hb hcb => ?_⟩
  obtain rfl : b = a := h.once (.head hc hb) (.refl a) hcb hc
  exact h.not_below hc hb

/-- Of two nodes above a third one, one is above the other. -/
theorem IsTree.total (h : IsTree children a) (hb : Below children a b) (hc : Below children a c)
    (hbx : Below children b x) (hcx : Below children c x) :
    Below children b c ∨ Below children c b := by
  induction hbx with
  | refl => exact .inr hcx
  | @tail y x hby hyx ih =>
    rcases Relation.ReflTransGen.cases_tail hcx with rfl | ⟨z, hcz, hzx⟩
    · exact .inl (hby.tail hyx)
    · obtain rfl : z = y := h.once (hc.trans hcz) (hb.trans hby) hzx hyx
      exact ih hcz

/-- What is below different children is different. -/
theorem IsTree.disjoint (h : IsTree children a) (hb : b ∈ children a) (hc : c ∈ children a)
    (hbx : Below children b x) (hcx : Below children c x) : b = c := by
  have hchild : ∀ {b c}, b ∈ children a → c ∈ children a → Below children b c → b = c := by
    intro b c hb hc hbc
    rcases Relation.ReflTransGen.cases_tail hbc with rfl | ⟨y, hby, hyc⟩
    · rfl
    · obtain rfl : y = a := h.once (.head hb hby) (.refl a) hyc hc
      exact absurd hby (h.not_below hb)
  rcases h.total (.head hb (.refl b)) (.head hc (.refl c)) hbx hcx with hbc | hcb
  · exact hchild hb hc hbc
  · exact (hchild hc hb hcb).symm

/-- In a tree nothing is listed twice. -/
theorem IsTree.nodup_preorder (h : IsTree children a) (n : Nat) :
    (preorder children n a).Nodup := by
  induction n generalizing a with
  | zero => exact List.nodup_nil
  | succ n ih =>
    refine List.nodup_cons.mpr ⟨fun hmem => ?_, List.nodup_flatMap.mpr ⟨fun c hc => ?_, ?_⟩⟩
    · obtain ⟨c, hc, ha⟩ := List.mem_flatMap.mp hmem
      exact h.not_below hc (below_of_mem_preorder ha)
    · exact ih (h.child hc)
    · refine (List.nodup_iff_pairwise_ne.mp (h.nodup (.refl a))).imp_of_mem ?_
      intro b c hb hc hne x hbx hcx
      exact hne (h.disjoint hb hc (below_of_mem_preorder hbx) (below_of_mem_preorder hcx))

/-! ## 3. Parents first -/

/-- The nodes of a list of subtrees: each is at the top of one, or comes behind its parent. -/
theorem guarded_flatMap {f : α → List α}
    (hf : ∀ c, Guarded (fun x pre => x = c ∨ ∃ p ∈ pre, x ∈ children p) (f c)) (cs : List α) :
    Guarded (fun x pre => x ∈ cs ∨ ∃ p ∈ pre, x ∈ children p) (cs.flatMap f) := by
  induction cs with
  | nil => exact guarded_nil
  | cons c cs ih =>
    intro pre x post heq
    rw [List.flatMap_cons] at heq
    rcases List.append_eq_append_iff.mp heq with ⟨l, rfl, hl⟩ | ⟨l, hl, hrest⟩
    · rcases ih l x post hl with hx | ⟨p, hp, hx⟩
      · exact .inl (List.mem_cons_of_mem c hx)
      · exact .inr ⟨p, List.mem_append_right _ hp, hx⟩
    · cases l with
      | nil =>
        rcases ih [] x post hrest.symm with hx | ⟨p, hp, -⟩
        · exact .inl (List.mem_cons_of_mem c hx)
        · cases hp
      | cons y l =>
        obtain ⟨rfl, -⟩ := List.cons.inj hrest
        rcases hf c pre x l hl with rfl | hx
        · exact .inl List.mem_cons_self
        · exact .inr hx

/-- A node is the first one, or comes behind its parent. -/
theorem guarded_preorder (n : Nat) (a : α) :
    Guarded (fun x pre => x = a ∨ ∃ p ∈ pre, x ∈ children p) (preorder children n a) := by
  induction n generalizing a with
  | zero => exact guarded_nil
  | succ n ih =>
    intro pre x post heq
    rw [preorder] at heq
    cases pre with
    | nil => exact .inl (List.cons.inj heq).1.symm
    | cons y pre =>
      obtain ⟨rfl, hrest⟩ := List.cons.inj heq
      rcases guarded_flatMap ih (children a) pre x post hrest with hx | ⟨p, hp, hx⟩
      · exact .inr ⟨a, List.mem_cons_self, hx⟩
      · exact .inr ⟨p, List.mem_cons_of_mem a hp, hx⟩

end PosixLab
