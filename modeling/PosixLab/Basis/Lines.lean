/-
# Lines, and the pieces of lines that fit into a buffer

A text is cut into lines behind each element that `stop` marks as the end of one (`lines`).  A
reader with a buffer for `n + 1` elements cuts it behind these, and also wherever its buffer is
full (`chunks`); `chunk` is what it gets in one call, as `fgets` does.  The chunks of a text are
those of its lines, one line after the other (`chunks_eq_flatMap_lines`), and a line is one chunk
exactly when it fits (`chunks_eq_singleton_iff`).
-/
import Mathlib.Data.List.Basic
import Mathlib.Data.List.Infix

namespace PosixLab

variable {α : Type*}

/-- Put an element in front of the first piece. -/
def glue (a : α) : List (List α) → List (List α)
  | [] => [[a]]
  | p :: ps => (a :: p) :: ps

/-- The lines of a text, each with the element that ends it. -/
def lines (stop : α → Bool) : List α → List (List α)
  | [] => []
  | a :: l => if stop a then [a] :: lines stop l else glue a (lines stop l)

/-- What fits into a buffer for so many elements, up to the end of the line. -/
def chunk (stop : α → Bool) : Nat → List α → List α
  | 0, _ => []
  | _ + 1, [] => []
  | n + 1, a :: l => if stop a then [a] else a :: chunk stop n l

/-- The chunks of a text, for a buffer of `n + 1` elements, when the first chunk has room for
`room` elements behind its first one. -/
def chunksFrom (stop : α → Bool) (n : Nat) : Nat → List α → List (List α)
  | _, [] => []
  | 0, a :: l => [a] :: chunksFrom stop n n l
  | room + 1, a :: l =>
    if stop a then [a] :: chunksFrom stop n n l else glue a (chunksFrom stop n room l)

/-- The chunks of a text, for a buffer of `n + 1` elements. -/
def chunks (stop : α → Bool) (n : Nat) (l : List α) : List (List α) := chunksFrom stop n n l

variable {stop : α → Bool} {n room : Nat} {l : List α}

/-! ## 1. Put together again -/

@[simp] theorem flatten_glue (a : α) (ps : List (List α)) :
    (glue a ps).flatten = a :: ps.flatten := by
  cases ps <;> rfl

theorem glue_append {ps : List (List α)} (h : ps ≠ []) (a : α) (qs : List (List α)) :
    glue a (ps ++ qs) = glue a ps ++ qs := by
  cases ps with
  | nil => exact absurd rfl h
  | cons p ps => rfl

theorem nil_notMem_glue {a : α} {ps : List (List α)} (h : [] ∉ ps) : [] ∉ glue a ps := by
  cases ps with
  | nil => simp [glue]
  | cons p ps =>
    intro hmem
    rcases List.mem_cons.mp hmem with hp | hp
    · cases hp
    · exact h (List.mem_cons_of_mem _ hp)

theorem flatten_lines (l : List α) : (lines stop l).flatten = l := by
  induction l with
  | nil => rfl
  | cons a l ih =>
    rw [lines]
    split <;> simp [ih]

theorem nil_notMem_lines (l : List α) : [] ∉ lines stop l := by
  induction l with
  | nil => simp [lines]
  | cons a l ih =>
    rw [lines]
    split
    · simpa using ih
    · exact nil_notMem_glue ih

theorem flatten_chunksFrom (l : List α) : (chunksFrom stop n room l).flatten = l := by
  induction l generalizing room with
  | nil => cases room <;> rfl
  | cons a l ih =>
    cases room with
    | zero => simp [chunksFrom, ih]
    | succ room =>
      rw [chunksFrom]
      split <;> simp [ih]

theorem flatten_chunks (l : List α) : (chunks stop n l).flatten = l := flatten_chunksFrom l

theorem nil_notMem_chunksFrom (l : List α) : [] ∉ chunksFrom stop n room l := by
  induction l generalizing room with
  | nil => cases room <;> simp [chunksFrom]
  | cons a l ih =>
    cases room with
    | zero => simpa [chunksFrom] using ih
    | succ room =>
      rw [chunksFrom]
      split
      · simpa using ih
      · exact nil_notMem_glue ih

theorem nil_notMem_chunks (l : List α) : [] ∉ chunks stop n l := nil_notMem_chunksFrom l

theorem chunksFrom_ne_nil (h : l ≠ []) : chunksFrom stop n room l ≠ [] := by
  intro hnil
  have hflat := @flatten_chunksFrom _ stop n room l
  rw [hnil] at hflat
  exact h hflat.symm

/-! ## 2. One piece after the other -/

/-- The first chunk is what one call gets. -/
theorem chunksFrom_cons (a : α) (l : List α) :
    chunksFrom stop n room (a :: l) =
      chunk stop (room + 1) (a :: l) ::
        chunks stop n ((a :: l).drop (chunk stop (room + 1) (a :: l)).length) := by
  induction l generalizing a room with
  | nil => cases room <;> cases hs : stop a <;> simp [chunksFrom, chunk, chunks, glue, hs]
  | cons b l ih =>
    cases room with
    | zero => cases hs : stop a <;> simp [chunksFrom, chunk, chunks, hs]
    | succ room =>
      cases hs : stop a with
      | true => simp [chunksFrom, chunk, chunks, hs]
      | false =>
        rw [chunksFrom, chunk]
        simp only [hs, Bool.false_eq_true, if_false, List.length_cons, List.drop_succ_cons]
        rw [ih]
        rfl

/-- One call gets the first part of the text. -/
theorem chunk_prefix (n : Nat) (l : List α) : chunk stop n l <+: l := by
  induction l generalizing n with
  | nil => cases n <;> exact List.nil_prefix
  | cons a l ih =>
    cases n with
    | zero => exact List.nil_prefix
    | succ n =>
      rw [chunk]
      split
      · exact List.prefix_append [a] l
      · exact (List.prefix_cons_inj a).mpr (ih n)

theorem chunks_cons (a : α) (l : List α) :
    chunks stop n (a :: l) =
      chunk stop (n + 1) (a :: l) ::
        chunks stop n ((a :: l).drop (chunk stop (n + 1) (a :: l)).length) :=
  chunksFrom_cons a l

/-- A buffer that is full before the end of a line holds a chunk. -/
theorem chunksFrom_full {p : List α} (hp : ∀ x ∈ p, stop x = false) (hlen : p.length = room + 1)
    (l : List α) : chunksFrom stop n room (p ++ l) = p :: chunks stop n l := by
  induction p generalizing room with
  | nil => cases hlen
  | cons a p ih =>
    have ha : stop a = false := hp a List.mem_cons_self
    cases room with
    | zero =>
      obtain rfl : p = [] := List.eq_nil_of_length_eq_zero (Nat.succ.inj hlen)
      rfl
    | succ room =>
      have hrest := ih (fun x hx => hp x (List.mem_cons_of_mem _ hx)) (Nat.succ.inj hlen)
      rw [List.cons_append, chunksFrom, hrest]
      simp [ha, glue]

/-- Up to the first end of a line all is one line. -/
theorem lines_append_stop {p : List α} (hp : ∀ x ∈ p, stop x = false) {a : α} (ha : stop a = true)
    (l : List α) : lines stop (p ++ a :: l) = (p ++ [a]) :: lines stop l := by
  induction p with
  | nil => simp [lines, ha]
  | cons x p ih =>
    have hx : stop x = false := hp x List.mem_cons_self
    rw [List.cons_append, lines, ih fun y hy => hp y (List.mem_cons_of_mem _ hy)]
    simp [hx, glue]

/-- Inside of a line nothing ends one, and a line that nothing ends has no other behind it. -/
theorem lines_cons_spec {p : List α} {ps : List (List α)} (h : lines stop l = p :: ps) :
    (∃ q a, p = q ++ [a] ∧ (∀ x ∈ q, stop x = false) ∧ stop a = true) ∨
      (∀ x ∈ p, stop x = false) ∧ ps = [] := by
  induction l generalizing p ps with
  | nil => cases h
  | cons x l ih =>
    rw [lines] at h
    split at h
    · rename_i hx
      cases h
      exact .inl ⟨[], x, rfl, by simp, hx⟩
    · rename_i hx
      have hx' : stop x = false := by simpa using hx
      cases hl : lines stop l with
      | nil =>
        rw [hl] at h
        cases h
        exact .inr ⟨by simpa using hx', rfl⟩
      | cons q qs =>
        rw [hl] at h
        cases h
        rcases ih hl with ⟨q', a, rfl, hq, ha⟩ | ⟨hq, rfl⟩
        · exact .inl ⟨x :: q', a, rfl, by simpa [hx'] using hq, ha⟩
        · exact .inr ⟨by simpa [hx'] using hq, rfl⟩

/-- The lines behind the first one. -/
theorem lines_tail {p : List α} {ps : List (List α)} (h : lines stop l = p :: ps) :
    lines stop ps.flatten = ps := by
  have hl : l = p ++ ps.flatten := by
    rw [← @flatten_lines _ stop l, h, List.flatten_cons]
  rcases lines_cons_spec h with ⟨q, a, rfl, hq, ha⟩ | ⟨-, rfl⟩
  · rw [hl, List.append_assoc, List.singleton_append, lines_append_stop hq ha] at h
    exact (List.cons.inj h).2
  · rfl

/-- From any line on the lines are these lines. -/
theorem lines_drop (l : List α) (k : Nat) :
    lines stop ((lines stop l).drop k).flatten = (lines stop l).drop k := by
  induction k with
  | zero => rw [List.drop_zero, flatten_lines]
  | succ k ih =>
    cases hk : (lines stop l).drop k with
    | nil =>
      have hnil : (lines stop l).drop (k + 1) = [] := by
        rw [List.drop_eq_nil_iff] at hk ⊢
        omega
      rw [hnil]
      rfl
    | cons p ps =>
      have hps : (lines stop l).drop (k + 1) = ps := by
        rw [← List.tail_drop, hk, List.tail_cons]
      rw [hk] at ih
      rw [hps, lines_tail ih]

/-- Behind the first end of a line stand the lines but the first one. -/
theorem tail_dropWhile_not (l : List α) :
    (l.dropWhile (!stop ·)).tail = ((lines stop l).drop 1).flatten := by
  induction l with
  | nil => rfl
  | cons a l ih =>
    rw [lines]
    cases ha : stop a with
    | true => simp [ha, flatten_lines]
    | false =>
      rw [List.dropWhile_cons_of_pos (by simp [ha]), ih]
      cases lines stop l <;> simp [glue]

/-! ## 3. The chunks of a line -/

theorem chunksFrom_eq_lines (l : List α) :
    chunksFrom stop n room l =
      match lines stop l with
      | [] => []
      | p :: ps => chunksFrom stop n room p ++ ps.flatMap (chunks stop n) := by
  induction l generalizing room with
  | nil => cases room <;> rfl
  | cons a l ih =>
    -- with a new buffer the rest is cut line by line
    have hrest : chunksFrom stop n n l = (lines stop l).flatMap (chunks stop n) := by
      rw [ih]
      cases lines stop l <;> rfl
    rw [lines]
    cases hs : stop a with
    | true =>
      cases room <;> simp [chunksFrom, hs, hrest]
    | false =>
      cases hl : lines stop l with
      | nil =>
        have hnil : l = [] := by simpa [hl] using (@flatten_lines _ stop l).symm
        cases room <;> simp [chunksFrom, hs, hnil, glue]
      | cons p ps =>
        cases room with
        | zero =>
          rw [hl] at hrest
          simp [chunksFrom, hrest, glue, chunks]
        | succ room =>
          have hp : p ≠ [] := by
            rintro rfl
            exact @nil_notMem_lines _ stop l (hl ▸ List.mem_cons_self)
          have hrec := @ih room
          rw [hl] at hrec
          simp only [chunksFrom, hs, hrec, glue, Bool.false_eq_true, if_false]
          exact glue_append (chunksFrom_ne_nil hp) a _

/-- The chunks of a text are the chunks of its lines. -/
theorem chunks_eq_flatMap_lines (l : List α) :
    chunks stop n l = (lines stop l).flatMap (chunks stop n) := by
  rw [chunks, chunksFrom_eq_lines]
  cases lines stop l <;> rfl

/-- A line is one chunk exactly when it fits into the buffer. -/
theorem chunksFrom_eq_singleton_iff {p : List α} (hne : p ≠ [])
    (hp : ∀ x ∈ p.dropLast, stop x = false) :
    chunksFrom stop n room p = [p] ↔ p.length ≤ room + 1 := by
  induction p generalizing room with
  | nil => exact absurd rfl hne
  | cons a p ih =>
    by_cases hnil : p = []
    · cases room <;> cases hs : stop a <;> simp [hnil, chunksFrom, glue, hs]
    · obtain ⟨b, q, rfl⟩ := List.exists_cons_of_ne_nil hnil
      have ha : stop a = false := hp a (by simp)
      have hq : ∀ x ∈ (b :: q).dropLast, stop x = false := by
        intro x hx
        exact hp x (by rw [List.dropLast_cons_of_ne_nil hnil]; exact List.mem_cons_of_mem _ hx)
      cases room with
      | zero => simp [chunksFrom]
      | succ room =>
        have hiff := @ih room hnil hq
        obtain ⟨c, cs, hcs⟩ := List.exists_cons_of_ne_nil
          (@chunksFrom_ne_nil _ stop n room _ hnil)
        rw [hcs] at hiff
        rw [chunksFrom, hcs]
        simp only [ha, Bool.false_eq_true, if_false, glue]
        rw [List.length_cons, Nat.add_le_add_iff_right, ← hiff]
        simp

theorem not_stop_of_mem_dropLast {p : List α} (h : p ∈ lines stop l) :
    ∀ x ∈ p.dropLast, stop x = false := by
  induction l generalizing p with
  | nil => cases h
  | cons a l ih =>
    rw [lines] at h
    split at h
    · rcases List.mem_cons.mp h with rfl | h
      · simp
      · exact ih h
    · rename_i ha
      have ha' : stop a = false := by simpa using ha
      cases hl : lines stop l with
      | nil =>
        rw [hl] at h
        obtain rfl : p = [a] := by simpa [glue] using h
        simp
      | cons q qs =>
        rw [hl] at h ih
        rcases List.mem_cons.mp h with rfl | h
        · intro x hx
          by_cases hq : q = []
          · simp [hq] at hx
          · rw [List.dropLast_cons_of_ne_nil hq] at hx
            rcases List.mem_cons.mp hx with rfl | hx
            · exact ha'
            · exact ih List.mem_cons_self x hx
        · exact ih (List.mem_cons_of_mem _ h)

theorem chunks_eq_singleton_iff {p : List α} (h : p ∈ lines stop l) :
    chunks stop n p = [p] ↔ p.length ≤ n + 1 := by
  refine chunksFrom_eq_singleton_iff ?_ (not_stop_of_mem_dropLast h)
  rintro rfl
  exact nil_notMem_lines l h

/-! ## 4. Some of the pieces -/

section

variable {hit : List α → Bool}

theorem length_flatten_filter_le (ps : List (List α)) :
    (ps.filter hit).flatten.length ≤ ps.flatten.length := by
  induction ps with
  | nil => simp
  | cons p ps ih =>
    rw [List.filter_cons]
    split
    · simp only [List.flatten_cons, List.length_append]
      omega
    · simp only [List.flatten_cons, List.length_append]
      omega

/-- Nothing is lost exactly when no piece is. -/
theorem flatten_filter_eq_iff {ps : List (List α)} (hne : [] ∉ ps) :
    (ps.filter hit).flatten = ps.flatten ↔ ∀ p ∈ ps, hit p = true := by
  constructor
  · intro h p hp
    by_contra hhit
    obtain ⟨qs, rs, rfl⟩ := List.append_of_mem hp
    have hpos : 0 < p.length := List.length_pos_of_ne_nil fun hnil => hne (hnil ▸ hp)
    have hlen := congrArg List.length h
    rw [List.filter_append, List.filter_cons_of_neg (by simpa using hhit)] at hlen
    simp only [List.flatten_append, List.flatten_cons, List.length_append] at hlen
    have hq := @length_flatten_filter_le _ hit qs
    have hr := @length_flatten_filter_le _ hit rs
    omega
  · intro h
    rw [List.filter_eq_self.mpr h]

variable (hmono : ∀ {p l : List α}, p <:+: l → hit p = true → hit l = true)
include hmono

/-- A line that is not chosen has no chunk that is. -/
theorem filter_chunks_eq_nil (hl : hit l = false) : (chunks stop n l).filter hit = [] := by
  rw [List.filter_eq_nil_iff]
  intro p hp hhit
  have hpart : p <:+: l := by
    rw [← @flatten_chunks _ stop n l]
    exact List.infix_of_mem_flatten hp
  rw [hmono hpart hhit] at hl
  cases hl

/-- The chosen chunks of a line are no longer than the line, if it is chosen. -/
theorem length_filter_chunks_le (l : List α) :
    ((chunks stop n l).filter hit).flatten.length ≤ ([l].filter hit).flatten.length := by
  cases hl : hit l with
  | true =>
    have h := @length_flatten_filter_le _ hit (chunks stop n l)
    rw [flatten_chunks] at h
    simpa [hl] using h
  | false =>
    rw [filter_chunks_eq_nil hmono hl]
    exact Nat.zero_le _

theorem length_filter_flatMap_le (ls : List (List α)) :
    ((ls.flatMap (chunks stop n)).filter hit).flatten.length ≤ (ls.filter hit).flatten.length := by
  induction ls with
  | nil => simp
  | cons l ls ih =>
    have hl := @length_filter_chunks_le _ stop n hit hmono l
    rw [List.flatMap_cons, List.filter_append, List.flatten_append, ← List.singleton_append,
      List.filter_append, List.flatten_append, List.length_append, List.length_append]
    omega

/-- Put together, the chosen chunks are the chosen lines exactly when every chunk of a chosen line
is chosen. -/
theorem filter_flatMap_eq_iff (ls : List (List α)) :
    ((ls.flatMap (chunks stop n)).filter hit).flatten = (ls.filter hit).flatten ↔
      ∀ l ∈ ls, hit l = true → ∀ p ∈ chunks stop n l, hit p = true := by
  induction ls with
  | nil => simp
  | cons l ls ih =>
    have hline : ((chunks stop n l).filter hit).flatten = ([l].filter hit).flatten ↔
        (hit l = true → ∀ p ∈ chunks stop n l, hit p = true) := by
      cases hl : hit l with
      | true =>
        have h := @flatten_filter_eq_iff _ hit _ (@nil_notMem_chunks _ stop n l)
        rw [flatten_chunks] at h
        simpa [hl] using h
      | false =>
        rw [filter_chunks_eq_nil hmono hl]
        simp [hl]
    rw [List.forall_mem_cons, ← ih, ← hline, List.flatMap_cons, List.filter_append,
      List.flatten_append, ← List.singleton_append, List.filter_append, List.flatten_append]
    constructor
    · intro h
      -- neither part can make up for the other
      have hl := @length_filter_chunks_le _ stop n hit hmono l
      have hls := @length_filter_flatMap_le _ stop n hit hmono ls
      have hlen := congrArg List.length h
      rw [List.length_append, List.length_append] at hlen
      exact List.append_inj h (by omega)
    · rintro ⟨h, h'⟩
      rw [h, h']

end

end PosixLab
