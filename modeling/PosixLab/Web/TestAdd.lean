/-
# The program that adds

`test_add.c` is run by the server with the query string in its environment, or with the body of a
POST at its standard input, of which it reads one line, and no more than its array holds.  It
looks for the first `a=` and the first `b=` anywhere in the text and adds the numbers behind them.

So it is the pairs before the right one that decide, and how much of the text is seen
(`FirstReads`).  The sum has to be an `int` as well (`adder_iff`).
-/
import PosixLab.Basis.Decimal
import PosixLab.Basis.Lines
import PosixLab.Basis.Search

namespace PosixLab.Web

open PosixLab

/-! ## 1. The program -/

/-- What the program gets: two variables of its environment, and its standard input. -/
structure CgiEnv where
  method : Option Bytes
  query : Option Bytes
  stdin : Bytes

/-- The size of `post_data`. -/
def postSize : Nat := 1024

/-- What `fgets` stores from the standard input. -/
def postData (stdin : Bytes) : Bytes := cstr (chunk (· == 10) (postSize - 1) stdin)

/-- What is printed of the text that was sent, and the variable `query`. -/
def received (env : CgiEnv) : Bytes × Option Bytes :=
  if env.method = some (utf8 "GET") then
    match env.query with
    | some query => (utf8 "<p>GET Data: " ++ query ++ utf8 "</p>", some query)
    | none => ([], none)
  else if env.method = some (utf8 "POST") then
    if env.stdin = [] then ([], none)
    else
      (utf8 "<p>POST Data: " ++ postData env.stdin ++ utf8 "</p>", some (postData env.stdin))
  else ([], none)

/-- The number behind the first place where the text has `c=`. -/
def behind (c : Byte) (text : Bytes) : Option Int :=
  (strstr [c, 61] text).map fun ptr => atoi (ptr.drop 2)

/-- The line that is printed for a sum. -/
def sumText (a b sum : Int) : Bytes :=
  utf8 "<h2>Calculation: " ++ decimal a ++ utf8 " + " ++ decimal b ++ utf8 " = " ++ decimal sum ++
    utf8 "</h2>"

/-- The sum of two values of type `int`, which wraps around. -/
def intAdd (a b : Int) : Int := (a + b).bmod (2 ^ 32)

/-- The calculation; nothing is printed unless both numbers are found. -/
def calculation (query : Bytes) : Bytes :=
  match behind 97 query, behind 98 query with
  | some a, some b => sumText a b (intAdd a b)
  | _, _ => []

/-- What is printed before the calculation. -/
def pageHead (env : CgiEnv) : Bytes :=
  utf8 "Content-type: text/html\r\n\r\n" ++ utf8 "<html><body>" ++ utf8 "<h1>CGI Result</h1>" ++
    utf8 "<p>Method: " ++ env.method.getD (utf8 "(null)") ++ utf8 "</p>" ++ (received env).1

/-- All that `main` prints. -/
def testAdd (env : CgiEnv) : Bytes :=
  pageHead env ++ ((received env).2.elim [] calculation) ++ utf8 "</body></html>"

/-! ## 2. Pairs -/

/-- A key and its value. -/
abbrev Pair := Bytes × Bytes

def pairText (p : Pair) : Bytes := p.1 ++ 61 :: p.2

/-- The text of some pairs: `key=value`, joined by `&`. -/
def joinPairs : List Pair → Bytes
  | [] => []
  | [p] => pairText p
  | p :: q :: ps => pairText p ++ 38 :: joinPairs (q :: ps)

/-- A value that is a decimal number for an `int`. -/
def IsIntText (text : Bytes) (n : Int) : Prop :=
  IsInt n ∧ ∃ ds, ds ≠ [] ∧ (∀ b ∈ ds, isdigit b = true) ∧
    ((text = ds ∧ n = digitsValue 0 ds) ∨ (text = 45 :: ds ∧ n = -(digitsValue 0 ds : Int)) ∨
      (text = 43 :: ds ∧ n = digitsValue 0 ds))

/-- The key occurs exactly once, with this number. -/
def OnceWith (ps : List Pair) (key : Bytes) (n : Int) : Prop :=
  ∃ text, ps.filter (·.1 == key) = [(key, text)] ∧ IsIntText text n

/-- Pairs that can be told apart in their text. -/
structure WellFormed (ps : List Pair) : Prop where
  nulFree : NulFree (joinPairs ps)
  key : ∀ p ∈ ps, 61 ∉ p.1 ∧ 38 ∉ p.1
  value : ∀ p ∈ ps, 38 ∉ p.2

/-- The text is the query string of a GET, or the body of a POST. -/
def CgiEnv.Sends (env : CgiEnv) (text : Bytes) : Prop :=
  (env.method = some (utf8 "GET") ∧ env.query = some text) ∨
    (env.method = some (utf8 "POST") ∧ env.stdin = text)

/-- How many bytes of what was sent the program looks at: of a POST the first line, as far as it
fits into the array. -/
def CgiEnv.seen (env : CgiEnv) (text : Bytes) : Nat :=
  if env.method = some (utf8 "GET") then text.length
  else (chunk (· == 10) (postSize - 1) text).length

/-- Of the pairs in the first `seen` bytes, the first one with `c=` in it has `n` behind that. -/
def FirstReads (c : Byte) (n : Int) : Nat → List Pair → Prop
  | _, [] => False
  | seen, p :: ps =>
    match strstr [c, 61] ((pairText p).take seen) with
    | some found => atoi (found.drop 2) = n
    | none => FirstReads c n (seen - ((pairText p).length + 1)) ps

instance decidableFirstReads (c : Byte) (n : Int) :
    (seen : Nat) → (ps : List Pair) → Decidable (FirstReads c n seen ps)
  | _, [] => isFalse id
  | seen, p :: ps =>
    match h : strstr [c, 61] ((pairText p).take seen) with
    | some found => decidable_of_iff (atoi (found.drop 2) = n) (by rw [FirstReads, h])
    | none =>
      have := decidableFirstReads c n (seen - ((pairText p).length + 1)) ps
      decidable_of_iff (FirstReads c n (seen - ((pairText p).length + 1)) ps)
        (by rw [FirstReads, h])

/-- The page shows the two numbers and their sum. -/
def ShowsSum (env : CgiEnv) (a b : Int) : Prop :=
  testAdd env = pageHead env ++ sumText a b (a + b) ++ utf8 "</body></html>"

/-! ## 3. Searching from pair to pair -/

section

variable {c : Byte} {n : Int}

/-- An `&` ends both the search and the number. -/
theorem behind_append (hc : c ≠ 38) (p rest : Bytes) :
    behind c (p ++ 38 :: rest) =
      match strstr [c, 61] p with
      | some found => some (atoi (found.drop 2))
      | none => behind c rest := by
  have hmem : (38 : Byte) ∉ [c, 61] := by simp [hc.symm]
  rw [behind, strstr_append_sep hmem (by simp)]
  cases ht : strstr [c, 61] p with
  | none => rfl
  | some t =>
    obtain ⟨u, rfl⟩ : ∃ u, t = c :: 61 :: u := by
      obtain ⟨u, hu⟩ := strstr_prefix ht
      exact ⟨u, hu.symm⟩
    have hnum : atoi (u ++ 38 :: rest) = atoi u :=
      atoi_append (by decide) (by decide) (by decide) (by decide) u rest
    simp [hnum]

/-- The search sees the pairs one by one, as far as the text is seen. -/
theorem behind_joinPairs (hc : c ≠ 38) (ps : List Pair) (seen : Nat) :
    behind c ((joinPairs ps).take seen) = some n ↔ FirstReads c n seen ps := by
  induction ps generalizing seen with
  | nil => simp [joinPairs, behind, strstr, FirstReads]
  | cons p ps ih =>
    have hlast : behind c ((pairText p).take seen) = some n ↔
        FirstReads c n seen [p] := by
      rw [behind, FirstReads]
      cases strstr [c, 61] ((pairText p).take seen) <;> simp [FirstReads]
    cases ps with
    | nil => exact hlast
    | cons q ps =>
      rw [joinPairs, FirstReads]
      by_cases hle : seen ≤ (pairText p).length
      · -- the rest is not seen
        have hnone : ¬FirstReads c n 0 (q :: ps) := by
          rw [← ih]
          simp [behind, strstr]
        rw [List.take_append_of_le_length hle, hlast, FirstReads,
          Nat.sub_eq_zero_of_le (Nat.le_succ_of_le hle)]
        cases strstr [c, 61] ((pairText p).take seen) with
        | some found => exact Iff.rfl
        | none => exact ⟨False.elim, hnone⟩
      · have hcut : (pairText p ++ 38 :: joinPairs (q :: ps)).take seen =
            pairText p ++ 38 :: (joinPairs (q :: ps)).take (seen - ((pairText p).length + 1)) := by
          obtain ⟨k, rfl⟩ : ∃ k, seen = (pairText p).length + (k + 1) :=
            ⟨seen - (pairText p).length - 1, by omega⟩
          rw [List.take_length_add_append, List.take_succ_cons]
          congr 3
          omega
        have hall : (pairText p).take seen = pairText p := List.take_of_length_le (by omega)
        rw [hcut, behind_append hc, hall]
        cases strstr [c, 61] (pairText p) with
        | some found => simp
        | none => exact ih _

/-- A value is read as the number it stands for. -/
theorem atoi_of_isIntText {text : Bytes} (h : IsIntText text n) : atoi text = n := by
  obtain ⟨hint, ds, hne, hds, hform⟩ := h
  have hstrtol : strtol text = n := by
    rcases hform with ⟨rfl, rfl⟩ | ⟨rfl, rfl⟩ | ⟨rfl, rfl⟩
    · cases text with
      | nil => exact absurd rfl hne
      | cons b ds =>
        have hb : 48 ≤ b ∧ b ≤ 57 := by simpa [isdigit] using hds b List.mem_cons_self
        have hspace : isspace b = false := by
          have h13 : ¬b ≤ 13 := fun hle => absurd (UInt8.le_trans hb.1 hle) (by decide)
          have h32 : b ≠ 32 := fun he => absurd (he ▸ hb.1) (by decide)
          simp [isspace, h13, h32]
        have hminus : b ≠ 45 := fun he => absurd (he ▸ hb.1) (by decide)
        have hplus : b ≠ 43 := fun he => absurd (he ▸ hb.1) (by decide)
        simp [strtol, hspace, hminus, hplus]
    · rfl
    · rfl
  rw [atoi, hstrtol, bmod_clampLong hint]

theorem length_joinPairs (p : Pair) (ps : List Pair) :
    (pairText p).length ≤ (joinPairs (p :: ps)).length ∧
      (joinPairs ps).length ≤ (joinPairs (p :: ps)).length - ((pairText p).length + 1) := by
  cases ps with
  | nil => simp [joinPairs]
  | cons q ps =>
    simp only [joinPairs, List.length_append, List.length_cons]
    omega

/-- When the whole text is seen and `c=` stands in no other pair, the number of `c` is read. -/
theorem firstReads_of_once {ps : List Pair} {seen : Nat} (honce : OnceWith ps [c] n)
    (honly : ∀ p ∈ ps, [c, 61] <:+: pairText p → p.1 = [c])
    (hseen : (joinPairs ps).length ≤ seen) : FirstReads c n seen ps := by
  obtain ⟨text, hfilter, htext⟩ := honce
  induction ps generalizing seen with
  | nil => simp at hfilter
  | cons p ps ih =>
    obtain ⟨hp, hps⟩ := length_joinPairs p ps
    have hall : (pairText p).take seen = pairText p := List.take_of_length_le (hp.trans hseen)
    rw [FirstReads, hall]
    by_cases hkey : p.1 = [c]
    · rw [List.filter_cons_of_pos (by simp [hkey])] at hfilter
      obtain rfl : p = ([c], text) := (List.cons.inj hfilter).1
      have hfound : strstr [c, 61] (pairText ([c], text)) = some ([c, 61] ++ text) :=
        strstr_self_append [c, 61] text
      rw [hfound]
      exact atoi_of_isIntText htext
    · have hnone : strstr [c, 61] (pairText p) = none :=
        strstr_eq_none.mpr fun h => hkey (honly p List.mem_cons_self h)
      rw [hnone]
      rw [List.filter_cons_of_neg (by simp [hkey])] at hfilter
      exact ih (fun q hq => honly q (List.mem_cons_of_mem _ hq)) (by omega) hfilter

end

/-! ## 4. What is printed -/

/-- The first line that is sent, as far as the array holds it. -/
theorem received_query {env : CgiEnv} {text : Bytes} (hnul : NulFree text) (hne : text ≠ [])
    (hsends : env.Sends text) : (received env).2 = some (text.take (env.seen text)) := by
  rcases hsends with ⟨hmethod, hquery⟩ | ⟨hmethod, hstdin⟩
  · simp [received, CgiEnv.seen, hmethod, hquery]
  · have hpost : env.method ≠ some (utf8 "GET") := by
      rw [hmethod]
      decide
    have hchunk : chunk (· == 10) (postSize - 1) text <+: text := chunk_prefix _ _
    have hdata : postData text = chunk (· == 10) (postSize - 1) text :=
      cstr_of_nulFree fun b hb => hnul b (hchunk.subset hb)
    rw [received, if_neg hpost, if_pos hmethod, hstdin, if_neg hne, CgiEnv.seen, if_neg hpost,
      ← List.prefix_iff_eq_take.mp hchunk, hdata]

theorem sumText_inj {a b s a' b' s' : Int} (h : sumText a b s = sumText a' b' s') :
    a = a' ∧ b = b' ∧ s = s' := by
  simp only [sumText, List.append_assoc] at h
  obtain ⟨ha, h₁⟩ := decimal_append_inj rfl rfl (List.append_cancel_left h)
  obtain ⟨hb, h₂⟩ := decimal_append_inj rfl rfl (List.append_cancel_left h₁)
  obtain ⟨hs, -⟩ := decimal_append_inj rfl rfl (List.append_cancel_left h₂)
  exact ⟨ha, hb, hs⟩

/-- The sum is exact as long as it is an `int`. -/
theorem intAdd_eq_iff (a b : Int) : intAdd a b = a + b ↔ IsInt (a + b) := by
  rw [intAdd, IsInt, Int.bmod_eq_iff (by decide)]
  norm_num

theorem calculation_eq_iff (query : Bytes) (a b : Int) :
    calculation query = sumText a b (a + b) ↔
      behind 97 query = some a ∧ behind 98 query = some b ∧ IsInt (a + b) := by
  have hne : sumText a b (a + b) ≠ [] := by simp [sumText, utf8]
  rw [← intAdd_eq_iff, calculation]
  cases behind 97 query with
  | none => simp [hne.symm]
  | some x =>
    cases behind 98 query with
    | none => simp [hne.symm]
    | some y =>
      constructor
      · intro h
        obtain ⟨rfl, rfl, hsum⟩ := sumText_inj h
        exact ⟨rfl, rfl, hsum⟩
      · rintro ⟨hx, hy, hsum⟩
        obtain rfl := Option.some.inj hx
        obtain rfl := Option.some.inj hy
        exact congrArg (sumText x y) hsum

/-- The line of the sum is between the head of the page and its end. -/
theorem showsSum_iff {env : CgiEnv} {query : Bytes} (hquery : (received env).2 = some query)
    (a b : Int) :
    ShowsSum env a b ↔ behind 97 query = some a ∧ behind 98 query = some b ∧ IsInt (a + b) := by
  rw [ShowsSum, testAdd, hquery, Option.elim_some, List.append_cancel_right_eq,
    List.append_cancel_left_eq, calculation_eq_iff]

/-- The page shows the numbers of `a` and `b` and their sum if and only if the first pair with
`a=` in it has the number of `a`, the first one with `b=` that of `b`, and the sum is an `int`.
If all is seen, and no other pair has `a=` or `b=` in it, only the last of these is left. -/
theorem adder_iff {env : CgiEnv} {ps : List Pair} {a b : Int} (hps : WellFormed ps)
    (ha : OnceWith ps (utf8 "a") a) (hb : OnceWith ps (utf8 "b") b)
    (hsends : env.Sends (joinPairs ps)) :
    (ShowsSum env a b ↔
      FirstReads 97 a (env.seen (joinPairs ps)) ps ∧
        FirstReads 98 b (env.seen (joinPairs ps)) ps ∧ IsInt (a + b)) ∧
    ((∀ p ∈ ps, (utf8 "a=" <:+: pairText p → p.1 = utf8 "a") ∧
        (utf8 "b=" <:+: pairText p → p.1 = utf8 "b")) →
      (joinPairs ps).length ≤ env.seen (joinPairs ps) → (ShowsSum env a b ↔ IsInt (a + b))) := by
  have hne : joinPairs ps ≠ [] := by
    intro hnil
    cases ps with
    | nil =>
      obtain ⟨text, hfilter, -⟩ := ha
      cases hfilter
    | cons p ps =>
      have hp := (length_joinPairs p ps).1
      rw [hnil] at hp
      simp [pairText] at hp
  have hiff := showsSum_iff (received_query hps.nulFree hne hsends) a b
  rw [behind_joinPairs (by decide), behind_joinPairs (by decide)] at hiff
  refine ⟨hiff, fun honly hseen => ?_⟩
  have hfirst : FirstReads 97 a (env.seen (joinPairs ps)) ps :=
    firstReads_of_once ha (fun p hp => (honly p hp).1) hseen
  have hsecond : FirstReads 98 b (env.seen (joinPairs ps)) ps :=
    firstReads_of_once hb (fun p hp => (honly p hp).2) hseen
  rw [hiff]
  exact ⟨fun h => h.2.2, fun h => ⟨hfirst, hsecond, h⟩⟩

/-- Three pairs, of which the last two are looked for. -/
def threePairs (key : Bytes) : List Pair :=
  [(key, utf8 "5"), (utf8 "a", utf8 "3"), (utf8 "b", utf8 "4")]

def getEnv (query : Bytes) : CgiEnv := ⟨some (utf8 "GET"), some query, []⟩

theorem wellFormed_threePairs {key : Bytes} (hnul : 0 ∉ key) (h : 61 ∉ key ∧ 38 ∉ key) :
    WellFormed (threePairs key) where
  nulFree := .of_notMem (by simp [threePairs, joinPairs, pairText, hnul]; decide)
  key := by
    simp only [threePairs, List.forall_mem_cons]
    exact ⟨h, by decide, by decide, by simp⟩
  value := by
    simp only [threePairs, List.forall_mem_cons]
    exact ⟨by decide, by decide, by decide, by simp⟩

theorem onceWith_threePairs (key : Bytes) (ha : key ≠ utf8 "a") (hb : key ≠ utf8 "b") :
    OnceWith (threePairs key) (utf8 "a") 3 ∧ OnceWith (threePairs key) (utf8 "b") 4 := by
  have hab : utf8 "a" ≠ utf8 "b" := by decide
  have hdigit : ∀ d, isdigit d = true → ∀ b ∈ [d], isdigit b = true :=
    fun d h => List.forall_mem_singleton.mpr h
  refine ⟨⟨utf8 "3", ?_, by decide, utf8 "3", by decide, hdigit 51 (by decide), ?_⟩,
    ⟨utf8 "4", ?_, by decide, utf8 "4", by decide, hdigit 52 (by decide), ?_⟩⟩
  · simp [threePairs, ha, hab.symm]
  · exact Or.inl ⟨rfl, by decide⟩
  · simp [threePairs, hb, hab]
  · exact Or.inl ⟨rfl, by decide⟩

theorem adder_iff_other : ShowsSum (getEnv (joinPairs (threePairs (utf8 "x")))) 3 4 := by
  have honce := onceWith_threePairs (utf8 "x") (by decide) (by decide)
  refine ((adder_iff (wellFormed_threePairs (by decide) (by decide)) honce.1 honce.2
    (Or.inl ⟨rfl, rfl⟩)).1).mpr ⟨?_, ?_, by decide⟩
  · decide
  · decide

/-- A key that ends in `a` stands before `a`. -/
theorem other_key_read :
    WellFormed (threePairs (utf8 "ba")) ∧ OnceWith (threePairs (utf8 "ba")) (utf8 "a") 3 ∧
      OnceWith (threePairs (utf8 "ba")) (utf8 "b") 4 ∧
      ¬ShowsSum (getEnv (joinPairs (threePairs (utf8 "ba")))) 3 4 := by
  have honce := onceWith_threePairs (utf8 "ba") (by decide) (by decide)
  refine ⟨wellFormed_threePairs (by decide) (by decide), honce.1, honce.2, fun h => ?_⟩
  have hfive : behind 97 (joinPairs (threePairs (utf8 "ba"))) = some 5 := by decide
  have hthree := ((showsSum_iff rfl 3 4).mp h).1
  rw [hfive] at hthree
  exact absurd hthree (by decide)

end PosixLab.Web
