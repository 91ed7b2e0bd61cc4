/-
# The file or program of a request

Both branches of `handle_request` turn the target of a request into a path below the server's
directory, by a `.` in front of it or by dropping its first byte, and neither looks at what the
target is made of.  The program branch cuts the query off, but the tests before it do not.

`served_confined_iff` says which targets stay in the directory, and `same_resource_iff` for
which paths the query does not matter.
-/
import PosixLab.Basis.Paths
import PosixLab.Web.Request

namespace PosixLab.Web

open PosixLab

/-- The file or program that a request is answered from. -/
def served (data method₀ file₀ : Bytes) : Option Resource :=
  (handleRequest data method₀ file₀).map Response.resource

def Resource.path : Resource → Option Bytes
  | .nothing => none
  | .program path => some path
  | .file path => some path

/-- The path that is opened or executed. -/
def servedPath (data method₀ file₀ : Bytes) : Option Bytes :=
  (served data method₀ file₀).bind Resource.path

/-- The resource of a target. -/
def targetResource (f : Bytes) : Resource :=
  if isCgi f then .program (programPath f) else .file (filePath (indexPage f))

section

variable {data method₀ file₀ m f : Bytes} {ws : List Bytes}

theorem respond_resource (m f : Bytes) (body : Option Bytes) :
    (respond m f body).resource = targetResource f := by
  have hindex : isCgi (indexPage f) = isCgi f := by
    unfold indexPage
    split
    · rename_i h
      rw [h]
      decide
    · rfl
  unfold respond targetResource
  rw [hindex]
  split
  · rename_i h
    rw [indexPage_of_isCgi h]
    rfl
  · rfl

theorem served_words (h : words (cstr data) = m :: f :: ws) (hm : m.length < 10)
    (hf : f.length < 100) : served data method₀ file₀ = some (targetResource f) := by
  rw [served, handleRequest_words h hm hf, Option.map_some, respond_resource]

/-! ## 1. Staying in the directory -/

/-- The target leads to a path that does not leave the directory of the server. -/
def targetConfined (f : Bytes) : Bool :=
  if isCgi f then staysWithin (programPath f) else staysWithin (filePath f)

/-- For every request whose first two words fit: the path that is opened or executed leads to a
place in the server's directory, whatever directory that is, exactly if the path is relative
and has at no component more `..` than names before it. -/
theorem served_confined_iff (h : words (cstr data) = m :: f :: ws) (hm : m.length < 10)
    (hf : f.length < 100) :
    (∀ path, servedPath data method₀ file₀ = some path →
      ∀ cwd : List Bytes, (∀ name ∈ cwd, IsName name) → cwd <+: resolvePath cwd path) ↔
      targetConfined f = true := by
  -- the index page is in the directory, and so is `./`
  have hindex : staysWithin (filePath (indexPage f)) = staysWithin (filePath f) := by
    unfold indexPage
    split
    · rename_i hf
      rw [hf]
      decide
    · rfl
  have hpath : servedPath data method₀ file₀ =
      some (if isCgi f then programPath f else filePath (indexPage f)) := by
    rw [servedPath, served_words h hm hf, targetResource]
    split <;> rfl
  simp only [hpath, Option.some.injEq, forall_eq', resolvePath_confined_iff, targetConfined]
  split
  · rfl
  · rw [hindex]

end

/-- An index page. -/
def getIndex : Bytes := utf8 "GET / HTTP/1.1\r\n\r\n"

theorem served_confined_getIndex :
    (∀ path, servedPath getIndex [] [] = some path →
      ∀ cwd : List Bytes, (∀ name ∈ cwd, IsName name) → cwd <+: resolvePath cwd path) ↔
      targetConfined (utf8 "/") = true := by
  have hwords : words (cstr getIndex) = [utf8 "GET", utf8 "/", utf8 "HTTP/1.1"] := by
    decide
  exact served_confined_iff hwords (by decide) (by decide)

/-- The directory `/srv/www`. -/
def srvWww : List Bytes := [utf8 "srv", utf8 "www"]

/-- Two requests that leave it: by `..`, and by a second slash in front of a program. -/
theorem served_outside :
    (∃ path, servedPath (utf8 "GET /../key HTTP/1.1\r\n\r\n") [] [] = some path ∧
      resolvePath srvWww path = [utf8 "srv", utf8 "key"] ∧ ¬srvWww <+: resolvePath srvWww path) ∧
    ∃ path, servedPath (utf8 "GET //bin/a.cgi HTTP/1.1\r\n\r\n") [] [] = some path ∧
      resolvePath srvWww path = [utf8 "bin", utf8 "a.cgi"] ∧
        ¬srvWww <+: resolvePath srvWww path :=
  ⟨⟨utf8 "./../key", by decide, by decide, by decide⟩,
    ⟨utf8 "/bin/a.cgi", by decide, by decide, by decide⟩⟩

/-! ## 2. Requests as they are sent -/

/-- A text without blanks and NULs. -/
def Unbroken (w : Bytes) : Prop := ∀ b ∈ w, isspace b = false ∧ b ≠ 0

instance : DecidablePred Unbroken := fun w => inferInstanceAs (Decidable (∀ b ∈ w, _))

/-- The bytes of a request: a method, a target, and whatever follows. -/
def request (method target rest : Bytes) : Bytes := method ++ 32 :: (target ++ 32 :: rest)

/-- What one `read` gets of a request that is there in full. -/
def firstRead (bs : Bytes) : Bytes := bs.take (bufSize - 1)

section

variable {m p q₁ q₂ method₀ file₀ : Bytes}

/-- The first word of a text that is cut off somewhere. -/
theorem words_take {w : Bytes} (hw : Unbroken w) (hne : w ≠ []) (rest : Bytes) {k : Nat}
    (hk : 0 < k) :
    words (cstr ((w ++ 32 :: rest).take k)) =
      w.take k :: words (cstr (rest.take (k - w.length - 1))) := by
  have htake : NulFree (w.take k) := fun b hb => (hw b (List.mem_of_mem_take hb)).2
  have hword : IsWord (w.take k) := by
    refine ⟨fun h => ?_, fun b hb => (hw b (List.mem_of_mem_take hb)).1⟩
    rcases List.take_eq_nil_iff.mp h with h | h
    · omega
    · exact hne h
  rw [List.take_append, cstr_append htake]
  cases hj : k - w.length with
  | zero => simpa [cstr] using words_word hword
  | succ j =>
    have hsp : cstr (32 :: rest.take j) = 32 :: cstr (rest.take j) := rfl
    rw [List.take_succ_cons, hsp, words_word_append hword rfl, words_cons_space rfl,
      Nat.add_sub_cancel]

/-- A request is served exactly when its first two words fit. -/
theorem served_request {t : Bytes} (hm : Unbroken m) (hm₀ : m ≠ []) (ht : Unbroken t)
    (ht₀ : t ≠ []) (rest : Bytes) :
    served (firstRead (request m t rest)) method₀ file₀ =
      if m.length < 10 ∧ t.length < 100 then some (targetResource t) else none := by
  have hwords : words (cstr (firstRead (request m t rest))) = m.take 2047 ::
      words (cstr ((t ++ 32 :: rest).take (2047 - m.length - 1))) :=
    words_take hm hm₀ (t ++ 32 :: rest) (by decide)
  by_cases hfit : m.length < 10
  · have hmethod : m.take 2047 = m := List.take_of_length_le (by omega)
    rw [hmethod, words_take ht ht₀ rest (by omega)] at hwords
    by_cases hfit' : t.length < 100
    · have htarget : t.take (2047 - m.length - 1) = t := List.take_of_length_le (by omega)
      rw [htarget] at hwords
      rw [if_pos ⟨hfit, hfit'⟩]
      exact served_words hwords hfit hfit'
    · have hlong : 100 ≤ (t.take (2047 - m.length - 1)).length := by
        rw [List.length_take]
        omega
      rw [if_neg fun h => hfit' h.2, served, handleRequest_target hwords hlong, Option.map_none]
  · have hlong : 10 ≤ (m.take 2047).length := by
      rw [List.length_take]
      omega
    rw [if_neg fun h => hfit h.1, served, handleRequest_method hwords hlong, Option.map_none]

/-- The program of a path does not depend on the query. -/
theorem programPath_query (hp : Unbroken p) (hp₀ : p ≠ []) (hno : 63 ∉ p) (q : Bytes) :
    programPath (p ++ 63 :: q) = p.drop 1 ∧ programPath p = p.drop 1 := by
  have hnul : NulFree (p.drop 1) := fun b hb => (hp b (List.mem_of_mem_drop hb)).2
  have hall : ∀ b ∈ p, (b != 63) = true := by
    intro b hb
    have hne : b ≠ 63 := fun h => hno (h ▸ hb)
    simpa using hne
  constructor
  · have hcut : cutQuery (p ++ 63 :: q) = (p ++ 0 :: q, some q) := by
      unfold cutQuery
      rw [List.dropWhile_append_of_pos hall, List.takeWhile_append_of_pos hall]
      simp
    obtain ⟨b, p, rfl⟩ := List.exists_cons_of_ne_nil hp₀
    rw [programPath, hcut]
    exact cstr_append_zero hnul q
  · have hcut : cutQuery p = (p, none) := by
      unfold cutQuery
      rw [List.dropWhile_eq_nil_iff.mpr hall]
    rw [programPath, hcut, cstr_of_nulFree hnul]

theorem isCgi_append {q : Bytes} (h : isCgi p = true) : isCgi (p ++ q) = true := by
  rw [isCgi_iff] at h ⊢
  exact h.trans (List.prefix_append p q).isInfix

/-- A file is not found under another name with a query. -/
theorem targetResource_query_ne (hno : 63 ∉ p) (hfile : isCgi p = false) (q : Bytes) :
    targetResource p ≠ targetResource (p ++ 63 :: q) := by
  have hq : indexPage (p ++ 63 :: q) = p ++ 63 :: q := by
    refine if_neg fun h => ?_
    have hmem : (63 : Byte) ∈ utf8 "/" := by
      rw [← h]
      simp
    exact absurd hmem (by decide)
  have hmem : (63 : Byte) ∉ indexPage p := by
    unfold indexPage
    split
    · decide
    · exact hno
  rw [targetResource, if_neg (by simp [hfile]), targetResource, hq]
  split
  · exact Resource.noConfusion
  · intro h
    have heq : indexPage p = p ++ 63 :: q := List.tail_eq_of_cons_eq (Resource.file.inj h)
    rw [heq] at hmem
    simp at hmem

/-- For every method, every path without `?` and any two queries, with the same bytes behind
them: the three requests for the path, and for the path with each of the queries, are answered
from the same file or program exactly if the path itself has `.cgi` in it and the words fit. -/
theorem same_resource_iff (hm : Unbroken m) (hm₀ : m ≠ []) (hp : Unbroken p) (hp₀ : p ≠ [])
    (hno : 63 ∉ p) (hq₁ : Unbroken q₁) (hq₂ : Unbroken q₂) (rest : Bytes) :
    (∃ r, served (firstRead (request m p rest)) method₀ file₀ = some r ∧
        served (firstRead (request m (p ++ 63 :: q₁) rest)) method₀ file₀ = some r ∧
        served (firstRead (request m (p ++ 63 :: q₂) rest)) method₀ file₀ = some r) ↔
      utf8 ".cgi" <:+: p ∧ m.length < 10 ∧ (p ++ 63 :: q₁).length < 100 ∧
        (p ++ 63 :: q₂).length < 100 := by
  have hquery : ∀ {q : Bytes}, Unbroken q → Unbroken (p ++ 63 :: q) := by
    intro q hq b hb
    rcases List.mem_append.mp hb with hb | hb
    · exact hp b hb
    · rcases List.mem_cons.mp hb with rfl | hb
      · decide
      · exact hq b hb
  have hlen : (p ++ 63 :: q₁).length < 100 → p.length < 100 := by
    rw [List.length_append]
    omega
  rw [served_request hm hm₀ hp hp₀, served_request hm hm₀ (hquery hq₁) (by simp),
    served_request hm hm₀ (hquery hq₂) (by simp), ← isCgi_iff]
  constructor
  · rintro ⟨r, h, h₁, h₂⟩
    rw [Option.ite_none_right_eq_some] at h h₁ h₂
    refine ⟨?_, h.1.1, h₁.1.2, h₂.1.2⟩
    by_contra hfile
    have heq : targetResource p = targetResource (p ++ 63 :: q₁) :=
      Option.some.inj (h.2.trans h₁.2.symm)
    exact targetResource_query_ne hno (by simpa using hfile) q₁ heq
  · rintro ⟨hcgi, hfit, hfit₁, hfit₂⟩
    refine ⟨.program (p.drop 1), ?_, ?_, ?_⟩
    · rw [if_pos ⟨hfit, hlen hfit₁⟩, targetResource, if_pos hcgi,
        (programPath_query hp hp₀ hno q₁).2]
    · rw [if_pos ⟨hfit, hfit₁⟩, targetResource, if_pos (isCgi_append hcgi),
        (programPath_query hp hp₀ hno q₁).1]
    · rw [if_pos ⟨hfit, hfit₂⟩, targetResource, if_pos (isCgi_append hcgi),
        (programPath_query hp hp₀ hno q₂).1]

end

theorem same_resource_add :
    (∃ r, served (firstRead (request (utf8 "GET") (utf8 "/add.cgi") [])) [] [] = some r ∧
        served (firstRead (request (utf8 "GET") (utf8 "/add.cgi?a=1") [])) [] [] = some r ∧
        served (firstRead (request (utf8 "GET") (utf8 "/add.cgi?/a.html") [])) [] [] = some r) ↔
      utf8 ".cgi" <:+: utf8 "/add.cgi" ∧ (utf8 "GET").length < 10 ∧
        (utf8 "/add.cgi?a=1").length < 100 ∧ (utf8 "/add.cgi?/a.html").length < 100 := by
  have hq₁ : Unbroken (utf8 "a=1") := by decide +kernel
  have hq₂ : Unbroken (utf8 "/a.html") := by decide +kernel
  exact same_resource_iff (by decide +kernel) (by decide +kernel) (by decide +kernel)
    (by decide) (by decide) hq₁ hq₂ []

/-- The same page with two queries: a file whose name has the query in it, and a program. -/
theorem query_chooses :
    served (firstRead (request (utf8 "GET") (utf8 "/index.html") [])) [] [] =
        some (.file (utf8 "./index.html")) ∧
      served (firstRead (request (utf8 "GET") (utf8 "/index.html?v=2") [])) [] [] =
        some (.file (utf8 "./index.html?v=2")) ∧
      served (firstRead (request (utf8 "GET") (utf8 "/index.html?.cgi") [])) [] [] =
        some (.program (utf8 "index.html")) := by
  decide

end PosixLab.Web
