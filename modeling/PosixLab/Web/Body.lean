/-
# The body of a POST

The program of a `POST` is given what stands behind the first empty line, as a C string, and
`CONTENT_LENGTH` says how long that is.  Both come from the one `read` that `handle_request`
makes, so what counts is how much of the request that read gets.

`post_whole_iff` says when the program is given the body that was sent: when the one read gets
the whole request, the request has no NUL in it, and the target fits.
-/
import PosixLab.Web.Resource

namespace PosixLab.Web

open PosixLab

/-- A `POST` to a program: a header that ends at its first empty line, and a body. -/
structure PostRequest where
  target : Bytes
  /-- what follows the target, to the end of the empty line -/
  fields : Bytes
  body : Bytes
  isWord : IsWord target
  isCgi : utf8 ".cgi" <:+: target
  ends : emptyLine <:+ fields
  first : ¬emptyLine <:+: (utf8 "POST " ++ target ++ 32 :: fields).dropLast
  fits : (utf8 "POST " ++ target ++ 32 :: fields).length < bufSize - 1

namespace PostRequest

def header (r : PostRequest) : Bytes := utf8 "POST " ++ r.target ++ 32 :: r.fields

/-- The bytes that the client sends. -/
def bytes (r : PostRequest) : Bytes := r.header ++ r.body

variable {r : PostRequest} {data method₀ file₀ : Bytes}

theorem words_bytes (h : NulFree r.bytes) :
    ∃ ws, words (cstr r.bytes) = utf8 "POST" :: r.target :: ws := by
  have heq : r.bytes = utf8 "POST" ++ 32 :: (r.target ++ 32 :: (r.fields ++ r.body)) := by
    have hpost : utf8 "POST " = utf8 "POST" ++ [32] := by decide
    simp [bytes, header, hpost]
  have hpost : IsWord (utf8 "POST") := by
    refine ⟨by decide +kernel, by decide +kernel⟩
  refine ⟨words (r.fields ++ r.body), ?_⟩
  rw [cstr_of_nulFree h, heq, words_word_append hpost rfl, words_cons_space rfl,
    words_word_append r.isWord rfl, words_cons_space rfl]

/-- The empty line at the end of the header is the first one, whatever follows. -/
theorem strstr_header (r : PostRequest) (post : Bytes) :
    requestBody (r.header ++ post) = some post := by
  obtain ⟨pre, hpre⟩ := r.ends
  have hheader : r.header = (utf8 "POST " ++ r.target ++ 32 :: pre) ++ emptyLine := by
    simp [header, ← hpre]
  have hfirst : ¬emptyLine <:+:
      ((utf8 "POST " ++ r.target ++ 32 :: pre) ++ emptyLine).dropLast := by
    rw [← hheader]
    exact r.first
  rw [requestBody, hheader, strstr_append hfirst, Option.map_some]
  congr 1

/-- A read that stops in the header finds no empty line. -/
theorem requestBody_cut (hpre : data <+: r.header) (hne : data ≠ r.header) :
    requestBody (cstr data) = none := by
  have hlt : data.length < r.header.length :=
    Nat.lt_of_le_of_ne hpre.length_le fun h => hne (hpre.eq_of_length h)
  have hlast : data <+: r.header.dropLast := by
    refine List.prefix_of_prefix_length_le hpre (List.dropLast_prefix _) ?_
    rw [List.length_dropLast]
    omega
  have hcstr : cstr data <+: data := List.takeWhile_prefix _
  rw [requestBody, strstr_eq_none.mpr fun h => ?_, Option.map_none]
  exact r.first (h.trans (hcstr.trans hlast).isInfix)

/-- Where an empty line is found the header is there and has no NUL, and the body is cut off at
its first NUL. -/
theorem requestBody_eq_some {b : Bytes} (hdata : data <+: r.bytes)
    (h : requestBody (cstr data) = some b) :
    ∃ got, data = r.header ++ got ∧ got <+: r.body ∧ NulFree r.header ∧ b = cstr got := by
  -- the C string reaches behind the header
  have hheader : r.header <+: cstr data := by
    have hcstr : cstr data <+: r.header ++ r.body := (List.takeWhile_prefix _).trans hdata
    rcases List.prefix_or_prefix_of_prefix hcstr (List.prefix_append r.header r.body) with
      hpre | hpre
    · by_contra hnot
      have hne : cstr data ≠ r.header := fun heq => hnot (heq ▸ List.prefix_refl _)
      have hcut := requestBody_cut hpre hne
      rw [cstr_of_nulFree (nulFree_cstr data)] at hcut
      rw [hcut] at h
      cases h
    · exact hpre
  have hnul : NulFree r.header := fun x hx => nulFree_cstr data x (hheader.subset hx)
  obtain ⟨got, rfl⟩ := hheader.trans (List.takeWhile_prefix _)
  rw [cstr_append hnul, strstr_header] at h
  exact ⟨got, rfl, (List.prefix_append_right_inj _).mp hdata, hnul, (Option.some.inj h).symm⟩

end PostRequest

/-- For every `POST` request to a program, with any body, and whatever part of it the one read
gets: the program is given exactly the body, and its exact length, if and only if the read gets
the whole request, there is no NUL in it, and the target fits. -/
theorem post_whole_iff {data method₀ file₀ : Bytes} (r : PostRequest) (hdata : data <+: r.bytes) :
    (∃ run, handleRequest data method₀ file₀ = some (.cgi run) ∧ run.stdin = r.body ∧
        run.contentLength = some (decimal r.body.length)) ↔
      data = r.bytes ∧ NulFree r.bytes ∧ r.target.length < 100 := by
  constructor
  · rintro ⟨run, hrun, -, hlength⟩
    obtain ⟨method, file, rfl⟩ := handleRequest_cgi hrun
    obtain ⟨b, hb, hdec⟩ := Option.map_eq_some_iff.mp hlength
    obtain ⟨got, rfl, hgot, hheader, rfl⟩ := r.requestBody_eq_some hdata hb
    -- the length that is announced leaves no room for a loss
    have hlen : (cstr got).length = r.body.length := Int.ofNat.inj (decimal_inj hdec)
    have hcstr : (cstr got) <+: got := List.takeWhile_prefix _
    have hwhole : got = r.body :=
      hgot.eq_of_length (Nat.le_antisymm hgot.length_le (hlen ▸ hcstr.length_le))
    subst hwhole
    have hbody : NulFree r.body := hcstr.eq_of_length hlen ▸ nulFree_cstr r.body
    have hnul : NulFree r.bytes := hheader.append hbody
    refine ⟨rfl, hnul, ?_⟩
    by_contra hlong
    obtain ⟨ws, hwords⟩ := r.words_bytes hnul
    have hnone : handleRequest r.bytes method₀ file₀ = none :=
      handleRequest_target hwords (Nat.le_of_not_lt hlong)
    rw [show r.bytes = r.header ++ r.body from rfl, hrun] at hnone
    cases hnone
  · rintro ⟨rfl, hnul, hfit⟩
    obtain ⟨ws, hwords⟩ := r.words_bytes hnul
    have hbody : requestBody (cstr r.bytes) = some r.body := by
      rw [cstr_of_nulFree hnul]
      exact r.strstr_header r.body
    have hcgi : isCgi r.target = true := isCgi_iff.mpr r.isCgi
    refine ⟨cgiRun (utf8 "POST") r.target (some r.body), ?_, ?_, rfl⟩
    · rw [handleRequest_words hwords (by decide) hfit, hbody, respond,
        indexPage_of_isCgi hcgi, if_pos hcgi]
    · simp [cgiRun]

/-- A form is sent, with the body `a=1&b=2`. -/
def postForm : PostRequest where
  target := utf8 "/test_add.cgi"
  fields := utf8 "HTTP/1.1\r\n\r\n"
  body := utf8 "a=1&b=2"
  isWord := by refine ⟨by decide +kernel, by decide +kernel⟩
  isCgi := by decide
  ends := by decide
  first := by decide
  fits := by decide

theorem post_whole_postForm :
    (∃ run, handleRequest postForm.bytes [] [] = some (.cgi run) ∧ run.stdin = postForm.body ∧
        run.contentLength = some (decimal postForm.body.length)) ↔
      postForm.bytes = postForm.bytes ∧ NulFree postForm.bytes ∧ postForm.target.length < 100 :=
  post_whole_iff postForm (List.prefix_refl _)

/-- The same form in two segments: the read gets the header and the first three bytes of the
body. -/
theorem post_split : ∃ data run, data <+: postForm.bytes ∧
    handleRequest data [] [] = some (.cgi run) ∧ run.stdin = utf8 "a=1" ∧
      run.contentLength = some (utf8 "3") ∧ run.stdin ≠ postForm.body :=
  ⟨postForm.header ++ utf8 "a=1", cgiRun (utf8 "POST") (utf8 "/test_add.cgi") (some (utf8 "a=1")),
    by decide, by decide, by decide, by decide, by decide⟩

end PosixLab.Web
