/-
# A request to the web server

`handle_request` reads once, up to `BUF_SIZE - 1` bytes, into an array of NULs, and works on the
C string it finds there.  The first two words are the method and the target; the body is what
stands behind the first empty line.  A target with `.cgi` in it is run as a program, which gets
the body of a `POST` on its standard input, and every other target is sent as a file.

The model gives what becomes of a request: which file is opened, or which program is run with
which variables and which input.  Where a word does not fit its array C gives the request no
meaning, and neither does the model: the result is `none`.
-/
import PosixLab.Basis.Decimal
import PosixLab.Basis.Search

namespace PosixLab.Web

open PosixLab

/-! ## 1. The parts of a request -/

/-- `BUF_SIZE`. -/
def bufSize : Nat := 2048

/-- The call `sscanf(buf, "%s %s", method, file_name)`, with the strings that the arrays hold
before. -/
def requestLine (s method₀ file₀ : Bytes) : Option (Bytes × Bytes) :=
  let r := sscanf2 s method₀ file₀
  if r.1.length < 10 ∧ r.2.length < 100 then some r else none

/-- The empty line behind the header. -/
def emptyLine : Bytes := utf8 "\r\n\r\n"

/-- The variable `body`. -/
def requestBody (s : Bytes) : Option Bytes := (strstr emptyLine s).map (·.drop 4)

/-- The target `/` stands for the index page. -/
def indexPage (file : Bytes) : Bytes := if file = utf8 "/" then utf8 "/index.html" else file

/-- The test for a program. -/
def isCgi (file : Bytes) : Bool := (strstr (utf8 ".cgi") file).isSome

/-- The array `file_name` after `*query = 0`, and the text behind the first `?`. -/
def cutQuery (file : Bytes) : Bytes × Option Bytes :=
  match file.dropWhile (· != 63) with
  | [] => (file, none)
  | _ :: query => (file.takeWhile (· != 63) ++ 0 :: query, some query)

/-- The argument of `execl`. -/
def programPath (file : Bytes) : Bytes := cstr ((cutQuery file).1.drop 1)

/-- The argument of `open`. -/
def filePath (file : Bytes) : Bytes := 46 :: file

/-! ## 2. What becomes of it -/

/-- A program that is run: its path, the variables that are set for it, and what is written to
its standard input. -/
structure CgiRun where
  program : Bytes
  requestMethod : Bytes
  contentLength : Option Bytes
  queryString : Option Bytes
  stdin : Bytes
deriving DecidableEq

inductive Response
  | closed
  | cgi (run : CgiRun)
  | file (path : Bytes)
deriving DecidableEq

/-- The branch for programs. -/
def cgiRun (method file : Bytes) (body : Option Bytes) : CgiRun where
  program := programPath file
  requestMethod := method
  contentLength := body.map fun b => decimal b.length
  queryString := (cutQuery file).2
  stdin := if method = utf8 "POST" then body.getD [] else []

/-- What follows the parsing of the request. -/
def respond (method file : Bytes) (body : Option Bytes) : Response :=
  if isCgi (indexPage file) then .cgi (cgiRun method (indexPage file) body)
  else .file (filePath (indexPage file))

/-- The function `handle_request`, where the one `read` gives the bytes `data`; they are empty
where it ends or fails. -/
def handleRequest (data method₀ file₀ : Bytes) : Option Response :=
  if data = [] then some .closed
  else
    (requestLine (cstr data) method₀ file₀).map fun (method, file) =>
      respond method file (requestBody (cstr data))

/-- What a response is made from. -/
inductive Resource
  | nothing
  | program (path : Bytes)
  | file (path : Bytes)
deriving DecidableEq

def Response.resource : Response → Resource
  | .closed => .nothing
  | .cgi run => .program run.program
  | .file path => .file path

/-! ## 3. Requests by their words -/

section

variable {data method₀ file₀ m f : Bytes} {ws : List Bytes} {n : Nat}

/-- A request that has a word. -/
theorem handleRequest_eq (h : words (cstr data) = m :: ws) :
    handleRequest data method₀ file₀ =
      (requestLine (cstr data) method₀ file₀).map fun (method, file) =>
        respond method file (requestBody (cstr data)) := by
  refine if_neg ?_
  rintro rfl
  cases h

/-- A request whose first two words fit. -/
theorem handleRequest_words (h : words (cstr data) = m :: f :: ws) (hm : m.length < 10)
    (hf : f.length < 100) :
    handleRequest data method₀ file₀ = some (respond m f (requestBody (cstr data))) := by
  rw [handleRequest_eq h, requestLine, sscanf2_eq, h]
  simp [converted, hm, hf]

/-- A first word that does not fit. -/
theorem handleRequest_method (h : words (cstr data) = m :: ws) (hm : 10 ≤ m.length) :
    handleRequest data method₀ file₀ = none := by
  rw [handleRequest_eq h, requestLine, sscanf2_eq, h]
  simp [converted]
  omega

/-- A second word that does not fit. -/
theorem handleRequest_target (h : words (cstr data) = m :: f :: ws) (hf : 100 ≤ f.length) :
    handleRequest data method₀ file₀ = none := by
  rw [handleRequest_eq h, requestLine, sscanf2_eq, h]
  simp [converted]
  omega

/-- A program that is run gets the body of the request. -/
theorem handleRequest_cgi {run : CgiRun} (h : handleRequest data method₀ file₀ = some (.cgi run)) :
    ∃ method file, run = cgiRun method file (requestBody (cstr data)) := by
  unfold handleRequest at h
  split at h
  · cases h
  · obtain ⟨⟨method, file⟩, -, hr⟩ := Option.map_eq_some_iff.mp h
    simp only [respond] at hr
    split at hr
    · exact ⟨method, indexPage file, (Response.cgi.inj hr).symm⟩
    · cases hr

theorem isCgi_iff : isCgi f = true ↔ utf8 ".cgi" <:+: f := strstr_isSome

theorem indexPage_of_isCgi (h : isCgi f = true) : indexPage f = f := by
  have hne : f ≠ utf8 "/" := by
    rintro rfl
    revert h
    decide
  exact if_neg hne

end

end PosixLab.Web
