import Nivren.Library.Codec
import Nivren.Library.Program
import Nivren.Library.Search
import Nivren.Library.Text

/-! HTTP responses.

`parse_http_response_details` finds the end of the headers, reads them line by line and then takes the
body: in chunks, by its length, or up to the end of the response. The last of these ways checks no bound.
-/

namespace Nivren.Http

open Codec Search Text

abbrev Headers := Std.ExtTreeMap String String

def crlf : List Char := ['\r', '\n']

/-- The bytes between the headers and the body. -/
def terminator : Bytes := [13, 10, 13, 10]

def lower (t : List Char) : List Char := t.map Char.toLower

/-- `entry(name).and_modify(push ", " and the value).or_insert(value)`. -/
def addHeader (headers : Headers) (name value : List Char) : Headers :=
  headers.insert (String.ofList name) (match headers[String.ofList name]? with
    | some existing => existing ++ ", " ++ String.ofList value
    | none => String.ofList value)

structure Head where
  code : ℕ
  headers : Headers
  contentLength : Option ℕ
  chunked : Bool

structure HttpResponse where
  code : ℕ
  headers : Headers
  body : Bytes
deriving DecidableEq

def statusCode (status : List Char) : Except String ℕ :=
  match splitWhitespace status with
  | protocol :: code :: _ =>
    match (decimal code).filter (· < 2 ^ 16) with
    | none => .error "invalid HTTP status code"
    | some code =>
      if ["HTTP/1.0".toList, "HTTP/1.1".toList].contains protocol then .ok code
      else .error "unsupported HTTP response version"
  | _ => .error "invalid HTTP status line"

def lengthOf (digits : List Char) : Option ℕ :=
  if digits = [] ∨ ¬ digits.all Char.isDigit then none else (decimal digits).filter (· < 2 ^ 64)

def headerLine (head : Head) (line : List Char) : Except String Head :=
  match splitOnce ':' line with
  | none => .error "invalid HTTP header"
  | some (name, value) =>
    let head := { head with headers := addHeader head.headers (lower name) (trim value) }
    if lower name = "content-length".toList then
      match lengthOf (trim value) with
      | none => .error "invalid Content-Length"
      | some length =>
        if head.contentLength.isSome then .error "duplicate Content-Length header"
        else .ok { head with contentLength := some length }
    else if lower name = "transfer-encoding".toList then
      .ok { head with
        chunked := (value.splitOn ',').any fun encoding => lower (trim encoding) = "chunked".toList }
    else .ok head

def headLines : List (List Char) → Except String Head
  | [] => .error "HTTP response has no status line"
  | status :: lines => do
    let code ← statusCode status
    lines.foldlM headerLine ⟨code, ∅, none, false⟩

/-- The headers of a response and the bytes behind them. -/
def responseHead (response : Bytes) : Except String (Head × Bytes) :=
  match position terminator response with
  | none => .error "HTTP response has no header terminator"
  | some boundary =>
    if 64 * 1024 < boundary then .error "HTTP response headers exceed 64 KiB"
    else match ofUtf8 (response.take boundary) with
    | none => .error "HTTP response headers are not UTF-8"
    | some headers => do
      let head ← headLines (splitText crlf headers.toList)
      return (head, response.drop (boundary + 4))

def hexDigits (t : List Char) : Option ℕ :=
  let digit (c : Char) : Option ℕ :=
    if c.isDigit then some (c.toNat - 48)
    else if 97 ≤ c.toLower.toNat ∧ c.toLower.toNat ≤ 102 then some (c.toLower.toNat - 87) else none
  if t = [] then none
  else (t.foldlM (fun n c => (digit c).map (16 * n + ·)) 0).filter (· < 2 ^ 64)

/-- The size a chunk begins with, and what follows. -/
def chunkHead (bytes : Bytes) : Except String (ℕ × Bytes) :=
  match position [13, 10] bytes with
  | none => .error "invalid chunk header"
  | some lineEnd =>
    match (ofUtf8 (bytes.take lineEnd)).bind fun text =>
        hexDigits (trim ((text.toList.splitOn ';').headD [])) with
    | none => .error "invalid chunk size"
    | some size => .ok (size, bytes.drop (lineEnd + 2))

theorem chunkHead_length {bytes rest : Bytes} {size : ℕ} (h : chunkHead bytes = .ok (size, rest)) :
    rest.length < bytes.length := by
  unfold chunkHead at h
  split at h
  · cases h
  next lineEnd hend =>
    have hle := position_le hend
    split at h
    · cases h
    · cases h
      rw [List.length_cons, List.length_singleton] at hle
      rw [List.length_drop]
      omega

/-- `decode_chunks`, with the chunks decoded so far. -/
def decodeChunks (maximum : ℕ) (bytes output : Bytes) : Except String Bytes :=
  match _h : chunkHead bytes with
  | .error e => .error e
  | .ok (size, rest) =>
    if size = 0 then .ok output
    else if maximum - output.length < size ∨ rest.length < size + 2 then
      .error "invalid or oversized chunked body"
    else if (rest.drop size).take 2 ≠ [13, 10] then .error "chunk is missing terminator"
    else decodeChunks maximum (rest.drop (size + 2)) (output ++ rest.take size)
termination_by bytes.length
decreasing_by
  have hr := chunkHead_length _h
  rw [List.length_drop]
  omega

def responseBody (head : Head) (rawBody : Bytes) (maximum : ℕ) : Except String Bytes :=
  if head.chunked then decodeChunks maximum rawBody []
  else match head.contentLength with
  | some length =>
    if maximum < length ∨ rawBody.length < length then .error "invalid or oversized HTTP response body"
    else .ok (rawBody.take length)
  | none => .ok rawBody

/-- `parse_http_response_details`. -/
def parseHttpResponseDetails (response : Bytes) (maximum : ℕ) : Except String HttpResponse := do
  let (head, rawBody) ← responseHead response
  return ⟨head.code, head.headers, ← responseBody head rawBody maximum⟩

theorem decodeChunks_le {maximum : ℕ} {bytes output body : Bytes}
    (h : decodeChunks maximum bytes output = .ok body) (hou : output.length ≤ maximum) :
    body.length ≤ maximum := by
  fun_induction decodeChunks maximum bytes output with
  | case1 | case3 | case4 => cases h
  | case2 =>
    cases h
    exact hou
  | case5 bytes output size rest hh hsi hf hend ih =>
    refine ih h ?_
    rw [List.length_append, List.length_take]
    omega

/-- A body is bounded if it comes in chunks or with its length; one that goes on to the end of the
response is bounded only if it happens to be short. -/
theorem body_bounded_iff (response : Bytes) (maximum : ℕ) :
    (∀ r, parseHttpResponseDetails response maximum = .ok r → r.body.length ≤ maximum) ↔
      ∀ head rawBody, responseHead response = .ok (head, rawBody) →
        head.chunked = true ∨ head.contentLength ≠ none ∨ rawBody.length ≤ maximum := by
  constructor
  · intro h head rawBody hhead
    by_contra hnot
    obtain ⟨hchunked, hlength, hlong⟩ : head.chunked = false ∧ head.contentLength = none ∧
        ¬ rawBody.length ≤ maximum := by simpa using hnot
    refine hlong (h ⟨head.code, head.headers, rawBody⟩ ?_)
    simp [parseHttpResponseDetails, hhead, responseBody, hchunked, hlength, bind, Except.bind, pure,
      Except.pure]
  · intro h r hr
    obtain ⟨⟨head, rawBody⟩, hhead, hr⟩ := bind_eq_ok_iff.mp hr
    obtain ⟨body, hbody, hr⟩ := bind_eq_ok_iff.mp hr
    cases hr
    unfold responseBody at hbody
    split at hbody
    · exact decodeChunks_le hbody (Nat.zero_le _)
    next hchunked =>
      split at hbody
      next length hlength =>
        split at hbody
        · cases hbody
        next hfits =>
          cases hbody
          rw [List.length_take]
          omega
      next hlength =>
        cases hbody
        exact ((h head _ hhead).resolve_left hchunked).resolve_left (not_not.mpr hlength)

/-- A response without any header but the status line, and three bytes. -/
theorem unframed_body_unbounded : ∃ r,
    parseHttpResponseDetails (utf8 "HTTP/1.1 200 OK\r\n\r\nabc") 2 = .ok r ∧ ¬ r.body.length ≤ 2 :=
  ⟨⟨200, ∅, utf8 "abc"⟩, by decide +kernel, by decide +kernel⟩

end Nivren.Http
