import Nivren.Http

/-! Chunked bodies.

`decode_chunks` joins the chunks of any cut of a body. All its sums and slices are in range as long as
the limit leaves room for the two bytes behind a chunk; the limits of its callers do.
-/

namespace Nivren.Http

open Codec Search Text List

structure SizeLine (size : ℕ) where
  text : List Char
  hex : ∀ c ∈ text, c ∈ "0123456789abcdefABCDEF".toList
  value : hexDigits text = some size

def SizeLine.bytes {size : ℕ} (line : SizeLine size) : Bytes :=
  utf8 (String.ofList line.text) ++ [13, 10]

structure Chunk where
  data : Bytes
  size : SizeLine data.length
  nonempty : data ≠ []

def Chunk.bytes (chunk : Chunk) : Bytes := chunk.size.bytes ++ (chunk.data ++ [13, 10])

def wire (chunks : List Chunk) (last : SizeLine 0) (trailer : Bytes) : Bytes :=
  chunks.flatMap Chunk.bytes ++ (last.bytes ++ trailer)

theorem chunkHead_sizeLine {size : ℕ} (line : SizeLine size) (rest : Bytes) :
    chunkHead (line.bytes ++ rest) = .ok (size, rest) := by
  have hcr : ∀ c ∈ "0123456789abcdefABCDEF".toList, 13 ∉ String.utf8EncodeChar c :=
    @of_decide_eq_true _ (decidableBAll _ _) rfl
  have hvi : ∀ c ∈ "0123456789abcdefABCDEF".toList, isWhiteSpace c = false ∧ c ≠ ';' :=
    @of_decide_eq_true _ (decidableBAll _ _) rfl
  have hp : 13 ∉ utf8 (String.ofList line.text) := by
    rw [utf8_ofList, mem_flatMap]
    rintro ⟨c, hc, h⟩
    exact hcr c (line.hex c hc) h
  have hse : line.text.splitOn ';' = [line.text] :=
    splitOnP_eq_singleton fun c hc => by simpa using (hvi c (line.hex c hc)).2
  have hst : trimStart line.text = line.text :=
    dropWhile_eq_self_iff.mpr fun hl => by simp [hvi _ (line.hex _ (getElem_mem hl))]
  have htr : trim line.text = line.text := by
    rw [trim, hst, rdropWhile_eq_self_iff]
    intro hl
    simp [hvi _ (line.hex _ (getLast_mem hl))]
  have hb : line.bytes ++ rest = utf8 (String.ofList line.text) ++ 13 :: 10 :: rest := by
    rw [SizeLine.bytes, append_assoc]
    rfl
  have hut : ofUtf8 (utf8 (String.ofList line.text)) = some (String.ofList line.text) := by simp
  rw [chunkHead, hb, position_append hp]
  simp [hut, hse, htr, line.value]

def body (chunks : List Chunk) : Bytes := chunks.flatMap Chunk.data

theorem decodeChunks_of_head {maximum size : ℕ} {bytes rest output : Bytes}
    (h : chunkHead bytes = .ok (size, rest)) : decodeChunks maximum bytes output =
      if size = 0 then .ok output
      else if maximum - output.length < size ∨ rest.length < size + 2 then
        .error "invalid or oversized chunked body"
      else if (rest.drop size).take 2 ≠ [13, 10] then .error "chunk is missing terminator"
      else decodeChunks maximum (rest.drop (size + 2)) (output ++ rest.take size) := by
  rw [decodeChunks]
  split
  next e he =>
    rw [h] at he
    cases he
  next hok =>
    rw [h] at hok
    cases hok
    rfl

theorem decodeChunks_wire {maximum : ℕ} (chunks : List Chunk) (last : SizeLine 0) (trailer : Bytes)
    {output : Bytes} (hou : output.length ≤ maximum) :
    decodeChunks maximum (wire chunks last trailer) output =
      if (output ++ body chunks).length ≤ maximum then .ok (output ++ body chunks)
      else .error "invalid or oversized chunked body" := by
  induction chunks generalizing output with
  | nil =>
    rw [wire, flatMap_nil, nil_append, decodeChunks_of_head (chunkHead_sizeLine last trailer)]
    simp [body, hou]
  | cons chunk chunks ih =>
    have hw : wire (chunk :: chunks) last trailer =
        chunk.size.bytes ++ (chunk.data ++ 13 :: 10 :: wire chunks last trailer) := by
      simp [wire, Chunk.bytes]
    have hbo : body (chunk :: chunks) = chunk.data ++ body chunks := flatMap_cons
    have hl := length_pos_iff.mpr chunk.nonempty
    rw [hw, decodeChunks_of_head (chunkHead_sizeLine chunk.size _), if_neg hl.ne', hbo]
    by_cases hfi : output.length + chunk.data.length ≤ maximum
    · rw [if_neg (by simp; omega), if_neg (by simp)]
      have hdr : drop (chunk.data.length + 2) (chunk.data ++ 13 :: 10 :: wire chunks last trailer) =
          wire chunks last trailer := by simp [drop_append]
      rw [hdr, take_left, ih (by simpa using hfi), append_assoc]
    · rw [if_pos (.inl (by omega)), if_neg]
      simp
      omega

/-- The sums and slices of one round of `decode_chunks` stay in range: of the line with the size, of
the check of the size, and of the chunk. -/
structure InRange (maximum : ℕ) (bytes output : Bytes) : Prop where
  line : ∀ lineEnd, position [13, 10] bytes = some lineEnd → lineEnd + 2 ≤ bytes.length
  size : ∀ size rest, chunkHead bytes = .ok (size, rest) → size ≠ 0 →
    ¬ maximum - output.length < size → size + 2 < 2 ^ 64 ∧
      (¬ rest.length < size + 2 → size ≤ rest.length ∧ size + 2 ≤ rest.length)

/-- A body cut into chunks in any way is decoded if it fits, a decoded body fits, and no index is out
of range, as long as the limit leaves room for the end of a chunk. -/
theorem chunks_decoded {maximum : ℕ} (hmax : maximum + 2 < 2 ^ 64) :
    (∀ chunks last trailer, decodeChunks maximum (wire chunks last trailer) [] =
      if (body chunks).length ≤ maximum then .ok (body chunks)
      else .error "invalid or oversized chunked body") ∧
    (∀ bytes decoded, decodeChunks maximum bytes [] = .ok decoded → decoded.length ≤ maximum) ∧
    ∀ bytes output, InRange maximum bytes output := by
  refine ⟨fun chunks last trailer => ?_, fun bytes decoded h => ?_, fun bytes output => ?_⟩
  · exact decodeChunks_wire chunks last trailer (Nat.zero_le _)
  · exact decodeChunks_le h (Nat.zero_le _)
  · refine ⟨fun lineEnd h => position_le h, fun size rest _ _ hfits => ⟨?_, fun hlong => ?_⟩⟩
    · omega
    · exact ⟨by omega, not_lt.mp hlong⟩

def hi : Chunk := ⟨utf8 "hi", ⟨"02".toList, by simp, by decide⟩, by decide⟩

def lastLine : SizeLine 0 := ⟨"0".toList, by simp, by decide⟩

theorem chunks_decoded_hi :
    decodeChunks 2 (wire [hi] lastLine [13, 10]) [] = .ok (utf8 "hi") :=
  ((@chunks_decoded 2 (by decide)).1 [hi] lastLine [13, 10]).trans (if_pos (by decide))

/-- With the largest limit there is, the end of the largest chunk overflows. -/
theorem widest_chunk_overflows : ¬ InRange (2 ^ 64 - 1) (utf8 "ffffffffffffffff\r\n") [] := by
  intro h
  have hhead : chunkHead (utf8 "ffffffffffffffff\r\n") = .ok (2 ^ 64 - 1, []) := by decide +kernel
  exact absurd (h.size _ _ hhead (by decide) (by decide)).1 (by decide)

end Nivren.Http
