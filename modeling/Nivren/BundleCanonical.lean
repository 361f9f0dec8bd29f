import Nivren.BundleRoundTrip

/-! Which bundles are the ones the encoder writes.

A reader takes exactly the bytes the writer produces for what it returns, as long as the four loose
flags are read strictly. So a bundle is canonical when each of these flags is zero or one.
-/

namespace Nivren.Bundle

open Codec Writer

abbrev Recovers {α : Type} (r : Reader.In α) (w : α → Writer.Out) : Prop :=
  Consumes r fun a bytes => w a = .ok bytes

theorem recovers_fixed (width : Nat) : Recovers (Reader.fixed width) (fixed width) := by
  refine (consumes_take width).map fun taken bytes h => ?_
  obtain ⟨rfl, rfl⟩ := h
  rw [fixed, if_pos (leValue_lt taken), leBytes_leValue]

theorem recovers_u8 : Recovers Reader.u8 Writer.u8 := by
  refine (consumes_take 1).bind fun taken bytes h => ?_
  obtain ⟨rfl, hl⟩ := h
  obtain ⟨byte, rfl⟩ := List.length_eq_one_iff.mp hl
  exact .pure rfl

theorem recovers_count : Recovers Reader.count len := by
  refine (recovers_fixed 4).bind fun value bytes h => .guard fun _ => .pure ?_
  rw [List.append_nil]
  exact h

theorem recovers_i64 : Recovers Reader.i64 i64 := by
  refine (recovers_fixed 8).map fun value bytes h => ?_
  have hlt : value < 256 ^ 8 := fixed_eq_ok h
  have hr : -2 ^ 63 ≤ (if value < 2 ^ 63 then (value : Int) else value - 2 ^ 64) ∧
      (if value < 2 ^ 63 then (value : Int) else value - 2 ^ 64) < 2 ^ 63 := by
    split <;> omega
  have hv : ((if value < 2 ^ 63 then (value : Int) else value - 2 ^ 64) % 2 ^ 64).toNat =
      value := by
    split <;> omega
  rw [i64, if_pos hr, hv]
  exact h

theorem recovers_boolean : Recovers Reader.boolean boolean := by
  refine recovers_u8.bind fun tag bytes h => ?_
  cases h
  split
  · exact .pure rfl
  · exact .pure rfl
  · exact .throw

theorem recovers_span : Recovers Reader.span span := by
  refine recovers_count.bind fun line bytes hl => recovers_count.last fun column more hc => ?_
  simp [span, hl, hc]

theorem recovers_string : Recovers Reader.string string := by
  refine recovers_count.bind fun length bytes hl => (consumes_take length).bind
    fun taken more h => ?_
  obtain ⟨rfl, rfl⟩ := h
  split
  next text hte =>
    have hb : taken = utf8 text := ofUtf8_eq_some.mp hte
    subst hb
    refine .pure ?_
    rw [string, ← utf8, hl, List.append_nil]
    rfl
  · exact .throw

theorem recovers_counted {α : Type} {r : Reader.In α} {w : α → Writer.Out} (hr : Recovers r w) :
    Recovers (Reader.counted r) (counted w) := by
  refine recovers_count.bind fun count bytes hc => (Consumes.many hr count).mono
    fun values more h => ?_
  obtain ⟨rfl, hm⟩ := h
  rw [counted, hc, hm]
  rfl

theorem recovers_strings : Recovers Reader.strings strings := recovers_counted recovers_string

theorem recovers_pair : Recovers Reader.pair pair := by
  refine recovers_string.bind fun first bytes h₁ => recovers_string.last fun second more h₂ => ?_
  simp [pair, h₁, h₂]

theorem recovers_operator : Recovers Reader.operator operator := by
  refine recovers_u8.bind fun tag bytes h => ?_
  cases h
  split
  all_goals first | exact .pure rfl | exact .throw

theorem recovers_literal : Recovers Reader.literal literal := by
  refine recovers_u8.bind fun tag bytes h => ?_
  cases h
  split
  · refine recovers_i64.last fun value more hv => ?_
    simp [literal, Writer.u8, hv]
  · refine (recovers_fixed 8).last fun value more hv => ?_
    have hb : (UInt64.ofNat value).toNat = value := UInt64.toNat_ofNat_of_lt (fixed_eq_ok hv)
    simp [literal, Writer.u8, hb, hv]
  · refine recovers_string.last fun value more hv => ?_
    simp [literal, Writer.u8, hv]
  · refine recovers_boolean.last fun value more hv => ?_
    simp [literal, Writer.u8, hv]
  · exact .pure rfl
  · exact .throw

theorem recovers_pattern (levels : Nat) : Recovers (Reader.pattern levels) Writer.pattern := by
  induction levels with
  | zero => exact .throw
  | succ levels ih =>
    refine recovers_u8.bind fun tag bytes h => ?_
    cases h
    split
    · refine recovers_span.last fun s b hs => ?_
      simp [Writer.pattern, Writer.u8, hs]
    · refine recovers_span.bind fun s b hs => recovers_literal.last fun value c hv => ?_
      simp [Writer.pattern, Writer.u8, hs, hv]
    · refine recovers_span.bind fun s b hs => recovers_string.last fun name c hn => ?_
      simp [Writer.pattern, Writer.u8, hs, hn]
    · refine recovers_span.bind fun s b hs => recovers_string.last fun name c hn => ?_
      simp [Writer.pattern, Writer.u8, hs, hn]
    · refine recovers_span.bind fun s b hs => recovers_string.bind fun name c hn =>
        ih.last fun inner d hi => ?_
      simp [Writer.pattern, Writer.u8, hs, hn, hi]
    · have hen : Recovers (do
            let field ← Reader.string
            return (field, ← Reader.pattern levels))
          fun entry => string entry.1 ++ Writer.pattern entry.2 := by
        refine recovers_string.bind fun field b hf => ih.last fun inner c hi => ?_
        simp [hf, hi]
      refine recovers_span.bind fun s b hs => recovers_string.bind fun name c hn =>
        (recovers_counted hen).last fun fields d hf => ?_
      rw [counted] at hf
      simp only [Writer.pattern, fieldPatterns_eq, Writer.u8, hs, hn, hf]
      simp
    · exact .throw

theorem recovers_patterns (empty : String) (levels : Nat) :
    Recovers (Reader.patterns empty levels) Writer.patterns := by
  refine recovers_count.bind fun count bytes hc => .guard fun _ =>
    (Consumes.many (recovers_pattern levels) count).mono fun values more h => ?_
  obtain ⟨rfl, hm⟩ := h
  rw [Writer.patterns, counted, hc, hm]
  rfl

theorem recovers_optionalPattern (levels : Nat) :
    Recovers (Reader.optionalPattern levels) optionalPattern := by
  refine recovers_u8.bind fun tag bytes h => ?_
  cases h
  split
  · exact .pure rfl
  · refine (recovers_pattern levels).last fun value more hv => ?_
    simp [optionalPattern, Writer.u8, hv]
  · exact .throw

theorem recovers_promiseClause : Recovers (Reader.promiseClause Reader.boolean) promiseClause := by
  refine recovers_string.bind fun capability b₁ h₁ => recovers_boolean.bind fun never b₂ h₂ =>
    recovers_strings.bind fun boundaries b₃ h₃ => recovers_span.last fun s b₄ h₄ => ?_
  simp [promiseClause, h₁, h₂, h₃, h₄]

theorem recovers_flagged {α : Type} {r : Reader.In α} {w : α → Writer.Out} (hr : Recovers r w)
    {o : Option α → Writer.Out} (hn : o none = Writer.u8 0)
    (hso : ∀ a, o (some a) = Writer.u8 1 ++ w a) :
    Recovers (do if ← Reader.boolean then return some (← r) else return none) o := by
  refine recovers_boolean.bind fun set bytes h => ?_
  cases set with
  | true =>
    refine hr.last fun a more ha => ?_
    cases h
    rw [hso, ha]
    rfl
  | false =>
    refine .pure ?_
    cases h
    rw [hn]
    rfl

theorem recovers_optionalString : Recovers (Reader.optionalString Reader.boolean) optionalString :=
  recovers_flagged recovers_string rfl fun _ => rfl

section Nested

variable {chunk : Reader.In Chunk} {levels : Nat} (hchunk : Recovers chunk Writer.chunk)
include hchunk

theorem recovers_optionalChunk :
    Recovers (Reader.optionalChunk Reader.boolean chunk) Writer.optionalChunk :=
  recovers_flagged hchunk (by rw [Writer.optionalChunk]) fun a => by rw [Writer.optionalChunk]

theorem recovers_optionalGuard : Recovers (Reader.optionalGuard chunk) Writer.optionalChunk := by
  refine recovers_u8.bind fun tag bytes h => ?_
  cases h
  split
  · refine .pure ?_
    rw [Writer.optionalChunk]
    rfl
  · refine hchunk.last fun value more hv => ?_
    simp [Writer.optionalChunk, Writer.u8, hv]
  · exact .throw

theorem recovers_arm : Recovers (Reader.arm chunk levels) Writer.arm := by
  refine (recovers_patterns _ levels).bind fun patterns b₁ h₁ =>
    (recovers_optionalGuard hchunk).bind fun guard b₂ h₂ => recovers_span.bind fun s b₃ h₃ =>
      hchunk.last fun body b₄ h₄ => ?_
  simp [Writer.arm, h₁, h₂, h₃, h₄]

attribute [local simp] Writer.operation Writer.u8

theorem recovers_operation :
    Recovers (Reader.operation Reader.boolean chunk levels) Writer.operation := by
  refine recovers_u8.bind fun tag bytes h => ?_
  cases h
  -- the tags without a field and those with one name, one operator or one count; then the
  -- other tags in their order
  split
  any_goals exact .pure (by rw [Writer.operation]; rfl)
  any_goals exact recovers_string.last fun name b h => by simp [h]
  any_goals exact recovers_operator.last fun operator b h => by simp [h]
  any_goals exact recovers_count.last fun count b h => by simp [h]
  · refine recovers_literal.last fun value b h => ?_
    simp [h]
  · refine recovers_string.bind fun name b h₁ => recovers_boolean.last fun mutable c h₂ => ?_
    simp [h₁, h₂]
  · refine recovers_string.bind fun name b h₁ => recovers_strings.bind fun params c h₂ =>
      hchunk.last fun body d h₃ => ?_
    simp [h₁, h₂, h₃]
  · refine recovers_string.bind fun name b h₁ => (recovers_counted recovers_pair).bind
      fun fields c h₂ => recovers_strings.last fun derives d h₃ => ?_
    simp [h₁, h₂, h₃]
  · refine recovers_string.bind fun name b h₁ => recovers_strings.bind fun variants c h₂ =>
      recovers_strings.last fun payloads d h₃ => ?_
    simp [h₁, h₂, h₃]
  · refine (recovers_counted (recovers_arm hchunk)).last fun arms b h => ?_
    rw [counted] at h
    simp only [Writer.operation, arms_eq, h]
    rfl
  · refine recovers_string.bind fun name b h₁ => hchunk.bind fun body c h₂ =>
      recovers_strings.last fun exports d h₃ => ?_
    simp [h₁, h₂, h₃]
  · refine recovers_string.bind fun name b h₁ => (recovers_optionalPattern levels).bind
      fun pattern c h₂ => hchunk.last fun body d h₃ => ?_
    simp [h₁, h₂, h₃]
  · refine recovers_string.bind fun name b h₁ => hchunk.last fun body c h₂ => ?_
    simp [h₁, h₂]
  · refine recovers_string.bind fun name b h₁ => recovers_strings.last fun members c h₂ => ?_
    simp [h₁, h₂]
  · refine recovers_string.bind fun protocol b h₁ => recovers_string.bind fun typeName c h₂ =>
      (recovers_counted recovers_pair).last fun mappings d h₃ => ?_
    simp [h₁, h₂, h₃]
  · refine hchunk.bind fun condition b h₁ => hchunk.last fun body c h₂ => ?_
    simp [h₁, h₂]
  · refine recovers_boolean.last fun skip b h => ?_
    simp [h]
  · refine (recovers_patterns _ levels).bind fun patterns b h₁ => hchunk.bind
      fun thenBranch c h₂ => (recovers_optionalChunk hchunk).last fun elseBranch d h₃ => ?_
    simp [h₁, h₂, h₃]
  · refine (recovers_pattern levels).last fun pattern b h => ?_
    simp [h]
  · refine recovers_string.bind fun title b h₁ => hchunk.bind fun body c h₂ =>
      recovers_optionalString.last fun expected d h₃ => ?_
    simp [h₁, h₂, h₃]
  · refine (recovers_counted recovers_promiseClause).last fun clauses b h => ?_
    simp [h]
  · exact .throw

theorem recovers_instruction :
    Recovers (Reader.instruction Reader.boolean chunk levels) instruction := by
  refine recovers_span.bind fun s b h₁ => (recovers_operation hchunk).last fun op c h₂ => ?_
  simp [instruction, h₁, h₂]

end Nested

theorem recovers_chunk (levels : Nat) :
    Recovers (Reader.chunk Reader.boolean levels) Writer.chunk := by
  induction levels with
  | zero => exact .throw
  | succ levels ih =>
    refine (recovers_fixed 2).bind fun version b h₁ => .guard fun _ =>
      (recovers_counted (recovers_instruction ih)).last fun code c h₂ => ?_
    rw [counted] at h₂
    simp only [Writer.chunk, instructions_eq, u16, h₁, h₂]
    rfl

theorem encode_of_decodeWith {bytes : Bytes} {c : Chunk}
    (h : decodeWith Reader.boolean bytes = .ok c) : encode c = .ok bytes := by
  obtain ⟨hv, body, rfl, hr⟩ := decodeWith_eq_ok.mp h
  obtain ⟨written, hb, hw⟩ := recovers_chunk _ body c [] hr
  rw [List.append_nil] at hb
  subst hb
  exact encode_eq_ok.mpr ⟨hv, body, hw, rfl⟩

/-- A bundle that can be decoded is the one the encoder writes for its program exactly when its
flags are all zero or one. -/
theorem encode_decode_iff {bytes : Bytes} {c : Chunk} (h : decode bytes = .ok c) :
    encode c = .ok bytes ↔ ∃ c', decodeWith Reader.boolean bytes = .ok c' := by
  constructor
  · intro hencode
    have hlimits : decodable c = true := by
      rcases decodeWith_encode copies_looseFlag hencode with ⟨hfits, -⟩ | ⟨-, e, he⟩
      · exact hfits
      · rw [decode, he] at h
        cases h
    rcases decodeWith_encode copies_boolean hencode with ⟨-, hstrict⟩ | ⟨hfits, -⟩
    · exact ⟨c, hstrict⟩
    · exact absurd hlimits hfits
  · rintro ⟨c', hstrict⟩
    have hencode := encode_of_decodeWith hstrict
    -- what the strict reader accepts, the decoder reads alike
    rcases decodeWith_encode copies_boolean hencode with ⟨hfits, -⟩ | ⟨-, e, he⟩
    · rcases decodeWith_encode copies_looseFlag hencode with ⟨-, hloose⟩ | ⟨hnot, -⟩
      · rw [decode, hloose] at h
        cases h
        exact hencode
      · exact absurd hfits hnot
    · rw [hstrict] at he
      cases he

def stopProgram : Chunk :=
  .ofOps [.repeat (.ofOps [.constant (.bool true)]) (.ofOps [.constant .null, .loopExit true])]

/-- The bundle of `stopProgram`, with a byte of choice for the flag of its `LoopExit`. -/
def stopBundle (skip : UInt8) : Bytes :=
  magic ++ [8, 0, 1, 0, 0, 0, 1, 0, 0, 0, 1, 0, 0, 0, 31,
    8, 0, 1, 0, 0, 0, 1, 0, 0, 0, 1, 0, 0, 0, 0, 3, 1,
    8, 0, 2, 0, 0, 0, 1, 0, 0, 0, 1, 0, 0, 0, 0, 4, 1, 0, 0, 0, 1, 0, 0, 0, 32, skip]

theorem encode_decode_iff_stop :
    encode stopProgram = .ok (stopBundle 1) ↔
      ∃ c, decodeWith Reader.boolean (stopBundle 1) = .ok c :=
  encode_decode_iff (by rfl)

/-- Two different bundles of one program. -/
theorem bundle_not_canonical :
    decode (stopBundle 1) = .ok stopProgram ∧ decode (stopBundle 2) = .ok stopProgram ∧
      encode stopProgram = .ok (stopBundle 1) ∧ stopBundle 1 ≠ stopBundle 2 :=
  ⟨rfl, rfl, rfl, by decide⟩

end Nivren.Bundle
