import Nivren.BundleLimits
import Nivren.BareHost

/-! Bundles and programs.

A verified chunk that the decoder's limits allow survives encoding and decoding, and a bundle that
was written from a chunk can be read exactly when the chunk keeps to the limits. Four flags are read
more loosely than they are written, so a file determines its program but not the other way round.
-/

namespace Nivren.Bundle

open Codec Writer List

variable {c : Chunk} {bytes : Bytes}

theorem encode_eq_ok : encode c = .ok bytes ↔
      verify c = .ok () ∧ ∃ body, chunk c = .ok body ∧ bytes = magic ++ body := by
  unfold encode
  simp only [bind_eq_ok_iff, Output.append_eq_ok, exists_and_left]
  constructor
  · rintro ⟨⟨⟩, hv, _, ⟨⟩, body, hb, rfl⟩
    exact ⟨hv, body, hb, rfl⟩
  · rintro ⟨hv, body, hb, rfl⟩
    exact ⟨(), hv, magic, rfl, body, hb, rfl⟩

section Decode

variable {flag : Reader.In Bool}

theorem decodeWith_eq_ok :
    decodeWith flag bytes = .ok c ↔ verify c = .ok () ∧ ∃ body, bytes = magic ++ body ∧
      Reader.chunk flag (maxDepth + 1) body = .ok (c, []) := by
  unfold decodeWith
  split
  next hm =>
    refine ⟨nofun, ?_⟩
    rintro ⟨-, body, rfl, -⟩
    exact absurd (prefix_append magic body) hm
  next hm =>
    obtain ⟨body, rfl⟩ := not_not.mp hm
    rw [drop_left]
    constructor
    · intro h
      split at h
      · cases h
      next chunk rest hr =>
        split at h
        · cases h
        next hre =>
          obtain rfl : rest = [] := not_not.mp hre
          split at h
          · cases h
          next hv =>
            cases h
            exact ⟨hv, body, rfl, hr⟩
    · rintro ⟨hv, body', hb, hr⟩
      obtain rfl := append_cancel_left hb
      simp [hr, hv]

/-- A bundle that was written from a chunk is read back if the chunk keeps to the limits, and refused
otherwise. -/
theorem decodeWith_encode (hfl : ∀ value, Copies flag (boolean value) True value)
    (h : encode c = .ok bytes) :
    (decodable c = true ∧ decodeWith flag bytes = .ok c) ∨
      (¬ decodable c = true ∧ ∃ e, decodeWith flag bytes = .error e) := by
  obtain ⟨hv, body, hb, rfl⟩ := encode_eq_ok.mp h
  rcases (copies_chunk hfl (maxDepth + 1) hv).mirrors body hb [] with ⟨hf, hr⟩ | ⟨hf, e, hr⟩
  · rw [append_nil] at hr
    exact .inl ⟨hf, decodeWith_eq_ok.mpr ⟨hv, body, rfl, hr⟩⟩
  · rw [append_nil] at hr
    refine .inr ⟨hf, e, ?_⟩
    have hm : magic <+: magic ++ body := prefix_append ..
    rw [decodeWith, if_neg (not_not.mpr hm), drop_left, hr]

end Decode

/-- Encoding and decoding gives back every verified chunk that is within the decoder's limits and
has a pattern in every arm. -/
theorem decode_encode_eq {c : Chunk} (hv : verify c = .ok ()) (hlimits : decodable c = true) :
    ∃ bytes, encode c = .ok bytes ∧ decode bytes = .ok c := by
  obtain ⟨body, hbody⟩ := (copies_chunk copies_looseFlag (maxDepth + 1) hv).done hlimits
  have hencode : encode c = .ok (magic ++ body) := encode_eq_ok.mpr ⟨hv, body, hbody, rfl⟩
  refine ⟨magic ++ body, hencode, ?_⟩
  rcases decodeWith_encode copies_looseFlag hencode with ⟨-, h⟩ | ⟨h, -⟩
  · exact h
  · exact absurd hlimits h

def roundTripProgram : Chunk :=
  .ofOps [.constant (.string "hi"), .repeat (.ofOps [.constant (.bool false)])
      (.ofOps [.constant (.int (-3)), .loopExit true]), .pop,
    .matchArms [⟨[.carries "some" (.binding "x" ⟨1, 1⟩) ⟨1, 1⟩], some (.ofOps [.load "x"]),
      .ofOps [.constant .null], ⟨2, 1⟩⟩]]

theorem decode_encode_eq_program :
    ∃ bytes, encode roundTripProgram = .ok bytes ∧ decode bytes = .ok roundTripProgram :=
  decode_encode_eq (by decide) (by decide)

def patternlessProgram : Chunk :=
  .ofOps [.constant .null, .matchArms [⟨[], none, .ofOps [.constant .null], ⟨1, 1⟩⟩]]

/-- The verifier and the encoder accept an arm without patterns; the decoder does not. -/
theorem patternless_not_decoded :
    verify patternlessProgram = .ok () ∧ withinLimits patternlessProgram = true ∧
      ∃ bytes, encode patternlessProgram = .ok bytes ∧
        decode bytes = .error (bundleError "a choose arm needs at least one pattern") :=
  ⟨by decide, by decide, _, rfl, rfl⟩

end Nivren.Bundle
