import Nivren.BundleRoundTrip
import Nivren.Compile

/-! Bundles of compiled programs.

`encode` knows none of the decoder's limits: whether a written bundle can be read again depends on
the program alone, and a program with one long text is compiled and written but never read.
-/

namespace Nivren.Bundle

open Codec

/-- A bundle written from a compiled program is read exactly when the program keeps to the decoder's
limits. -/
theorem decode_compiled_iff {program : List Stmt} {c : Chunk} {bytes : Bytes}
    (_ : compile program = .ok c) (hencode : encode c = .ok bytes) :
    (∃ c', decode bytes = .ok c') ↔ decodable c = true := by
  rcases decodeWith_encode copies_looseFlag hencode with ⟨hfits, h⟩ | ⟨hfits, e, h⟩
  · exact ⟨fun _ => hfits, fun _ => ⟨c, h⟩⟩
  · constructor
    · rintro ⟨c', h'⟩
      rw [decode, h] at h'
      cases h'
    · intro hfits'
      exact absurd hfits' hfits

def textProgram (text : String) : List Stmt := [.expression (.literal (.string text) ⟨1, 1⟩)]

def textChunk (text : String) : Chunk := ⟨bytecodeVersion, [⟨.constant (.string text), ⟨1, 1⟩⟩]⟩

theorem compile_textProgram (text : String) : compile (textProgram text) = .ok (textChunk text) :=
  rfl

theorem decode_compiled_iff_text :
    ∃ bytes, compile (textProgram "hi") = .ok (textChunk "hi") ∧
      encode (textChunk "hi") = .ok bytes ∧
      ((∃ c', decode bytes = .ok c') ↔ decodable (textChunk "hi") = true) :=
  ⟨_, rfl, rfl, decode_compiled_iff (compile_textProgram "hi") rfl⟩

theorem done_textChunk (text : String)
    (h : text.toByteArray.data.toList.length < 256 ^ 4) : (Writer.chunk (textChunk text)).Done := by
  have hst : (Writer.string text).Done :=
    Output.done_append.mpr ⟨⟨_, if_pos h⟩, Output.done_ok _⟩
  simp only [textChunk, Writer.chunk, Writer.instructions, Writer.instruction, Writer.operation,
    Writer.literal, Output.done_append]
  exact ⟨⟨_, rfl⟩, ⟨_, rfl⟩, ⟨⟨_, rfl⟩, ⟨_, rfl⟩, ⟨_, rfl⟩, hst⟩, ⟨_, rfl⟩⟩

theorem not_decodable_textChunk (text : String)
    (h : 1000000 < text.toByteArray.data.toList.length) : ¬ decodable (textChunk text) = true := by
  have hc : Fits.string text = false := by
    rw [Fits.string, Fits.count, decide_eq_false_iff_not, maxItems]
    omega
  simp [decodable, Fits.chunk, textChunk, Fits.counted, Fits.instruction, Fits.operation,
    Fits.literal, hc]

/-- The letter `a`, so many times. -/
def repeated (n : Nat) : String := String.ofList (List.replicate n 'a')

theorem repeated_length (n : Nat) : (repeated n).toByteArray.data.toList.length = n := by
  have hsi (k : Nat) : (List.replicate k 'a').utf8Encode.size = k := by
    induction k with
    | zero => rfl
    | succ k ih =>
      rw [List.replicate_succ, List.utf8Encode_cons, ByteArray.size_append, ih, Nat.add_comm]
      rfl
  rw [repeated, String.toByteArray_ofList]
  exact hsi n

def longText : String := repeated 1000001

/-- The text compiles and is written, and the bundle is refused. -/
theorem long_text_not_decoded :
    ∃ c bytes e, compile (textProgram longText) = .ok c ∧ encode c = .ok bytes ∧
      decode bytes = .error e := by
  have hlen : longText.toByteArray.data.toList.length = 1000001 := by
    rw [longText, repeated_length]
  obtain ⟨body, hbody⟩ := done_textChunk longText (by omega)
  have hencode : encode (textChunk longText) = .ok (magic ++ body) :=
    encode_eq_ok.mpr ⟨rfl, body, hbody, rfl⟩
  have hlimits := not_decodable_textChunk longText (by omega)
  rcases decodeWith_encode copies_looseFlag hencode with ⟨hfits, -⟩ | ⟨-, e, h⟩
  · exact absurd hfits hlimits
  · exact ⟨_, _, e, compile_textProgram longText, hencode, h⟩

end Nivren.Bundle
