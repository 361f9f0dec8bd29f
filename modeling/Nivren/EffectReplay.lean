import Nivren.EffectRoundTrip

/-! The argument digest of recorded effects.

A replayed effect is compared with the recorded one by a digest of the printed arguments. Printing
keeps little of a value: any argument can be replaced by the text it prints as.
-/

namespace Nivren

open Codec

variable {β : Type}

/-- The bytes fed to the digest: every argument as it prints, closed by a zero byte. -/
def effectArgumentsInput (lib : RustLibrary) (arguments : List (Value β)) : Bytes :=
  arguments.flatMap fun argument => utf8 (argument.display lib) ++ [0]

def effectArgumentsDigest (digest : Bytes → Bytes) (lib : RustLibrary)
    (arguments : List (Value β)) : String :=
  Trust.encodeHex (digest (effectArgumentsInput lib arguments))

def Replayable (lib : RustLibrary) (value : Value β) : Prop :=
  ∃ json, effectValueToJson lib value = .ok json

/-- Another value that prints as the given one: its text, or for a text a problem with it as its
message. -/
def lookalike (lib : RustLibrary) : Value β → Value β
  | .string text => problemValue "" text
  | value => .string (value.display lib)

section Digest

variable {lib : RustLibrary}

theorem display_lookalike (value : Value β) :
    (lookalike lib value).display lib = value.display lib := by
  unfold lookalike
  split <;> rfl

theorem beq_lookalike (value : Value β) : value.beq lib (lookalike lib value) = false := by
  unfold lookalike
  split
  · rfl
  · rename_i hst
    cases value with
    | string text => exact absurd rfl (hst text)
    | _ => rfl

theorem replayable_lookalike (value : Value β) : Replayable lib (lookalike lib value) := by
  unfold lookalike
  split <;> exact ⟨_, rfl⟩

theorem effectArgumentsInput_cons (argument : Value β) (rest : List (Value β)) :
    effectArgumentsInput lib (argument :: rest) =
      utf8 (argument.display lib) ++ 0 :: effectArgumentsInput lib rest := by
  simp [effectArgumentsInput]

end Digest

theorem encodeHex_injective {a b : Bytes} (h : Trust.encodeHex a = Trust.encodeHex b) : a = b := by
  have ha := tracedBytes_encodeHex .panic a
  rw [h, tracedBytes_encodeHex] at ha
  exact (Except.ok.inj ha).symm

/-- With a digest free of collisions, replay accepts the arguments that print like the recorded
ones and diverges on all others. -/
theorem exec_replayEffect_recorded {σ ν : Type} {host : Host β σ ν} {digest : Bytes → Bytes}
    (hd : host.effectDigest = effectArgumentsDigest digest host.lib)
    (hij : Function.Injective digest) {capability operation result : String}
    {recorded performed : List (Value β)} {rest : List EffectRecord} {span : Span}
    {s : Interp β σ} :
    Program.exec (VM.replayEffect host capability operation performed
        (⟨operation, capability, host.effectDigest recorded, result⟩ :: rest) span) s =
      if effectArgumentsInput host.lib recorded = effectArgumentsInput host.lib performed then
        Program.exec (do
          VM.note (.authorized capability operation)
          VM.liftError (host.effectFromJson result span)) { s with effectReplay := some rest }
      else
        Program.exec (VM.raise ("replay diverged: the trace expected " ++ capability ++ ":" ++
          operation ++ " with argument digest " ++ host.effectDigest recorded ++
          ", the program performed " ++ capability ++ ":" ++ operation ++
          " with argument digest " ++ host.effectDigest performed) span)
          { s with effectReplay := some rest } := by
  have hsa : host.effectDigest recorded = host.effectDigest performed ↔
      effectArgumentsInput host.lib recorded = effectArgumentsInput host.lib performed := by
    rw [hd]
    constructor
    · intro h
      exact hij (encodeHex_injective h)
    · intro h
      rw [effectArgumentsDigest, h, effectArgumentsDigest]
  rw [VM.replayEffect, Program.exec_bind, Program.exec_write]
  simp only [ne_eq, not_true_eq_false, false_or, hsa]
  by_cases hin : effectArgumentsInput host.lib recorded = effectArgumentsInput host.lib performed
  · rw [if_neg (not_not.mpr hin), if_pos hin]
  · rw [if_pos hin, if_neg hin]

def recordedWrite : List (Value Chunk) := [.string "notes", .bytes [1]]

def performedWrite : List (Value Chunk) := [.string "notes", .bytes [2]]

end Nivren
