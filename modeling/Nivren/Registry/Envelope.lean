import Nivren.Registry.Commands

/-! Publish envelopes.

An envelope is what a publisher sends: the magic `NIVE`, a format number, three lengths, the provenance
and the authorization as documents, and the archive of the package.
-/

namespace Nivren

open Codec

structure PublishEnvelope where
  package : Bytes
  provenance : Trust.ReleaseProvenance
  authorization : Trust.PublisherAuthorization
deriving DecidableEq

namespace PublishEnvelope

open Trust

def magic : Bytes := [78, 73, 86, 69]

def maxDocumentSize : ℕ := 1024 * 1024

def maxEnvelopeSize : ℕ := 66 * 1024 * 1024

namespace Reader

abbrev In := Codec.Reader NivError

def take (count : ℕ) : In Bytes := Codec.take (trustError "truncated publish envelope") count

def fixed (width : ℕ) : In ℕ := leValue <$> take width

def document {α : Type} (reader : Bytes → Except String α) (label : String) (length : ℕ) : In α := do
  match reader (← take length) with
  | .ok value => return value
  | .error reason => throw (trustError ("invalid " ++ label ++ ": " ++ reason))

def envelope (readers : Commands.Readers) : In PublishEnvelope := do
  if (← take 4) ≠ magic then throw (trustError "invalid publish envelope magic")
  if (← fixed 2) ≠ 1 then throw (trustError "unsupported publish envelope version")
  let provenanceLength ← fixed 4
  let authorizationLength ← fixed 4
  let packageLength ← fixed 8
  if maxDocumentSize < provenanceLength ∨ maxDocumentSize < authorizationLength then
    throw (trustError "publish document exceeds 1 MiB")
  let provenance ← document readers.provenance "provenance" provenanceLength
  let authorization ← document readers.authorization "authorization" authorizationLength
  return ⟨← take packageLength, provenance, authorization⟩

end Reader

/-- `PublishEnvelope::decode`. -/
def decode (readers : Commands.Readers) (bytes : Bytes) : Except NivError PublishEnvelope := do
  if maxEnvelopeSize < bytes.length then throw (trustError "publish envelope exceeds 66 MiB")
  let (envelope, rest) ← Reader.envelope readers bytes
  if rest ≠ [] then throw (trustError "trailing publish envelope data")
  discard (Package.decode envelope.package)
  return envelope

end PublishEnvelope

end Nivren
