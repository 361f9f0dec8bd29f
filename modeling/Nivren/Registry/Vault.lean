import Nivren.Library.Cabinet
import Nivren.Registry.Envelope
import Nivren.Registry.Serve

/-! The files of a registry as its server changes them.

Every document of the registry has a file of its own. File operations succeed, and a write puts a
whole document in place, so a registry is a cabinet: what is missing is only found missing.
-/

namespace Nivren

open Codec FileTree Program

namespace Server

inductive Address
  | rootKey
  | status
  | advisories
  | adminGeneration
  | pending
  | artifact (name version : String)
  | metadata (name version : String)
  | owner (package : String)
  | provenance (name version : String)
  | authorization (publisher : String)
  | audit (generation : UInt64)
deriving DecidableEq

/-- The file of a document, by its names behind the registry's own. -/
def Address.path : Address → Path
  | .rootKey => ["v1", "trust", "root.pub"]
  | .status => ["v1", "trust", "status.json"]
  | .advisories => ["v1", "trust", "advisories.json"]
  | .adminGeneration => ["v1", "trust", "admin-generation"]
  | .pending => ["v1", "admin", "pending.json"]
  | .artifact name version => ["v1", "packages", name, version ++ ".nivpkg"]
  | .metadata name version => ["v1", "index", name, version ++ ".json"]
  | .owner package => ["v1", "owners", package ++ ".json"]
  | .provenance name version => ["v1", "provenance", name, version ++ ".json"]
  | .authorization publisher => ["v1", "authorizations", publisher ++ ".json"]
  | .audit generation => ["v1", "admin", toString generation.toNat ++ ".json"]

abbrev Files := Contents Address Bytes

abbrev Vault := Cabinet Address Bytes

abbrev OnVault := Fallible Failure Vault

structure PackageOwnership where
  format : UInt16
  package : String
  publisher : String
deriving DecidableEq

/-- What the library for documents does with the documents of a registry. -/
structure Documents extends Formats, Commands.Readers where
  ownership : Bytes → Except String PackageOwnership
  action : Bytes → Except String Trust.RegistryAdminAction
  /-- `serde_json::to_vec_pretty`, for each kind of document. -/
  ownershipBytes : PackageOwnership → Bytes
  provenanceBytes : Trust.ReleaseProvenance → Bytes
  authorizationBytes : Trust.PublisherAuthorization → Bytes
  actionBytes : Trust.RegistryAdminAction → Bytes

def serverError (message : String) : NivError := .new message 1 1

variable {α : Type}

/-- `fs::read`. -/
def readFile (files : Files) (address : Address) : Except String Bytes :=
  match files address with
  | none => .error (faultText .notFound)
  | some bytes => .ok bytes

/-- `fs::read_to_string`. -/
def readText (files : Files) (address : Address) : Except String String := do
  match ofUtf8 (← readFile files address) with
  | none => .error "stream did not contain valid UTF-8"
  | some text => .ok text

def orRefuse (label : String) : Except String α → Result α
  | .ok a => .ok a
  | .error reason => .error (.error (serverError (label ++ ": " ++ reason)))

theorem orRefuse_eq_ok {label : String} {x : Except String α} {a : α} :
    orRefuse label x = .ok a ↔ x = .ok a := by
  cases x <;> simp [orRefuse]

/-- `bounded_read`, by the size of the file. -/
def boundedBytes (files : Files) (address : Address) : Except String Bytes := do
  let bytes ← readFile files address
  if maxBody < bytes.length then throw "file exceeds registry size limit"
  return bytes

/-- `read_json`. -/
def readJson (reader : Bytes → Except String α) (files : Files) (address : Address) (label : String) :
    Result α := do
  let bytes ← orRefuse ("cannot read " ++ label) (boundedBytes files address)
  orRefuse ("invalid " ++ label) (reader bytes)

def readRoot (files : Files) : Result Bytes := do
  let text ← orRefuse "cannot read registry root" (readText files .rootKey)
  Trust.ofExcept (Trust.decodeKey (String.ofList (Text.trim text.toList)))

/-- `write_immutable_json`, as a placement. -/
def immutable (address : Address) (bytes : Bytes) : Cabinet.Placement Failure Address Bytes :=
  ⟨address, bytes, (· == bytes), .error (serverError "immutable registry document already differs")⟩

theorem pending_ne_audit (n : ℕ) : "pending.json" ≠ toString n ++ ".json" := by
  intro h
  have hn : "pending" = toString n := (String.append_left_inj ".json").mp h
  have hd : 'p'.isDigit = true := Text.isDigit_of_mem_toString (n := n) (hn ▸ by decide)
  exact absurd hd (by decide)

theorem Address.path_injective : Function.Injective Address.path := by
  intro a b h
  cases a <;> cases b <;> simp only [Address.path, List.cons.injEq, and_true, true_and, false_and,
    and_false, String.reduceEq, reduceCtorEq] at h ⊢
  case pending.audit => exact pending_ne_audit _ h
  case audit.pending => exact pending_ne_audit _ h.symm
  case artifact.artifact | metadata.metadata | provenance.provenance =>
    rw [h.1, (String.append_left_inj _).mp h.2]
  case owner.owner | authorization.authorization => rw [(String.append_left_inj _).mp h]
  case audit.audit first second =>
    have hn : Text.decimal (toString first.toNat).toList =
        Text.decimal (toString second.toNat).toList := by rw [(String.append_left_inj _).mp h]
    rw [Text.decimal_toString, Text.decimal_toString, Option.some.injEq] at hn
    rw [UInt64.toNat_inj.mp hn]

end Server

end Nivren
