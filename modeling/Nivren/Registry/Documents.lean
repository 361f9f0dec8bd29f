import Nivren.Arith
import Nivren.Registry.Archive

/-! The signed documents of a registry and the bytes that are signed.

Every document is written as a sequence of frames: its kind, then its fields. A collection is a field of
its own, written as the frame of its size and the frames of its elements. So the bytes tell the kind and
all fields but the signature.
-/

namespace Nivren.Trust

open Codec Text List

structure PublisherAuthorization where
  publisher : String
  publicKey : String
  repository : String
  workflow : String
  expiresAt : UInt64
  packages : TextSet
  signature : String
deriving DecidableEq

structure ReleaseProvenance where
  package : String
  version : String
  sha256 : String
  publisher : String
  publicKey : String
  repository : String
  workflow : String
  commit : String
  issuedAt : UInt64
  signature : String
deriving DecidableEq

structure RegistryStatus where
  generation : UInt64
  issuedAt : UInt64
  expiresAt : UInt64
  revokedKeys : TextSet
  frozenPackages : TextMap String
  advisoriesSha256 : String
  signature : String
deriving DecidableEq

structure Advisory where
  id : String
  package : String
  affectedVersions : TextSet
  severity : String
  summary : String
  withdrawn : Bool
  signature : String
deriving DecidableEq

structure RegistryAdminAction where
  format : UInt16
  action : String
  package : String
  version : String
  generation : UInt64
  issuedAt : UInt64
  expiresAt : UInt64
  reason : String
  signature : String
deriving DecidableEq

structure Crypto where
  /-- `Sha256::digest`. -/
  digest : Bytes → Bytes
  /-- `VerifyingKey::from_bytes` succeeds. -/
  validKey : Bytes → Bool
  /-- `verify_strict` accepts a key, a message and a signature. -/
  verifyStrict : Bytes → Bytes → Bytes → Bool

def trustError (message : String) : NivError := .new message 1 1

/-- `encode_hex`. -/
def encodeHex (bytes : Bytes) : String :=
  String.ofList (bytes.flatMap fun byte => [hexDigit (byte.toNat / 16), hexDigit (byte.toNat % 16)])

theorem isWhiteSpace_encodeHex {bytes : Bytes} {c : Char} (h : c ∈ (encodeHex bytes).toList) :
    Text.isWhiteSpace c = false := by
  have hd : ∀ k < 16, Text.isWhiteSpace (Text.hexDigit k) = false := by decide
  rw [encodeHex, String.toList_ofList, mem_flatMap] at h
  obtain ⟨byte, -, hc⟩ := h
  have hb := byte.toNat_lt
  simp only [mem_cons, not_mem_nil, or_false] at hc
  rcases hc with rfl | rfl
  · exact hd _ (by omega)
  · exact hd _ (by omega)

def Crypto.sha256 (crypto : Crypto) (bytes : Bytes) : String := encodeHex (crypto.digest bytes)

def hexValue (c : Char) : Option ℕ :=
  if c.isDigit then some (c.toNat - 48)
  else if 'a' ≤ c ∧ c ≤ 'f' then some (c.toNat - 87)
  else if 'A' ≤ c ∧ c ≤ 'F' then some (c.toNat - 55)
  else none

def isHexDigit (c : Char) : Bool := (hexValue c).isSome

/-- `u8::from_str_radix` for two characters; the first may be a sign. -/
def hexByte (first second : Char) : Option UInt8 :=
  if first = '+' then (hexValue second).map UInt8.ofNat
  else do return UInt8.ofNat (16 * (← hexValue first) + (← hexValue second))

def hexBytes : List Char → Option Bytes
  | first :: second :: rest => do return (← hexByte first second) :: (← hexBytes rest)
  | [] => some []
  | [_] => none

/-- `decode_hex`. -/
def decodeHex (size : ℕ) (value label : String) : Except NivError Bytes :=
  if !(value.toList.all (·.toNat < 128)) || value.toList.length ≠ 2 * size then
    .error (trustError ("invalid " ++ label ++ " length"))
  else match hexBytes value.toList with
  | some bytes => .ok bytes
  | none => .error (trustError ("invalid hexadecimal " ++ label))

/-- `decode_key`. -/
def decodeKey (value : String) : Except NivError Bytes := decodeHex 32 value "public key"

/-- `verify`. -/
def Crypto.verify (crypto : Crypto) (key message : Bytes) (signature : String) :
    Except NivError Unit := do
  if !crypto.validKey key then throw (trustError "invalid Ed25519 public key")
  let signature ← decodeHex 64 signature "signature"
  if !crypto.verifyStrict key message signature then
    throw (trustError "signature verification failed")

/-- `append`: the length of a field has to fit into eight bytes. -/
def append (value : Bytes) : Output Failure := frame 8 .panic value

def canonical (domain : Bytes) (fields : List Bytes) : Output Failure :=
  writeAll append (domain :: fields)

def canonicalList (items : List Bytes) : Output Failure :=
  if items.length < 2 ^ 64 then writeAll append (leBytes 8 items.length :: items)
  else .error .panic

/-- `u64::to_le_bytes`. -/
def u64Bytes (value : UInt64) : Bytes := leBytes 8 value.toNat

def authorizationFields (value : PublisherAuthorization) : Result (List Bytes) := do
  let packages ← canonicalList (value.packages.toList.map utf8)
  return [utf8 value.publisher, utf8 value.publicKey, utf8 value.repository, utf8 value.workflow,
    u64Bytes value.expiresAt, packages]

def authorizationBytes (value : PublisherAuthorization) : Result Bytes := do
  canonical (utf8 "nivren.publisher-authorization.v2") (← authorizationFields value)

def provenanceFields (value : ReleaseProvenance) : Result (List Bytes) :=
  return [utf8 value.package, utf8 value.version, utf8 value.sha256, utf8 value.publisher,
    utf8 value.publicKey, utf8 value.repository, utf8 value.workflow, utf8 value.commit,
    u64Bytes value.issuedAt]

def provenanceBytes (value : ReleaseProvenance) : Result Bytes := do
  canonical (utf8 "nivren.release-provenance.v1") (← provenanceFields value)

def frozenBytes (entry : String × String) : Result Bytes :=
  canonical (utf8 "frozen") [utf8 entry.1, utf8 entry.2]

def statusFields (value : RegistryStatus) : Result (List Bytes) := do
  let revoked ← canonicalList (value.revokedKeys.toList.map utf8)
  let frozen ← value.frozenPackages.toList.mapM frozenBytes
  let frozen ← canonicalList frozen
  return [u64Bytes value.generation, u64Bytes value.issuedAt, u64Bytes value.expiresAt, revoked,
    frozen, utf8 value.advisoriesSha256]

def statusBytes (value : RegistryStatus) : Result Bytes := do
  canonical (utf8 "nivren.registry-status.v2") (← statusFields value)

def advisoryFields (value : Advisory) : Result (List Bytes) := do
  let affected ← canonicalList (value.affectedVersions.toList.map utf8)
  return [utf8 value.id, utf8 value.package, affected, utf8 value.severity, utf8 value.summary,
    [if value.withdrawn then 1 else 0]]

def advisoryBytes (value : Advisory) : Result Bytes := do
  canonical (utf8 "nivren.advisory.v2") (← advisoryFields value)

def adminActionFields (value : RegistryAdminAction) : Result (List Bytes) :=
  return [leBytes 2 value.format.toNat, utf8 value.action, utf8 value.package, utf8 value.version,
    u64Bytes value.generation, u64Bytes value.issuedAt, u64Bytes value.expiresAt,
    utf8 value.reason]

def adminActionBytes (value : RegistryAdminAction) : Result Bytes := do
  canonical (utf8 "nivren.registry-admin-action.v1") (← adminActionFields value)

def advisoriesBytes (advisories : List Advisory) : Result Bytes := do
  let items ← advisories.mapM advisoryBytes
  (canonical (utf8 "nivren.advisory-list.v1") [] ++ canonicalList items : Output Failure)

theorem canonical_inj {domain domain' : Bytes} {fields fields' : List Bytes} {x : Bytes}
    (h : canonical domain fields = .ok x) (h' : canonical domain' fields' = .ok x) :
    domain = domain' ∧ fields = fields' :=
  cons.inj (writeAll_frame_inj (by decide) h h')

theorem canonicalList_inj {items items' : List Bytes} {x : Bytes} (h : canonicalList items = .ok x)
    (h' : canonicalList items' = .ok x) : items = items' := by
  unfold canonicalList at h h'
  split at h
  · split at h'
    · exact (cons.inj (writeAll_frame_inj (by decide) h h')).2
    · cases h'
  · cases h

theorem u64Bytes_inj {a b : UInt64} : u64Bytes a = u64Bytes b ↔ a = b := by
  refine ⟨fun h => ?_, congrArg u64Bytes⟩
  have ha : a.toNat < 256 ^ 8 := a.toNat_lt
  have hb : b.toNat < 256 ^ 8 := b.toNat_lt
  rw [← UInt64.toNat_inj, ← leValue_leBytes ha, ← leValue_leBytes hb]
  exact congrArg leValue h

theorem texts_inj {set set' : TextSet} {x : Bytes} (h : canonicalList (set.toList.map utf8) = .ok x)
    (h' : canonicalList (set'.toList.map utf8) = .ok x) : set = set' := by
  have hl : set.toList = set'.toList :=
    map_injective_iff.mpr (fun _ _ heq => utf8_injective heq) (canonicalList_inj h h')
  exact Std.ExtTreeSet.toList_inj.mp hl

inductive Document
  | authorization (value : PublisherAuthorization)
  | provenance (value : ReleaseProvenance)
  | status (value : RegistryStatus)
  | advisory (value : Advisory)
  | adminAction (value : RegistryAdminAction)

namespace Document

/-- The bytes that are signed. -/
def bytes : Document → Result Bytes
  | .authorization value => authorizationBytes value
  | .provenance value => provenanceBytes value
  | .status value => statusBytes value
  | .advisory value => advisoryBytes value
  | .adminAction value => adminActionBytes value

/-- The document without its signature. -/
def unsigned : Document → Document
  | .authorization value => .authorization { value with signature := "" }
  | .provenance value => .provenance { value with signature := "" }
  | .status value => .status { value with signature := "" }
  | .advisory value => .advisory { value with signature := "" }
  | .adminAction value => .adminAction { value with signature := "" }

/-- The first frame, which tells the kind. -/
def domain : Document → Bytes
  | .authorization _ => utf8 "nivren.publisher-authorization.v2"
  | .provenance _ => utf8 "nivren.release-provenance.v1"
  | .status _ => utf8 "nivren.registry-status.v2"
  | .advisory _ => utf8 "nivren.advisory.v2"
  | .adminAction _ => utf8 "nivren.registry-admin-action.v1"

def fields : Document → Result (List Bytes)
  | .authorization value => authorizationFields value
  | .provenance value => provenanceFields value
  | .status value => statusFields value
  | .advisory value => advisoryFields value
  | .adminAction value => adminActionFields value

theorem bytes_eq (document : Document) :
    document.bytes = (do canonical document.domain (← document.fields)) := by
  cases document <;> rfl

end Document

variable {fields : List Bytes}

theorem authorizationFields_inj {a b : PublisherAuthorization}
    (ha : authorizationFields a = .ok fields) (hb : authorizationFields b = .ok fields) :
    { a with signature := "" } = { b with signature := "" } := by
  obtain ⟨packages, hpa, ⟨⟩⟩ := bind_eq_ok_iff.mp ha
  obtain ⟨packages', hp, hf⟩ := bind_eq_ok_iff.mp hb
  simp only [pure, Except.pure, Except.ok.injEq, cons.injEq, and_true, utf8_inj, u64Bytes_inj] at hf
  obtain ⟨hpu, hkey, hr, hw, hep, rfl⟩ := hf
  rw [hpu, hkey, hr, hw, hep, texts_inj hpa hp]

theorem provenanceFields_inj {a b : ReleaseProvenance}
    (ha : provenanceFields a = .ok fields) (hb : provenanceFields b = .ok fields) :
    { a with signature := "" } = { b with signature := "" } := by
  cases ha
  simp only [provenanceFields, pure, Except.pure, Except.ok.injEq, cons.injEq, and_true,
    utf8_inj, u64Bytes_inj] at hb
  obtain ⟨hpa, hv, hsha, hp, hkey, hr, hw, hc, his⟩ := hb
  rw [hpa, hv, hsha, hp, hkey, hr, hw, hc, his]

theorem frozen_inj {map map' : TextMap String} {items : List Bytes}
    (h : map.toList.mapM frozenBytes = .ok items) (h' : map'.toList.mapM frozenBytes = .ok items) :
    map = map' := by
  have hen : ∀ a b y, frozenBytes a = .ok y → frozenBytes b = .ok y → id a = id b := by
    intro a b y ha hb
    have hf := (canonical_inj ha hb).2
    simp only [cons.injEq, and_true, utf8_inj] at hf
    exact Prod.ext hf.1 hf.2
  have hl := mapM_inj hen h h'
  rw [map_id, map_id] at hl
  exact Std.ExtTreeMap.toList_inj.mp hl

theorem statusFields_inj {a b : RegistryStatus}
    (ha : statusFields a = .ok fields) (hb : statusFields b = .ok fields) :
    { a with signature := "" } = { b with signature := "" } := by
  obtain ⟨revoked, hre, ha⟩ := bind_eq_ok_iff.mp ha
  obtain ⟨items, him, ha⟩ := bind_eq_ok_iff.mp ha
  obtain ⟨frozen, hfz, ⟨⟩⟩ := bind_eq_ok_iff.mp ha
  obtain ⟨revoked', hr, hb⟩ := bind_eq_ok_iff.mp hb
  obtain ⟨items', hit, hb⟩ := bind_eq_ok_iff.mp hb
  obtain ⟨frozen', hfr, hf⟩ := bind_eq_ok_iff.mp hb
  simp only [pure, Except.pure, Except.ok.injEq, cons.injEq, and_true, utf8_inj, u64Bytes_inj] at hf
  obtain ⟨hg, his, hep, rfl, rfl, had⟩ := hf
  cases canonicalList_inj hfz hfr
  rw [hg, his, hep, texts_inj hre hr, frozen_inj him hit, had]

theorem advisoryFields_inj {a b : Advisory}
    (ha : advisoryFields a = .ok fields) (hb : advisoryFields b = .ok fields) :
    { a with signature := "" } = { b with signature := "" } := by
  obtain ⟨affected, had, ⟨⟩⟩ := bind_eq_ok_iff.mp ha
  obtain ⟨affected', haf, hf⟩ := bind_eq_ok_iff.mp hb
  simp only [pure, Except.pure, Except.ok.injEq, cons.injEq, and_true, utf8_inj] at hf
  obtain ⟨hid, hp, rfl, hse, hsu, hfl⟩ := hf
  have hw : a.withdrawn = b.withdrawn := by
    cases ha : a.withdrawn <;> cases hb : b.withdrawn <;> simp [ha, hb] at hfl ⊢
  rw [hid, hp, texts_inj had haf, hse, hsu, hw]

theorem adminActionFields_inj {a b : RegistryAdminAction}
    (ha : adminActionFields a = .ok fields) (hb : adminActionFields b = .ok fields) :
    { a with signature := "" } = { b with signature := "" } := by
  cases ha
  simp only [adminActionFields, pure, Except.pure, Except.ok.injEq, cons.injEq, and_true,
    utf8_inj, u64Bytes_inj] at hb
  obtain ⟨hf, hac, hp, hv, hg, his, hep, hr⟩ := hb
  have hf : b.format = a.format := by
    have ha : a.format.toNat < 256 ^ 2 := a.format.toNat_lt
    have hb : b.format.toNat < 256 ^ 2 := b.format.toNat_lt
    rw [← UInt16.toNat_inj, ← leValue_leBytes ha, ← leValue_leBytes hb, hf]
  rw [hf, hac, hp, hv, hg, his, hep, hr]

theorem Document.bytes_inj {a b : Document} {x : Bytes} (ha : a.bytes = .ok x)
    (hb : b.bytes = .ok x) : a.unsigned = b.unsigned := by
  rw [Document.bytes_eq] at ha hb
  obtain ⟨fields, hfi, ha⟩ := bind_eq_ok_iff.mp ha
  obtain ⟨fields', hf, hb⟩ := bind_eq_ok_iff.mp hb
  obtain ⟨hd, rfl⟩ := canonical_inj ha hb
  -- two documents of different kinds differ in their first frame
  cases a <;> cases b <;> try exact absurd hd (by simp only [Document.domain]; decide)
  · exact congrArg Document.authorization (authorizationFields_inj hfi hf)
  · exact congrArg Document.provenance (provenanceFields_inj hfi hf)
  · exact congrArg Document.status (statusFields_inj hfi hf)
  · exact congrArg Document.advisory (advisoryFields_inj hfi hf)
  · exact congrArg Document.adminAction (adminActionFields_inj hfi hf)

def Advisory.unsigned (value : Advisory) : Advisory := { value with signature := "" }

theorem advisoriesBytes_inj {as bs : List Advisory} {x : Bytes} (ha : advisoriesBytes as = .ok x)
    (hb : advisoriesBytes bs = .ok x) : as.map Advisory.unsigned = bs.map Advisory.unsigned := by
  have hea : ∀ a b y, advisoryBytes a = .ok y → advisoryBytes b = .ok y →
      a.unsigned = b.unsigned := by
    intro a b y ha hb
    exact Document.advisory.inj (@Document.bytes_inj (.advisory a) (.advisory b) y ha hb)
  obtain ⟨items, him, ha⟩ := bind_eq_ok_iff.mp ha
  obtain ⟨items', hit, hb⟩ := bind_eq_ok_iff.mp hb
  obtain ⟨front, list, hfr, hli, rfl⟩ := Output.append_eq_ok.mp ha
  obtain ⟨front', list', hf, hl, hsa⟩ := Output.append_eq_ok.mp hb
  rw [hfr, Except.ok.injEq] at hf
  cases hf
  cases append_cancel_left hsa
  cases canonicalList_inj hli hl
  exact mapM_inj hea him hit

/-- The bytes of a document tell its kind and all its fields but the signature; the bytes behind the
digest of the advisories tell the list of them in the same way. -/
theorem documents_told_apart :
    (∀ (a b : Document) (x : Bytes), a.bytes = .ok x → b.bytes = .ok x → a.unsigned = b.unsigned) ∧
      ∀ (as bs : List Advisory) (x : Bytes), advisoriesBytes as = .ok x →
        advisoriesBytes bs = .ok x → as.map Advisory.unsigned = bs.map Advisory.unsigned :=
  ⟨fun _ _ _ ha hb => Document.bytes_inj ha hb, fun _ _ _ ha hb => advisoriesBytes_inj ha hb⟩

def sampleAdvisory (signature : String) : Advisory :=
  ⟨"NIV-1", "shapes", ∅, "high", "broken", false, signature⟩

theorem documents_told_apart_sample :
    ∃ x, advisoriesBytes [sampleAdvisory "a"] = .ok x ∧ advisoriesBytes [sampleAdvisory "b"] = .ok x ∧
      [sampleAdvisory "a"].map Advisory.unsigned = [sampleAdvisory "b"].map Advisory.unsigned :=
  ⟨_, rfl, rfl, documents_told_apart.2 [sampleAdvisory "a"] [sampleAdvisory "b"] _ rfl rfl⟩

/-- The signatures of the advisories are no part of the bytes. -/
theorem advisories_signatures_lost :
    ∃ x, advisoriesBytes [sampleAdvisory "a"] = .ok x ∧ advisoriesBytes [sampleAdvisory "b"] = .ok x ∧
      [sampleAdvisory "a"] ≠ [sampleAdvisory "b"] :=
  ⟨_, rfl, rfl, by decide⟩

end Nivren.Trust
