import Nivren.Registry.Documents

/-! Releases.

`verify_release` accepts a package when its documents fit together: the root signed the authorization,
the status and the advisories, the authorized key signed the provenance, and the provenance describes
the package. The checks are described by `Attested`. Keys are revoked by their spelling, although a key
has several spellings.
-/

namespace Nivren.Trust

open Codec List

variable {α : Type}

def ofExcept : Except NivError α → Result α
  | .ok a => .ok a
  | .error e => .error (.error e)

def require (passed : Bool) (message : String) : Result Unit :=
  if passed then .ok () else .error (.error (trustError message))

/-- `valid_publisher`. -/
def validPublisher (value : String) : Bool :=
  match value.toList with
  | [] => false
  | first :: rest =>
    first.isAlphanum && decide ((utf8 value).length ≤ 128) &&
      rest.all fun c => c.isAlphanum || c == '-' || c == '_'

/-- A pattern for package names: a name, a beginning of names, or every name. -/
def patternAllows (package pattern : String) : Bool :=
  pattern == "*" ||
    match pattern.toList.dropSuffix? ['*'] with
    | none => pattern == package
    | some front => front.isPrefixOf package.toList

/-- `authorization_allows_package`. -/
def authorizationAllowsPackage (patterns : TextSet) (package : String) : Bool :=
  validPublisher package && patterns.toList.any (patternAllows package)

def isControl (c : Char) : Bool := c.toNat < 0x20 || (0x7F ≤ c.toNat && c.toNat ≤ 0x9F)

/-- `safe_text`. -/
def safeText (value : String) (maximum : ℕ) : Bool :=
  value != "" && decide ((utf8 value).length ≤ maximum) && !value.toList.any isControl

/-- The checks of `validate_status`. -/
def statusValid (value : RegistryStatus) : Bool :=
  value.revokedKeys.toList.all (fun key => (decodeKey key).toBool) &&
    value.frozenPackages.toList.all (fun entry =>
      validPublisher entry.1 && safeText entry.2 1024) &&
    value.advisoriesSha256.toList.length == 64 && value.advisoriesSha256.toList.all isHexDigit

/-- `validate_status`. -/
def validateStatus (value : RegistryStatus) : Result Unit :=
  require (statusValid value) "registry status contains invalid entries"

/-- The checks of `validate_advisory`. -/
def advisoryValid (value : Advisory) : Bool :=
  safeText value.id 128 && validPublisher value.package &&
    value.affectedVersions.toList.all (fun version => safeText version 64) &&
    safeText value.severity 64 && decide ((utf8 value.summary).length ≤ 4096) &&
    !value.summary.toList.any fun c => isControl c && c != '\n'

/-- `validate_advisory`. -/
def validateAdvisory (value : Advisory) : Result Unit :=
  require (advisoryValid value) "advisory contains invalid entries"

variable (crypto : Crypto)

/-- `verify` on the bytes of a document. -/
def verifyDocument (key : Bytes) (document : Result Bytes) (signature : String) : Result Unit := do
  ofExcept (crypto.verify key (← document) signature)

/-- `u64::saturating_add`. -/
def saturatingAdd (a : UInt64) (b : ℕ) : ℕ := min (a.toNat + b) (2 ^ 64 - 1)

def Advisory.blocks (advisory : Advisory) (package : Package) : Bool :=
  !advisory.withdrawn && advisory.package == package.name &&
    advisory.affectedVersions.contains package.version

def checkAdvisory (rootPublicKey : Bytes) (package : Package) (advisory : Advisory) :
    Result Unit := do
  validateAdvisory advisory
  verifyDocument crypto rootPublicKey (advisoryBytes advisory) advisory.signature
  require (!advisory.blocks package) ("release is blocked by advisory " ++ advisory.id ++ " (" ++
    advisory.severity ++ "): " ++ advisory.summary)

def checkAdvisories (rootPublicKey : Bytes) (package : Package) : List Advisory → Result Unit
  | [] => .ok ()
  | advisory :: rest => do
    checkAdvisory crypto rootPublicKey package advisory
    checkAdvisories rootPublicKey package rest

def checkFrozen (status : RegistryStatus) (package : String) : Result Unit :=
  match status.frozenPackages[package]? with
  | some reason => .error (.error (trustError ("package is frozen: " ++ reason)))
  | none => .ok ()

structure Release where
  packageBytes : Bytes
  provenance : ReleaseProvenance
  authorization : PublisherAuthorization
  status : RegistryStatus
  advisories : List Advisory
  rootPublicKey : Bytes
  now : UInt64
  minimumStatusGeneration : UInt64

def sameIdentity (provenance : ReleaseProvenance) (authorization : PublisherAuthorization) : Bool :=
  provenance.publisher == authorization.publisher &&
    provenance.publicKey == authorization.publicKey &&
    provenance.repository == authorization.repository &&
    provenance.workflow == authorization.workflow

/-- `verify_release`. -/
def verifyRelease (r : Release) : Result Package := do
  require (validPublisher r.authorization.publisher && validPublisher r.provenance.publisher)
    "publisher name is not a safe registry identifier"
  verifyDocument crypto r.rootPublicKey (authorizationBytes r.authorization) r.authorization.signature
  validateStatus r.status
  verifyDocument crypto r.rootPublicKey (statusBytes r.status) r.status.signature
  require (!(r.status.generation < r.minimumStatusGeneration))
    "registry status generation was rolled back"
  let advisories ← advisoriesBytes r.advisories
  require (r.status.advisoriesSha256 == crypto.sha256 advisories)
    "registry advisory list does not match the signed status"
  require (!(r.status.expiresAt < r.now || saturatingAdd r.now 300 < r.status.issuedAt.toNat))
    "registry status is stale or future-dated"
  require (!(r.authorization.expiresAt < r.now)) "publisher authorization has expired"
  require (!(saturatingAdd r.now 300 < r.provenance.issuedAt.toNat))
    "release provenance is dated too far in the future"
  require (sameIdentity r.provenance r.authorization) "release identity is not authorized"
  require (authorizationAllowsPackage r.authorization.packages r.provenance.package)
    "publisher is not authorized to release this package"
  require (!r.status.revokedKeys.contains r.provenance.publicKey) "publisher key has been revoked"
  checkFrozen r.status r.provenance.package
  let publisherKey ← ofExcept (decodeKey r.provenance.publicKey)
  verifyDocument crypto publisherKey (provenanceBytes r.provenance) r.provenance.signature
  let package ← ofExcept (Package.decode r.packageBytes)
  require (package.name == r.provenance.package && package.version == r.provenance.version &&
    crypto.sha256 r.packageBytes == r.provenance.sha256)
    "release provenance does not match the package"
  checkAdvisories crypto r.rootPublicKey package r.advisories
  return package

def Signed (key : Bytes) (document : Result Bytes) (signature : String) : Prop :=
  ∃ message s, document = .ok message ∧ crypto.validKey key = true ∧
    decodeHex 64 signature "signature" = .ok s ∧ crypto.verifyStrict key message s = true

def Covers (pattern package : String) : Prop :=
  pattern = "*" ∨ pattern = package ∨
    ∃ front, pattern = front ++ "*" ∧ front.toList <+: package.toList

/-- The release is attested: signatures, identities, contents, advisories and times are as they should
be. -/
structure Attested (r : Release) (package : Package) : Prop where
  authorization_signed :
    Signed crypto r.rootPublicKey (authorizationBytes r.authorization) r.authorization.signature
  status_signed : Signed crypto r.rootPublicKey (statusBytes r.status) r.status.signature
  provenance_signed : ∃ key, decodeKey r.provenance.publicKey = .ok key ∧
    Signed crypto key (provenanceBytes r.provenance) r.provenance.signature
  same_key : r.provenance.publicKey = r.authorization.publicKey
  same_publisher : r.provenance.publisher = r.authorization.publisher
  same_repository : r.provenance.repository = r.authorization.repository
  same_workflow : r.provenance.workflow = r.authorization.workflow
  digest : crypto.sha256 r.packageBytes = r.provenance.sha256
  decoded : Package.decode r.packageBytes = .ok package
  name : package.name = r.provenance.package
  version : package.version = r.provenance.version
  covered : ∃ pattern ∈ r.authorization.packages, Covers pattern r.provenance.package
  unfrozen : r.provenance.package ∉ r.status.frozenPackages
  committed : ∃ bytes, advisoriesBytes r.advisories = .ok bytes ∧
    r.status.advisoriesSha256 = crypto.sha256 bytes
  advisories_signed : ∀ advisory ∈ r.advisories,
    Signed crypto r.rootPublicKey (advisoryBytes advisory) advisory.signature
  unblocked : ∀ advisory ∈ r.advisories, advisory.withdrawn = false →
    advisory.package = package.name → package.version ∉ advisory.affectedVersions
  status_current : r.now ≤ r.status.expiresAt ∧ r.status.issuedAt.toNat ≤ r.now.toNat + 300
  authorization_current : r.now ≤ r.authorization.expiresAt
  provenance_current : r.provenance.issuedAt.toNat ≤ r.now.toNat + 300

structure WellFormed (r : Release) : Prop where
  authorization : validPublisher r.authorization.publisher = true
  provenance : validPublisher r.provenance.publisher = true
  package : validPublisher r.provenance.package = true
  status : statusValid r.status = true
  advisories : ∀ advisory ∈ r.advisories, advisoryValid advisory = true

variable {package : Package} {message key : Bytes}

section Checks

variable {crypto}

theorem ofExcept_eq_ok {r : Except NivError α} {a : α} : ofExcept r = .ok a ↔ r = .ok a := by
  cases r <;> simp [ofExcept]

variable {u : Unit}

theorem require_eq_ok {passed : Bool} {message : String} :
    require passed message = .ok u ↔ passed = true := by
  cases passed <;> simp [require]

variable {signature : String}

theorem verify_eq_ok : crypto.verify key message signature = .ok u ↔ crypto.validKey key = true ∧
      ∃ s, decodeHex 64 signature "signature" = .ok s ∧ crypto.verifyStrict key message s = true := by
  unfold Crypto.verify
  cases hkey : crypto.validKey key with
  | false => simp [bind, Except.bind, throw, throwThe, MonadExceptOf.throw]
  | true =>
    cases hs : decodeHex 64 signature "signature" with
    | error e => simp [bind, Except.bind]
    | ok s =>
      cases hv : crypto.verifyStrict key message s <;>
        simp [bind, Except.bind, pure, Except.pure, throw, throwThe, MonadExceptOf.throw, hv]

theorem verifyDocument_eq_ok {document : Result Bytes} :
    verifyDocument crypto key document signature = .ok u ↔ Signed crypto key document signature := by
  rw [verifyDocument, bind_eq_ok_iff]
  constructor
  · rintro ⟨message, hm, h⟩
    obtain ⟨hkey, s, hs, hv⟩ := verify_eq_ok.mp (ofExcept_eq_ok.mp h)
    exact ⟨message, s, hm, hkey, hs, hv⟩
  · rintro ⟨message, s, hm, hkey, hs, hv⟩
    exact ⟨message, hm, ofExcept_eq_ok.mpr (verify_eq_ok.mpr ⟨hkey, s, hs, hv⟩)⟩

theorem checkFrozen_eq_ok {status : RegistryStatus} {package : String} :
    checkFrozen status package = .ok u ↔ package ∉ status.frozenPackages := by
  unfold checkFrozen
  split
  next reason h => simp [Std.ExtTreeMap.mem_iff_isSome_getElem?, h]
  next h => simp [Std.ExtTreeMap.mem_iff_isSome_getElem?, h]

theorem blocks_eq_false {advisory : Advisory} :
    advisory.blocks package = false ↔ (advisory.withdrawn = false →
      advisory.package = package.name → package.version ∉ advisory.affectedVersions) := by
  unfold Advisory.blocks
  cases advisory.withdrawn <;> simp [← Std.ExtTreeSet.contains_iff_mem]

theorem checkAdvisories_eq_ok {rootPublicKey : Bytes} {advisories : List Advisory} :
    checkAdvisories crypto rootPublicKey package advisories = .ok u ↔
      ∀ advisory ∈ advisories, advisoryValid advisory = true ∧
        Signed crypto rootPublicKey (advisoryBytes advisory) advisory.signature ∧
        advisory.blocks package = false := by
  induction advisories with
  | nil => simp [checkAdvisories]
  | cons advisory rest ih =>
    rw [checkAdvisories, bind_eq_ok_iff, forall_mem_cons, ← ih]
    have hf : (∃ v, checkAdvisory crypto rootPublicKey package advisory = .ok v) ↔
        advisoryValid advisory = true ∧
        Signed crypto rootPublicKey (advisoryBytes advisory) advisory.signature ∧
        advisory.blocks package = false := by
      simp [checkAdvisory, validateAdvisory, bind_eq_ok_iff, require_eq_ok, verifyDocument_eq_ok]
    rw [← hf]
    exact ⟨fun ⟨v, hv, h⟩ => ⟨⟨v, hv⟩, h⟩, fun ⟨⟨v, hv⟩, h⟩ => ⟨v, hv, h⟩⟩

theorem star_notMem_of_validPublisher {value : String} (h : validPublisher value = true) :
    '*' ∉ value.toList := by
  unfold validPublisher at h
  split at h
  · cases h
  next first rest hte =>
    simp only [Bool.and_eq_true] at h
    rw [hte, mem_cons, not_or]
    constructor
    · rintro rfl
      exact absurd h.1.1 (by decide)
    · intro hmem
      exact absurd (all_eq_true.mp h.2 '*' hmem) (by decide)

theorem patternAllows_iff {package pattern : String} (h : validPublisher package = true) :
    patternAllows package pattern = true ↔ Covers pattern package := by
  have hst := star_notMem_of_validPublisher h
  by_cases hev : pattern = "*"
  · simp [patternAllows, Covers, hev]
  · cases hsu : pattern.toList.dropSuffix? ['*'] with
    | none =>
      have hno : ∀ front : String, pattern ≠ front ++ "*" := by
        intro front heq
        have hso : pattern.toList.dropSuffix? ['*'] = some front.toList :=
          List.dropSuffix?_eq_some_iff.mpr ⟨['*'], by simp [heq], by decide⟩
        rw [hsu] at hso
        cases hso
      simp [patternAllows, Covers, hev, hsu, hno]
    | some front =>
      obtain ⟨last, hte, hl⟩ := List.dropSuffix?_eq_some_iff.mp hsu
      have hl : last = ['*'] := eq_of_beq hl
      have hp : pattern = String.ofList front ++ "*" := by
        apply String.toList_injective
        simp [hte, hl]
      have hne : pattern ≠ package := by
        rintro rfl
        exact hst (by simp [hte, hl])
      simp only [patternAllows, hsu, Covers, hev, hne, false_or, beq_iff_eq,
        List.isPrefixOf_iff_prefix, Bool.or_eq_true]
      constructor
      · exact fun hf => ⟨String.ofList front, hp, by simpa using hf⟩
      · rintro ⟨other, hot, hf⟩
        have hsa : front = other.toList := by
          have := congrArg String.toList (hp.symm.trans hot)
          simpa using this
        rwa [hsa]

theorem allows_iff {patterns : TextSet} {package : String} :
    authorizationAllowsPackage patterns package = true ↔
      validPublisher package = true ∧ ∃ pattern ∈ patterns, Covers pattern package := by
  rw [authorizationAllowsPackage, Bool.and_eq_true, any_eq_true]
  constructor
  · rintro ⟨hv, pattern, hmem, h⟩
    exact ⟨hv, pattern, Std.ExtTreeSet.mem_toList.mp hmem, (patternAllows_iff hv).mp h⟩
  · rintro ⟨hv, pattern, hmem, h⟩
    exact ⟨hv, pattern, Std.ExtTreeSet.mem_toList.mpr hmem, (patternAllows_iff hv).mpr h⟩

theorem not_saturatingAdd_lt {now issued : UInt64} :
    ¬ saturatingAdd now 300 < issued.toNat ↔ issued.toNat ≤ now.toNat + 300 := by
  have hb : issued.toNat < 2 ^ 64 := issued.toNat_lt
  unfold saturatingAdd
  omega

end Checks

theorem verifyRelease_eq_ok {r : Release} : verifyRelease crypto r = .ok package ↔
      Attested crypto r package ∧ WellFormed r ∧ r.provenance.publicKey ∉ r.status.revokedKeys ∧
        r.minimumStatusGeneration ≤ r.status.generation := by
  unfold verifyRelease
  simp only [bind_eq_ok_iff, require_eq_ok, verifyDocument_eq_ok, validateStatus, ofExcept_eq_ok,
    checkFrozen_eq_ok, checkAdvisories_eq_ok, exists_const, Bool.and_eq_true, Bool.not_eq_true',
    Bool.or_eq_false_iff, decide_eq_false_iff_not, beq_iff_eq, sameIdentity, allows_iff,
    not_saturatingAdd_lt, UInt64.not_lt, blocks_eq_false]
  constructor
  · rintro ⟨⟨har, hpr⟩, hau, hst, hss, hg, bytes, hb, hc, hcu, hat, his, ⟨⟨⟨hpu, hkey⟩, hre⟩, hw⟩,
      ⟨hpa, hco⟩, hr, hu, key, hd, hp, found, hde,
      ⟨⟨hn, hv⟩, hdi⟩, had, ⟨⟩⟩
    refine ⟨?_, ?_, ?_, hg⟩
    · exact ⟨hau, hss, ⟨key, hd, hp⟩, hkey, hpu, hre,
        hw, hdi, hde, hn, hv, hco, hu, ⟨bytes, hb, hc⟩,
        fun advisory h => (had advisory h).2.1, fun advisory h => (had advisory h).2.2,
        hcu, hat, his⟩
    · exact ⟨har, hpr, hpa, hst, fun advisory h => (had advisory h).1⟩
    · rw [← Std.ExtTreeSet.contains_iff_mem, hr]
      exact Bool.false_ne_true
  · rintro ⟨ha, hf, hr, hg⟩
    obtain ⟨bytes, hb, hc⟩ := ha.committed
    obtain ⟨key, hd, hp⟩ := ha.provenance_signed
    have hr : r.status.revokedKeys.contains r.provenance.publicKey = false := by
      simpa [← Std.ExtTreeSet.contains_iff_mem] using hr
    exact ⟨⟨hf.authorization, hf.provenance⟩, ha.authorization_signed, hf.status,
      ha.status_signed, hg, bytes, hb, hc, ha.status_current,
      ha.authorization_current, ha.provenance_current,
      ⟨⟨⟨ha.same_publisher, ha.same_key⟩, ha.same_repository⟩, ha.same_workflow⟩,
      ⟨hf.package, ha.covered⟩, hr, ha.unfrozen, key, hd,
      hp, package, ha.decoded, ⟨⟨ha.name, ha.version⟩, ha.digest⟩,
      fun advisory h => ⟨hf.advisories advisory h, ha.advisories_signed advisory h,
        ha.unblocked advisory h⟩, rfl⟩

/-- A release is accepted exactly when it is attested and well formed, its key is not revoked as it is
spelled, and its status is not older than one seen before. -/
theorem release_accepted_iff (r : Release) (package : Package) :
    verifyRelease crypto r = .ok package ↔
      Attested crypto r package ∧ WellFormed r ∧ r.provenance.publicKey ∉ r.status.revokedKeys ∧
        r.minimumStatusGeneration ≤ r.status.generation :=
  verifyRelease_eq_ok crypto

def samplePackage : Package :=
  ⟨"shapes", "1.0.0", (∅ : TextMap Bytes).insert manifestName
    (utf8 "[package]\nname = \"shapes\"\nversion = \"1.0.0\"\nentry = \"main.niv\"\n")⟩

/-- Cryptography that accepts every signature and gives every text one digest. -/
def lenient : Crypto := ⟨fun _ => replicate 32 0, fun _ => true, fun _ _ _ => true⟩

def repeated (count : ℕ) (c : Char) : String := String.ofList (replicate count c)

/-- A release by a key of `a`s, with other keys revoked. -/
def sampleRelease (revoked : TextSet) (minimum : UInt64) : Release where
  packageBytes := samplePackage.encode.toOption.getD []
  provenance := ⟨"shapes", "1.0.0", repeated 64 '0', "acme", repeated 64 'a', "repo", "flow", "c0ffee0",
    100, repeated 128 '0'⟩
  authorization := ⟨"acme", repeated 64 'a', "repo", "flow", 200, (∅ : TextSet).insert "*",
    repeated 128 '0'⟩
  status := ⟨1, 100, 200, revoked, ∅, repeated 64 '0', repeated 128 '0'⟩
  advisories := []
  rootPublicKey := replicate 32 7
  now := 150
  minimumStatusGeneration := minimum

theorem signed_lenient {document : Result Bytes} (h : document = .ok message) :
    Signed lenient key document (repeated 128 '0') := by
  have hsi : decodeHex 64 (repeated 128 '0') "signature" = .ok (replicate 64 0) := by
    decide +kernel
  exact ⟨message, _, h, rfl, hsi, rfl⟩

theorem attested_sample (revoked : TextSet) (minimum : UInt64)
    (hst : statusBytes (sampleRelease revoked minimum).status = .ok message) :
    Attested lenient (sampleRelease revoked minimum) samplePackage := by
  have hkey : decodeKey (repeated 64 'a') = .ok (replicate 32 0xAA) := by decide +kernel
  have hd : Package.decode (samplePackage.encode.toOption.getD []) = .ok samplePackage := by
    decide +kernel
  have hnow : (150 : UInt64) ≤ 200 := by decide
  have his : (100 : UInt64).toNat ≤ (150 : UInt64).toNat + 300 := by decide
  exact ⟨@signed_lenient _ _ _ rfl, signed_lenient hst, ⟨_, hkey, @signed_lenient _ _ _ rfl⟩, rfl,
    rfl, rfl, rfl, rfl, hd, rfl, rfl, ⟨"*", Std.ExtTreeSet.mem_insert_self, .inl rfl⟩,
    Std.ExtTreeMap.not_mem_empty, ⟨_, rfl, rfl⟩, nofun, nofun, ⟨hnow, his⟩, hnow, his⟩

theorem wellFormed_sample (revoked : TextSet) (minimum : UInt64)
    (hst : statusValid (sampleRelease revoked minimum).status = true) :
    WellFormed (sampleRelease revoked minimum) := by
  have hp : validPublisher "acme" = true := by decide
  have hpa : validPublisher "shapes" = true := by decide
  exact ⟨hp, hp, hpa, hst, nofun⟩

theorem verifyRelease_sample : verifyRelease lenient (sampleRelease ∅ 0) = .ok samplePackage :=
  (verifyRelease_eq_ok lenient).mpr ⟨attested_sample ∅ 0 rfl, wellFormed_sample ∅ 0 (by decide +kernel),
    Std.ExtTreeSet.not_mem_empty, by decide⟩

def capitalKeys : TextSet := (∅ : TextSet).insert (repeated 64 'A')

/-- All the documents may be in order and the release still refused: the client has seen a later status. -/
theorem rolled_back_release_refused :
    Attested lenient (sampleRelease ∅ 2) samplePackage ∧ WellFormed (sampleRelease ∅ 2) ∧
      (sampleRelease ∅ 2).provenance.publicKey ∉ (sampleRelease ∅ 2).status.revokedKeys ∧
      ∀ package, verifyRelease lenient (sampleRelease ∅ 2) ≠ .ok package := by
  refine ⟨attested_sample ∅ 2 rfl, wellFormed_sample ∅ 2 (by decide +kernel),
    Std.ExtTreeSet.not_mem_empty, fun package haccepted => ?_⟩
  have hgeneration := ((verifyRelease_eq_ok lenient).mp haccepted).2.2.2
  exact absurd hgeneration (by decide)

end Nivren.Trust
