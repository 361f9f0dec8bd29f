import Nivren.Registry.Vault

/-! Publishing.

A request to publish is checked first; then five documents are placed one after the other: the
archive, the entry of the index, the owner, the provenance and the authorization. Each is placed once,
so a later one can be refused when an earlier one is already public.
-/

namespace Nivren

open Codec Program Cabinet

namespace Server

variable (crypto : Trust.Crypto) (documents : Documents)

def textsJson (texts : TextSet) : Json := .array (texts.toList.map .string)

/-- The entry of the index for a new release. -/
def freshMetadata (package : Package) (manifest : Manifest) (digest : String) (size : ℕ) : Json :=
  .object [("capabilities", textsJson manifest.capabilities), ("capability_scopes",
      .object (manifest.capabilityScopes.toList.map fun entry => (entry.1, .string entry.2))),
    ("format", .integer 1), ("name", .string package.name), ("sha256", .string digest),
    ("size", .integer size), ("unsafe_modules", textsJson manifest.unsafeModules),
    ("version", .string package.version), ("yanked", .bool false)]

def packageManifest (package : Package) : Except NivError Manifest :=
  match package.manifestText with
  | none => .error (packageError "package manifest is not UTF-8")
  | some source => Manifest.parse source

def artifactPlacement (package : Package) (bytes : Bytes) : Placement Failure Address Bytes where
  key := .artifact package.name package.version
  document := bytes
  agrees existing := crypto.sha256 existing == crypto.sha256 bytes
  refusal := .error (packageError "registry version already exists with different content")

def metadataPlacement (package : Package) (manifest : Manifest) (bytes : Bytes) :
    Placement Failure Address Bytes :=
  let metadata := documents.toVecPretty
    (freshMetadata package manifest (crypto.sha256 bytes) bytes.length)
  { key := .metadata package.name package.version
    document := metadata
    agrees := (· == metadata)
    refusal := .error (packageError "registry metadata already exists with different content") }

/-- `package::publish`. -/
def publishPackage (bytes : Bytes) : OnVault Unit := do
  let package ← Trust.ofExcept (Package.decode bytes)
  let manifest ← Trust.ofExcept (packageManifest package)
  place (artifactPlacement crypto package bytes)
  place (metadataPlacement crypto documents package manifest bytes)

/-- A package belongs to the publisher that released it first. -/
def checkOwnership (files : Files) (package publisher : String) : Result Unit :=
  if (files (.owner package)).isSome then do
    let ownership ← readJson documents.ownership files (.owner package) "package ownership"
    if ownership.format ≠ 1 ∨ ownership.package ≠ package ∨ ownership.publisher ≠ publisher then
      throw (.error (serverError ("package '" ++ package ++ "' is owned by a different publisher")))
  else return

/-- The checks of `publish`. -/
def verified (files : Files) (body : Bytes) (now minimumGeneration : UInt64) :
    Result (PublishEnvelope × Package) := do
  let envelope ← Trust.ofExcept (PublishEnvelope.decode documents.toReaders body)
  let root ← readRoot files
  let status ← readJson documents.status files .status "registry status"
  let advisories ← readJson documents.advisories files .advisories "advisories"
  let package ← Trust.verifyRelease crypto ⟨envelope.package, envelope.provenance,
    envelope.authorization, status, advisories, root, now, minimumGeneration⟩
  checkOwnership documents files package.name envelope.authorization.publisher
  return (envelope, package)

def ownerPlacement (package publisher : String) : Placement Failure Address Bytes :=
  immutable (.owner package) (documents.ownershipBytes ⟨1, package, publisher⟩)

def provenancePlacement (package : Package) (provenance : Trust.ReleaseProvenance) :
    Placement Failure Address Bytes :=
  immutable (.provenance package.name package.version) (documents.provenanceBytes provenance)

def authorizationPlacement (authorization : Trust.PublisherAuthorization) :
    Placement Failure Address Bytes :=
  immutable (.authorization authorization.publisher) (documents.authorizationBytes authorization)

/-- `publish`. -/
def publish (body : Bytes) (now minimumGeneration : UInt64) : OnVault String := do
  let files ← read Cabinet.contents
  let (envelope, package) ← verified crypto documents files body now minimumGeneration
  publishPackage crypto documents envelope.package
  place (ownerPlacement documents package.name envelope.authorization.publisher)
  place (provenancePlacement documents package envelope.provenance)
  place (authorizationPlacement documents envelope.authorization)
  return "/v1/packages/" ++ package.name ++ "/" ++ package.version ++ ".nivpkg"

/-- The documents of a release, in the order in which they are placed. -/
def placements (envelope : PublishEnvelope) (package : Package) (manifest : Manifest) :
    List (Placement Failure Address Bytes) :=
  [artifactPlacement crypto package envelope.package,
    metadataPlacement crypto documents package manifest envelope.package,
    ownerPlacement documents package.name envelope.authorization.publisher,
    provenancePlacement documents package envelope.provenance,
    authorizationPlacement documents envelope.authorization]

variable {crypto documents} {files : Files} {body : Bytes} {now minimumGeneration : UInt64}
  {envelope : PublishEnvelope} {package : Package} {c : Vault}

variable {manifest : Manifest}

theorem nodup_placements :
    ((placements crypto documents envelope package manifest).map Placement.key).Nodup := by
  simp [placements, artifactPlacement, metadataPlacement, ownerPlacement, provenancePlacement,
    authorizationPlacement, immutable]

theorem verified_eq_ok
    (h : verified crypto documents files body now minimumGeneration = .ok (envelope, package)) :
    Package.decode envelope.package = .ok package ∧
      ∃ manifest, packageManifest package = .ok manifest := by
  simp only [verified, bind_eq_ok_iff] at h
  obtain ⟨envelope, -, root, -, status, -, advisories, -, package, hr, -, -, heq⟩ := h
  cases heq
  have hd := ((Trust.verifyRelease_eq_ok crypto).mp hr).1.decoded
  obtain ⟨bytes, source, manifest, hf, hso, hp, -, -⟩ := (Package.decode_decoded hd).manifest
  refine ⟨hd, manifest, ?_⟩
  rw [packageManifest, Package.manifestText, hf, Option.bind_some, hso]
  exact hp

theorem exec_publish_of_error {failure : Failure}
    (h : verified crypto documents c.contents body now minimumGeneration = .error failure) :
    exec (publish crypto documents body now minimumGeneration) c = (.error failure, c) := by
  rw [publish, exec_bind, exec_read]
  dsimp only
  rw [exec_bind, h, exec_lift]

theorem exec_publish_of_ok
    (h : verified crypto documents c.contents body now minimumGeneration = .ok (envelope, package))
    (hm : packageManifest package = .ok manifest) :
    exec (publish crypto documents body now minimumGeneration) c =
      exec (placeAll (placements crypto documents envelope package manifest) >>= fun _ =>
        pure ("/v1/packages/" ++ package.name ++ "/" ++ package.version ++ ".nivpkg")) c := by
  have hd : Trust.ofExcept (Package.decode envelope.package) = .ok package :=
    Trust.ofExcept_eq_ok.mpr (verified_eq_ok h).1
  rw [publish, exec_bind, exec_read]
  dsimp only
  rw [h, lift_ok_bind]
  rw [publishPackage, hd, lift_ok_bind, Trust.ofExcept_eq_ok.mpr hm, lift_ok_bind]
  simp only [placements, placeAll, bind_assoc, pure_bind]

/-- A refused request leaves the registry as it was, exactly if no document of a verified release
conflicts behind one that is missing. -/
theorem refused_publish_unchanged_iff (crypto : Trust.Crypto) (documents : Documents) (body : Bytes)
    (now minimumGeneration : UInt64) (c : Vault) :
    (∀ failure c', exec (publish crypto documents body now minimumGeneration) c =
      (.error failure, c') → c'.contents = c.contents) ↔
    ∀ envelope package manifest,
      verified crypto documents c.contents body now minimumGeneration = .ok (envelope, package) →
        packageManifest package = .ok manifest →
          Orderly (placements crypto documents envelope package manifest) c.contents := by
  cases hverified : verified crypto documents c.contents body now minimumGeneration with
  | error failure =>
    refine iff_of_true (fun other c' h => ?_) nofun
    rw [exec_publish_of_error hverified] at h
    rw [← (Prod.mk.inj h).2]
  | ok found =>
    obtain ⟨envelope, package⟩ := found
    obtain ⟨manifest, hmanifest⟩ := (verified_eq_ok hverified).2
    have hplaced := placeAll_unchanged_iff (c := c)
      (@nodup_placements crypto documents envelope package manifest)
    rw [exec_publish_of_ok hverified hmanifest, exec_bind]
    rcases hexec : exec (placeAll (placements crypto documents envelope package manifest)) c
      with ⟨outcome, c₁⟩
    rw [hexec] at hplaced
    refine Iff.trans ?_ (hplaced.trans ?_)
    · cases outcome with
      | ok done => exact iff_of_true (fun _ _ h => (nomatch h)) fun h => absurd rfl h
      | error failure =>
        refine ⟨fun h _ => h failure c₁ rfl, fun h other c' heq => ?_⟩
        rw [← (Prod.mk.inj heq).2]
        exact h (fun h => (nomatch h))
    · constructor
      · rintro h _ _ other ⟨⟩ hother
        obtain rfl := Except.ok.inj (hmanifest.symm.trans hother)
        exact h
      · exact fun h => h envelope package manifest rfl hmanifest

theorem publish_half_done
    (h : verified crypto documents c.contents body now minimumGeneration = .ok (envelope, package))
    (ha : c.contents (.artifact package.name package.version) = none)
    (hc : (authorizationPlacement documents envelope.authorization).Conflicts c.contents) :
    ∃ failure c', exec (publish crypto documents body now minimumGeneration) c = (.error failure, c') ∧
      c'.contents (.artifact package.name package.version) = some envelope.package := by
  obtain ⟨manifest, hm⟩ := (verified_eq_ok h).2
  have hr := (placeAll_isOk (c := c)
    (@nodup_placements crypto documents envelope package manifest)).not.mpr
      fun hn => hn _ (by simp [placements]) hc
  have hl : (exec (placeAll (placements crypto documents envelope package manifest))
      c).2.contents (.artifact package.name package.version) = some envelope.package := by
    rw [placements, exec_placeAll_cons_of_ok (exec_place_missing ha)]
    apply placeAll_keeps
    exact Function.update_self ..
  rw [exec_publish_of_ok h hm, exec_bind]
  rcases hec : exec (placeAll (placements crypto documents envelope package manifest)) c
    with ⟨outcome, c₁⟩
  rw [hec] at hr hl
  cases outcome with
  | ok done => exact absurd rfl hr
  | error failure => exact ⟨failure, c₁, rfl, hl⟩

/-- Documents that are told apart by little: an authorization is written as the time it expires. -/
def sampleDocuments : Documents where
  fromSlice _ := .ok .null
  toVecPretty _ := []
  status _ := .ok (Trust.sampleRelease ∅ 0).status
  advisories _ := .ok []
  provenance _ := .ok (Trust.sampleRelease ∅ 0).provenance
  authorization _ := .ok (Trust.sampleRelease ∅ 0).authorization
  ownership _ := .ok ⟨1, "shapes", "acme"⟩
  action _ := .error "no action"
  ownershipBytes _ := []
  provenanceBytes _ := []
  authorizationBytes value := leBytes 8 value.expiresAt.toNat
  actionBytes _ := []

def sampleArchive : Bytes := (Trust.sampleRelease ∅ 0).packageBytes

def sampleBody : Bytes :=
  PublishEnvelope.magic ++ leBytes 2 1 ++ leBytes 4 0 ++ leBytes 4 0 ++
    leBytes 8 sampleArchive.length ++ sampleArchive

/-- The registry knows the publisher by an authorization that ran out at another time. -/
def reauthorized : Vault where
  contents
    | .rootKey => some (utf8 (Trust.encodeHex (List.replicate 32 7)))
    | .status | .advisories => some []
    | .authorization "acme" => some (sampleDocuments.authorizationBytes
        { (Trust.sampleRelease ∅ 0).authorization with expiresAt := 160 })
    | _ => none
  past := []

theorem verified_reauthorized :
    verified Trust.lenient sampleDocuments reauthorized.contents sampleBody 150 0 =
      .ok (⟨sampleArchive, (Trust.sampleRelease ∅ 0).provenance,
        (Trust.sampleRelease ∅ 0).authorization⟩, Trust.samplePackage) := by
  have hen : PublishEnvelope.decode sampleDocuments.toReaders sampleBody =
      .ok ⟨sampleArchive, (Trust.sampleRelease ∅ 0).provenance,
        (Trust.sampleRelease ∅ 0).authorization⟩ := by decide +kernel
  have hr : readRoot reauthorized.contents = .ok (List.replicate 32 7) := by decide +kernel
  have hst : readJson sampleDocuments.status reauthorized.contents .status "registry status" =
      .ok (Trust.sampleRelease ∅ 0).status := rfl
  have ha : readJson sampleDocuments.advisories reauthorized.contents .advisories
      "advisories" = .ok [] := rfl
  have how : checkOwnership sampleDocuments reauthorized.contents "shapes" "acme" = .ok () := rfl
  simp only [verified, bind_eq_ok_iff]
  exact ⟨_, Trust.ofExcept_eq_ok.mpr hen, _, hr, _, hst, _, ha, _,
    Trust.verifyRelease_sample, _, how, rfl⟩

/-- The publisher is told of a conflict after the release went live. -/
theorem reauthorized_publish_refused :
    ∃ failure c', exec (publish Trust.lenient sampleDocuments sampleBody 150 0) reauthorized =
        (.error failure, c') ∧
      reauthorized.contents (.artifact "shapes" "1.0.0") = none ∧
      c'.contents (.artifact "shapes" "1.0.0") = some sampleArchive := by
  have hconflict : (authorizationPlacement sampleDocuments
      (Trust.sampleRelease ∅ 0).authorization).Conflicts reauthorized.contents :=
    ⟨leBytes 8 160, rfl, by decide⟩
  obtain ⟨failure, c', hexec, hlive⟩ := publish_half_done verified_reauthorized rfl hconflict
  exact ⟨failure, c', hexec, rfl, hlive⟩

end Server

end Nivren
