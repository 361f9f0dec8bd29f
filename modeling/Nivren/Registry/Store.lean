import Nivren.Registry.Disk
import Nivren.Registry.Documents
import Nivren.Json

/-! The registry as a directory.

`fetch` and `set_yanked` find the files of a package by its identity, which they check first. What they
touch lies in the directories of the package when the identity holds no quotation mark.
-/

namespace Nivren

open Codec FileTree
open Manifest (quoteMark validName validVersion validateIdentity)

structure Formats where
  /-- `serde_json::from_slice`. -/
  fromSlice : Bytes → Except String Json
  /-- `serde_json::to_vec_pretty`. -/
  toVecPretty : Json → Bytes

namespace Store

variable (cwd : Path) (processId : ℕ) (crypto : Trust.Crypto) (formats : Formats)

def metadataPath (name version registry : String) : String :=
  join (join (join registry "v1/index") name) (version ++ ".json")

def artifactPath (name version registry : String) : String :=
  join (join (join registry "v1/packages") name) (version ++ ".nivpkg")

/-- The entry of a package in the index. -/
def parseMetadata (name version : String) (bytes : Bytes) : Except NivError Json :=
  match formats.fromSlice bytes with
  | .error reason => .error (packageError ("invalid registry metadata: " ++ reason))
  | .ok metadata =>
    if !(metadata.index "format").isInteger 1 || (metadata.index "name").asStr != some name ||
        (metadata.index "version").asStr != some version then
      .error (packageError "registry metadata identity is invalid")
    else .ok metadata

def readMetadata (name version registry : String) : OnDisk Json := do
  let bytes ← Disk.orFail (Disk.read (resolve cwd (metadataPath name version registry)))
    fun fault => packageError ("cannot read registry metadata: " ++ faultText fault)
  parseMetadata formats name version bytes

/-- The checksum and the size the index gives. -/
def expectation (name version : String) (metadata : Json) : Except NivError (String × ℕ) :=
  if ((metadata.index "yanked").asBool).getD false then
    .error (packageError
      ("package " ++ name ++ " " ++ version ++ " is yanked and cannot be newly installed"))
  else match (metadata.index "sha256").asStr with
  | none => .error (packageError "registry metadata has no checksum")
  | some expected =>
    match (metadata.index "size").asU64 with
    | none => .error (packageError "registry metadata has an invalid size")
    | some expectedSize =>
      if Package.maxPackageSize < expectedSize then
        .error (packageError "registry package exceeds size limit")
      else .ok (expected, expectedSize)

/-- The checks on an artifact that only need its bytes. -/
def checkArtifact (name version : String) (expected : String) (expectedSize : ℕ) (bytes : Bytes) :
    Except NivError Bytes := do
  if bytes.length ≠ expectedSize then throw (packageError "registry artifact size mismatch")
  if crypto.sha256 bytes ≠ expected then
    throw (packageError "registry artifact checksum mismatch")
  let package ← Package.decode bytes
  if package.name ≠ name ∨ package.version ≠ version then
    throw (packageError "registry artifact identity mismatch")
  return bytes

/-- `fetch`. -/
def fetch (name version registry : String) : OnDisk Bytes := do
  validateIdentity name version
  let metadata ← readMetadata cwd formats name version registry
  let (expected, expectedSize) ← expectation name version metadata
  let bytes ← Disk.orFail (Disk.read (resolve cwd (artifactPath name version registry)))
    fun fault => packageError ("cannot read registry artifact: " ++ faultText fault)
  checkArtifact crypto name version expected expectedSize bytes

/-- `set_yanked`. -/
def setYanked (name version registry : String) (yanked : Bool) : OnDisk Unit := do
  validateIdentity name version
  let place := resolve cwd (metadataPath name version registry)
  Disk.rejectSymlinkIfPresent place
  let metadata ← readMetadata cwd formats name version registry
  Disk.writeAtomic processId place (formats.toVecPretty (metadata.setIndex "yanked" (.bool yanked)))

def Within (registry name : String) (place : Path) : Prop :=
  resolve cwd registry ++ ["v1", "index", name] <+: place ∨
    resolve cwd registry ++ ["v1", "packages", name] <+: place

theorem resolve_entry {registry area part name file : String}
    (hr : isAbsolute area = false) (ha : segments area = ["v1", part])
    (hp : part ≠ "..") (hn : IsName name) (hf : IsName file) :
    resolve cwd (join (join (join registry area) name) file) =
      resolve cwd registry ++ ["v1", part, name] ++ [file] := by
  have hro : resolve cwd (join registry area) = resolve cwd registry ++ ["v1", part] := by
    rw [resolve_join hr, ha]
    simp [step, hp]
  rw [resolve_join_name hf, resolve_join_name hn, hro]
  simp

theorem isName_of_validName {name : String} (h : validName name = true) : IsName name := by
  have hch := fun c => @Manifest.validName_mem name h c
  have hne : name.toList ≠ [] := by
    have := (Bool.and_eq_true_iff.mp h).1
    simpa using this
  obtain ⟨c, rest, hn⟩ := List.exists_cons_of_ne_nil hne
  have hc : c ∈ name.toList := by simp [hn]
  exact isName_of_mem hc (fun heq => absurd (hch c hc) (by rw [heq]; decide))
    fun hsl => absurd (hch '/' hsl) (by decide)

theorem isName_versioned {version extension : String} (h : validVersion version = true)
    {c : Char} (hc : c ∈ extension.toList) (hdot : c ≠ '.') (hw : '/' ∉ extension.toList) :
    IsName (version ++ extension) := by
  refine @isName_of_mem _ c ?_ hdot ?_
  · rw [String.toList_append]
    exact List.mem_append_right _ hc
  · rw [String.toList_append, List.mem_append, not_or]
    exact ⟨fun hsl => absurd (Manifest.validVersion_mem h hsl) (by decide), hw⟩

section Valid

variable {cwd processId crypto formats} {name version registry : String}
  (hn : validName name = true) (hv : validVersion version = true)

include hn hv

theorem resolve_metadata : resolve cwd (metadataPath name version registry) =
    resolve cwd registry ++ ["v1", "index", name] ++ [version ++ ".json"] :=
  @resolve_entry cwd registry "v1/index" "index" name _ (by decide) (by decide) (by decide)
    (isName_of_validName hn) (isName_versioned hv (c := 'j') (by decide) (by decide) (by decide))

theorem within_metadata :
    Within cwd registry name (resolve cwd (metadataPath name version registry)) := by
  left
  rw [resolve_metadata hn hv]
  exact List.prefix_append ..

theorem within_temporary :
    Within cwd registry name
      (Disk.temporary processId (resolve cwd (metadataPath name version registry))) := by
  left
  rw [resolve_metadata hn hv, Disk.temporary, List.dropLast_concat]
  exact List.prefix_append ..

theorem within_artifact :
    Within cwd registry name (resolve cwd (artifactPath name version registry)) := by
  have hf : IsName (version ++ ".nivpkg") :=
    isName_versioned hv (c := 'n') (by decide) (by decide) (by decide)
  have hp := @resolve_entry cwd registry "v1/packages" "packages" name _ (by decide)
    (by decide) (by decide) (isName_of_validName hn) hf
  right
  rw [artifactPath, hp]
  exact List.prefix_append ..

theorem stays_readMetadata : Disk.Stays (Within cwd registry name)
    (readMetadata cwd formats name version registry) :=
  .bind (Disk.moves_orFail (.inspect (within_metadata hn hv)) _) fun _ => .lift _

theorem stays_fetch :
    Disk.Stays (Within cwd registry name) (fetch cwd crypto formats name version registry) := by
  refine .bind (.lift _) fun _ => .bind (stays_readMetadata hn hv) fun metadata =>
    .bind (.lift _) fun _ => ?_
  exact .bind (Disk.moves_orFail (.inspect (within_artifact hn hv)) _) fun _ => .lift _

theorem stays_setYanked (yanked : Bool) : Disk.Stays (Within cwd registry name)
    (setYanked cwd processId formats name version registry yanked) := by
  have hm := @within_metadata cwd _ _ registry hn hv
  refine .bind (.lift _) fun _ => .bind (Disk.moves_rejectSymlinkIfPresent (.inspect hm)) fun _ => ?_
  refine .bind (stays_readMetadata hn hv) fun metadata => ?_
  exact .writeAtomic hm (within_temporary hn hv)

end Valid

/-- An identity that is a safe part of a path: it is valid, it holds none of the characters paths and
manifests are written with, and the commands that use it stay in the directories of the package. -/
structure SafeIdentity (name version : String) : Prop where
  validName : validName name = true
  validVersion : validVersion version = true
  characters : ∀ c ∈ ['/', quoteMark, '\n', '\r', '#'], c ∉ name.toList ∧ c ∉ version.toList
  fetched : ∀ cwd crypto formats registry tree, ∀ place ∈
    (Program.exec (fetch cwd crypto formats name version registry) ⟨tree, []⟩).2.touched,
      Within cwd registry name place
  yanked : ∀ cwd processId formats registry tree yanked, ∀ place ∈
    (Program.exec (setYanked cwd processId formats name version registry yanked) ⟨tree, []⟩).2.touched,
      Within cwd registry name place

/-- Among the accepted identities the safe ones are those without quotation marks. -/
theorem safeIdentity_iff (name version : String)
    (haccepted : validateIdentity name version = .ok ()) :
    SafeIdentity name version ↔
      quoteMark ∉ name.toList ∧ quoteMark ∉ version.toList := by
  constructor
  · intro hsafe
    exact hsafe.characters quoteMark (by decide)
  · rintro ⟨hname, hversion⟩
    obtain ⟨hvalidName, hvalidVersion⟩ := (Manifest.validateIdentity_eq_ok hname hversion).mp haccepted
    have hcharacters : ∀ c ∈ ['/', quoteMark, '\n', '\r', '#'],
        (c.isLower || c.isDigit || c == '-' || c == '_') = false ∧ (c.isDigit || c == '.') = false := by
      have hall : (['/', quoteMark, '\n', '\r', '#'].all fun c =>
          !(c.isLower || c.isDigit || c == '-' || c == '_') && !(c.isDigit || c == '.')) = true := by
        decide
      intro c hc
      simpa using List.all_eq_true.mp hall c hc
    refine ⟨hvalidName, hvalidVersion, fun c hc => ?_, ?_, ?_⟩
    · obtain ⟨hn, hv⟩ := hcharacters c hc
      refine ⟨fun h => ?_, fun h => ?_⟩
      · simp [Manifest.validName_mem hvalidName h] at hn
      · simp [Manifest.validVersion_mem hvalidVersion h] at hv
    · intro cwd crypto formats registry tree place hplace
      exact (stays_fetch hvalidName hvalidVersion _ _ hplace).resolve_left (by simp)
    · intro cwd processId formats registry tree yanked place hplace
      exact (stays_setYanked hvalidName hvalidVersion yanked _ _ hplace).resolve_left (by simp)

/-- A plain identity. -/
theorem safeIdentity_plain : SafeIdentity "shapes" "1.0.0" :=
  (safeIdentity_iff "shapes" "1.0.0" (by decide +kernel)).mpr ⟨by decide, by decide⟩

/-- A quotation mark and a comment sign hide the rest of a name from the check; `fetch` then reads
outside the registry. -/
theorem unsafeIdentity_accepted :
    validateIdentity "x\"#/../../../../secret" "1.0.0" = .ok () ∧
      validName "x\"#/../../../../secret" = false ∧
      (Program.exec (fetch [] ⟨id, fun _ => true, fun _ _ _ => true⟩ ⟨fun _ => .error "", fun _ => []⟩
        "x\"#/../../../../secret" "1.0.0" "/registry") ⟨.dir [], []⟩).2.touched =
          [["secret", "1.0.0.json"]] ∧
      ¬ SafeIdentity "x\"#/../../../../secret" "1.0.0" := by
  have hinvalid : validName "x\"#/../../../../secret" = false := by decide
  refine ⟨by decide +kernel, hinvalid, by decide +kernel, fun hsafe => ?_⟩
  rw [hsafe.validName] at hinvalid
  cases hinvalid

end Store

end Nivren
