import Nivren.Library.Codec
import Nivren.Library.PathText
import Nivren.Registry.Identity

/-! Package archives.

An archive is the magic `NIVP`, a format number, the identity and the files of a package. `decode`
checks every count, every path and, at the end, that the manifest inside gives the same identity.
-/

namespace Nivren

open Codec FileTree List

structure Package where
  name : String
  version : String
  files : TextMap Bytes
deriving DecidableEq

def packageError (message : String) : NivError := .new message 1 1

def manifestName : String := "niv.toml"

namespace Package

def magic : Bytes := [78, 73, 86, 80]

def formatVersion : ℕ := 1

def maxFiles : ℕ := 4096

def maxFileSize : ℕ := 16 * 1024 * 1024

def maxPackageSize : ℕ := 64 * 1024 * 1024

/-- A path with normal components only: a leading `.` and every `..` are not normal. -/
def normalPath (value : String) : Bool :=
  let parts := value.toList.splitOn '/'
  !isAbsolute value && parts.head? != some ['.'] && !parts.contains ['.', '.']

/-- `validate_path`. -/
def validatePath (value : String) : Except NivError Unit :=
  if value = "" ∨ 4096 < (utf8 value).length ∨ '\\' ∈ value.toList then
    .error (packageError "invalid package path")
  else if !normalPath value then
    .error (packageError "package path must be normalized and relative")
  else .ok ()

/-- The files in order, with the size of those before. -/
def validateEach : List (String × Bytes) → ℕ → Except NivError ℕ
  | [], total => .ok total
  | (path, contents) :: rest, total => do
    validatePath path
    if maxFileSize < contents.length then throw (packageError "package file exceeds 16 MiB")
    let total := total + contents.length
    if 2 ^ 64 ≤ total then throw (packageError "package size overflow")
    validateEach rest total

/-- `validate_files`. -/
def validateFiles (files : TextMap Bytes) : Except NivError Unit := do
  if files.isEmpty || maxFiles < files.size then
    throw (packageError "invalid package file count")
  let total ← validateEach files.toList 0
  if maxPackageSize < total then throw (packageError "package contents exceed 64 MiB")

def writeFixed (width value : ℕ) (refusal : String) : Output NivError :=
  if value < 256 ^ width then .ok (leBytes width value) else .error (packageError refusal)

def writeU32 (value : ℕ) : Output NivError := writeFixed 4 value "package value exceeds u32"

def writeU64 (value : ℕ) : Output NivError := writeFixed 8 value "package value exceeds u64"

def writeString (value : String) : Output NivError :=
  writeU32 (utf8 value).length ++ (.ok (utf8 value) : Output NivError)

def writeFile (file : String × Bytes) : Output NivError :=
  writeString file.1 ++ writeU64 file.2.length ++ (.ok file.2 : Output NivError)

/-- `Package::encode`. -/
def encode (package : Package) : Except NivError Bytes := do
  Manifest.validateIdentity package.name package.version
  validateFiles package.files
  let bytes ← (.ok (magic ++ leBytes 2 formatVersion) : Output NivError) ++
    writeString package.name ++ writeString package.version ++
    writeU32 package.files.size ++ writeAll writeFile package.files.toList
  if maxPackageSize < bytes.length then throw (packageError "package exceeds 64 MiB")
  return bytes

namespace Reader

abbrev In := Codec.Reader NivError

def take (count : ℕ) : In Bytes := Codec.take (packageError "truncated package") count

def fixed (width : ℕ) : In ℕ := leValue <$> take width

def string : In String := do
  let length ← fixed 4
  if 4096 < length then throw (packageError "package string exceeds 4096 bytes")
  match ofUtf8 (← take length) with
  | some text => return text
  | none => throw (packageError "package string is not UTF-8")

/-- The files that are still to come, behind those read. -/
def files : ℕ → TextMap Bytes → In (TextMap Bytes)
  | 0, found => return found
  | count + 1, found => do
    let path ← string
    validatePath path
    let length ← fixed 8
    if maxFileSize < length then throw (packageError "package file exceeds 16 MiB")
    let contents ← take length
    if found.contains path then throw (packageError "duplicate package path")
    files count (found.insert path contents)

/-- An archive up to its last file. -/
def package : In Package := do
  if (← take 4) ≠ magic then throw (packageError "invalid package magic")
  let format ← fixed 2
  if format ≠ formatVersion then
    throw (packageError ("unsupported package format " ++ toString format))
  let name ← string
  let version ← string
  Manifest.validateIdentity name version
  let count ← fixed 4
  if count = 0 ∨ maxFiles < count then throw (packageError "invalid package file count")
  return ⟨name, version, ← files count ∅⟩

end Reader

def manifestText (package : Package) : Option String := (package.files[manifestName]?).bind ofUtf8

/-- The manifest has to be there and to name the package. -/
def checkManifest (package : Package) : Except NivError Unit :=
  match package.files[manifestName]? with
  | none => .error (packageError "package has no niv.toml")
  | some bytes =>
    match ofUtf8 bytes with
    | none => .error (packageError "package manifest is not UTF-8")
    | some source => do
      let manifest ← Manifest.parse source
      if manifest.name ≠ package.name ∨ manifest.version ≠ package.version then
        throw (packageError "package identity does not match its manifest")

/-- `Package::decode`. -/
def decode (bytes : Bytes) : Except NivError Package := do
  if maxPackageSize < bytes.length then throw (packageError "package exceeds 64 MiB")
  let (package, rest) ← Reader.package bytes
  if rest ≠ [] then throw (packageError "trailing package data")
  validateFiles package.files
  checkManifest package
  return package

/-- A path that leads to a place below the directory it is read from. -/
structure Normal (path : String) : Prop where
  relative : isAbsolute path = false
  down : ".." ∉ segments path
  nonempty : segments path ≠ []

theorem Normal.resolve {path : String} (h : Normal path) (base : Path) :
    FileTree.resolve base path = base ++ segments path := by
  rw [FileTree.resolve, h.relative]
  exact foldl_step h.down base

theorem exists_splitOn_eq {value : String} (hne : value ≠ "") (hr : isAbsolute value = false) :
    ∃ first rest, value.toList.splitOn '/' = first :: rest ∧ first ≠ [] := by
  obtain ⟨first, rest, hp⟩ := exists_cons_of_ne_nil (splitOn_ne_nil '/' value.toList)
  refine ⟨first, rest, hp, ?_⟩
  rintro rfl
  have hv : ['/'].intercalate (value.toList.splitOn '/') = value.toList := intercalate_splitOn '/'
  rw [hp] at hv
  cases rest with
  | nil =>
    have : value.toList = [] := by simpa using hv.symm
    exact hne (by simpa using this)
  | cons second more =>
    have hh : value.toList.head? = some '/' := by
      rw [← hv]
      simp [intercalate, intersperse]
    simp [isAbsolute, hh] at hr

theorem validatePath_normal {value : String} (h : validatePath value = .ok ()) : Normal value := by
  unfold validatePath at h
  split at h
  · cases h
  next hsh =>
    split at h
    · cases h
    next hn =>
      rw [Bool.not_eq_true, Bool.not_eq_false'] at hn
      simp only [normalPath, Bool.and_eq_true, Bool.not_eq_true'] at hn
      obtain ⟨⟨hr, hh⟩, hup⟩ := hn
      have hne : value ≠ "" := fun heq => hsh (.inl heq)
      refine ⟨hr, fun hmem => ?_, ?_⟩
      · obtain ⟨part, hpa, heq⟩ := mem_map.mp (mem_filter.mp hmem).1
        have hd : part = ['.', '.'] := by
          rw [← String.toList_ofList (l := part), heq]
          rfl
        rw [hd] at hpa
        simp [hpa] at hup
      · obtain ⟨first, rest, hp, hf⟩ := exists_splitOn_eq hne hr
        refine ne_nil_of_mem (mem_filter.mpr ⟨mem_map.mpr ⟨first, ?_, rfl⟩, ?_⟩)
        · simp [hp]
        · have hhe : first ≠ ['.'] := by
            rintro rfl
            simp [hp] at hh
          have hdot : String.ofList first ≠ "." := fun heq => hhe (by
            rw [← String.toList_ofList (l := first), heq]
            rfl)
          simp [hf, hdot]

theorem validateEach_normal {files : List (String × Bytes)} {total result : ℕ}
    (h : validateEach files total = .ok result) : ∀ file ∈ files, Normal file.1 := by
  induction files generalizing total with
  | nil => simp
  | cons file rest ih =>
    obtain ⟨path, contents⟩ := file
    obtain ⟨_, hp, h⟩ := bind_eq_ok_iff.mp h
    obtain ⟨-, h⟩ := unless_eq_ok_iff.mp h
    obtain ⟨-, h⟩ := unless_eq_ok_iff.mp h
    exact forall_mem_cons.mpr ⟨validatePath_normal hp, ih h⟩

structure Decoded (package : Package) : Prop where
  normal : ∀ file ∈ package.files.toList, Normal file.1
  manifest : ∃ bytes source manifest, package.files[manifestName]? = some bytes ∧
    ofUtf8 bytes = some source ∧ Manifest.parse source = .ok manifest ∧
      manifest.name = package.name ∧ manifest.version = package.version

variable {package : Package}

theorem checkManifest_eq_ok (h : checkManifest package = .ok ()) :
    ∃ bytes source manifest, package.files[manifestName]? = some bytes ∧
      ofUtf8 bytes = some source ∧ Manifest.parse source = .ok manifest ∧
        manifest.name = package.name ∧ manifest.version = package.version := by
  unfold checkManifest at h
  cases hb : package.files[manifestName]? with
  | none =>
    rw [hb] at h
    cases h
  | some bytes =>
    rw [hb] at h
    simp only at h
    cases hso : ofUtf8 bytes with
    | none =>
      rw [hso] at h
      cases h
    | some source =>
      rw [hso] at h
      obtain ⟨manifest, hm, h⟩ := bind_eq_ok_iff.mp h
      by_cases hd : manifest.name ≠ package.name ∨ manifest.version ≠ package.version
      · rw [if_pos hd] at h
        cases h
      · rw [not_or, not_not, not_not] at hd
        exact ⟨bytes, source, manifest, rfl, hso, hm, hd⟩

theorem decode_decoded {bytes : Bytes} (h : decode bytes = .ok package) : Decoded package := by
  unfold decode at h
  obtain ⟨-, h⟩ := unless_eq_ok_iff.mp h
  obtain ⟨⟨found, rest⟩, -, h⟩ := bind_eq_ok_iff.mp h
  obtain ⟨-, h⟩ := unless_eq_ok_iff.mp h
  obtain ⟨_, hf, h⟩ := bind_eq_ok_iff.mp h
  obtain ⟨_, hm, h⟩ := bind_eq_ok_iff.mp h
  cases h
  unfold validateFiles at hf
  obtain ⟨-, hf⟩ := unless_eq_ok_iff.mp hf
  obtain ⟨total, hea, -⟩ := bind_eq_ok_iff.mp hf
  exact ⟨validateEach_normal hea, checkManifest_eq_ok hm⟩

theorem Decoded.validName (h : Decoded package) : Manifest.validName package.name = true := by
  obtain ⟨_, _, manifest, -, -, hp, hn, -⟩ := h.manifest
  rw [← hn]
  exact (Manifest.parse_valid hp).1

end Package

end Nivren
