import Nivren.Registry.Store

/-! What the registry server answers to a request that reads.

The path of a request is tested as a text; the test for a yanked release looks at its components, and
the file is read at the path behind the registry's own.
-/

namespace Nivren

open Codec FileTree

/-- `Component` of the standard library, without a drive. -/
inductive Component
  | rootDir
  | curDir
  | parentDir
  | normal (name : String)
deriving DecidableEq

/-- `Path::components`: empty parts are passed over, and `.` is unless a relative path starts with it. -/
def components (text : String) : List Component :=
  (if isAbsolute text then [.rootDir]
    else if (text.toList.splitOn '/').head? = some ['.'] then [.curDir] else []) ++
    (segments text).map fun part => if part = ".." then .parentDir else .normal part

def Component.name? : Component → Option String
  | .normal name => some name
  | _ => none

namespace Server

structure Response where
  code : ℕ
  reason : String
  contentType : String
  body : Bytes

def startsWith (start text : String) : Bool := start.toList.isPrefixOf text.toList

def endsWith (ending text : String) : Bool := ending.toList.isSuffixOf text.toList

def isPublicName (name : String) : Bool :=
  decide (name ≠ "") && decide ((utf8 name).length ≤ 255) &&
    name.toList.all fun c => c.isAlphanum || c == '-' || c == '_' || c == '.'

/-- The list of what is public. -/
def allowed (relative : String) : Bool :=
  (startsWith "v1/index/" relative && endsWith ".json" relative) ||
    (startsWith "v1/packages/" relative && endsWith ".nivpkg" relative) ||
    (startsWith "v1/provenance/" relative && endsWith ".json" relative) ||
    (startsWith "v1/authorizations/" relative && endsWith ".json" relative) ||
    (startsWith "v1/admin/" relative && endsWith ".json" relative &&
      !endsWith "/pending.json" relative) ||
    ["v1/trust/root.pub", "v1/trust/status.json", "v1/trust/advisories.json"].contains relative

def contentType (relative : String) : String :=
  if endsWith ".nivpkg" relative then "application/vnd.nivren.package-v1"
  else if endsWith ".json" relative then "application/json"
  else "text/plain"

/-- `public_path`. -/
def publicPath (path : String) : Option (String × String) :=
  if path.toList.any fun c => ['%', '?', '#', '\\'].contains c then none
  else match path.toList with
  | '/' :: rest =>
    let relative := String.ofList rest
    if (components relative).all fun component => component.name?.any isPublicName then
      if allowed relative then some (relative, contentType relative) else none
    else none
  | _ => none

variable (cwd : Path) (formats : Formats)

def archiveIdentity (relative : String) : Option (String × String) :=
  match (components relative).filterMap Component.name? with
  | "v1" :: "packages" :: name :: file :: _ =>
    (file.toList.dropSuffix? ".nivpkg".toList).map fun version => (name, String.ofList version)
  | _ => none

/-- An entry of the index that can be read says that the release is yanked. -/
def saysYanked : Except Fault Bytes → Bool
  | .error _ => false
  | .ok bytes =>
    match formats.fromSlice bytes with
    | .error _ => false
    | .ok metadata => (metadata.index "yanked").asBool == some true

/-- `archive_is_yanked`. -/
def archiveIsYanked (registry relative : String) : OnDisk Bool :=
  match archiveIdentity relative with
  | none => return false
  | some (name, version) => do
    let entry ← Disk.read (resolve cwd (Store.metadataPath name version registry))
    return saysYanked formats entry

def maxBody : ℕ := 66 * 1024 * 1024

inductive ReadFault
  | fault (fault : Fault)
  | tooLarge

def sizeFault (place : Path) (tree : Node File) : Option ReadFault :=
  match tree.look place with
  | none => some (.fault (tree.missing place))
  | some .dir => none
  | some (.file file) => if maxBody < file.bytes.length then some .tooLarge else none

/-- `bounded_read`. -/
def boundedRead (place : Path) : OnDisk (Except ReadFault Bytes) := do
  match ← Disk.inspect place (sizeFault place) with
  | some fault => return .error fault
  | none => return (← Disk.read place).mapError .fault

def serveFile (registry relative contentType : String) : OnDisk Response := do
  match ← boundedRead (resolve cwd (join registry relative)) with
  | .ok bytes => return ⟨200, "OK", contentType, bytes⟩
  | .error (.fault .notFound) => return ⟨404, "Not Found", "text/plain", utf8 "not found\n"⟩
  | .error _ => return ⟨500, "Internal Server Error", "text/plain", utf8 "storage error\n"⟩

def servePath (registry path : String) : OnDisk Response := do
  match publicPath path with
  | none => return ⟨404, "Not Found", "text/plain", utf8 "not found\n"⟩
  | some (relative, contentType) =>
    if ← archiveIsYanked cwd formats registry relative then
      return ⟨410, "Gone", "text/plain", utf8 "release is yanked\n"⟩
    else serveFile cwd registry relative contentType

structure SearchResult where
  name : String
  versions : List String

def isSearchable (query : String) : Bool :=
  decide ((utf8 query).length ≤ 64) &&
    query.toList.all fun c => c.isAlphanum || c == '-' || c == '_'

/-- `version_parts`. -/
def versionParts (version : String) : ℕ × ℕ × ℕ :=
  let parts := (version.toList.splitOn '.').map fun part =>
    ((Text.decimal part).filter (· < 2 ^ 64)).getD 0
  (parts.getD 0 0, parts.getD 1 0, parts.getD 2 0)

def notNewer (a b : ℕ × ℕ × ℕ) : Bool :=
  a.1 < b.1 || a.1 == b.1 && (a.2.1 < b.2.1 || a.2.1 == b.2.1 && a.2.2 ≤ b.2.2)

/-- The version that an entry of the index offers. -/
def offeredVersion (file : String) (bytes : Bytes) : Option String :=
  match formats.fromSlice bytes with
  | .error _ => none
  | .ok document =>
    let version := String.ofList (stem file.toList)
    if (document.index "yanked").asBool.getD false then none
    else if (Manifest.validateIdentity "search-result" version).toBool then some version
    else none

def searchVersion (package : Path) (file : String) : OnDisk (Option String) := do
  let isFile ← Disk.inspect (package ++ [file]) fun tree =>
    (tree.look (package ++ [file])) matches some (.file _)
  if isFile && extension file.toList == some "json".toList then
    match ← Disk.read (package ++ [file]) with
    | .error _ => return none
    | .ok bytes => return offeredVersion formats file bytes
  else return none

def searchVersions (package : Path) : List String → OnDisk (List String)
  | [] => return []
  | file :: rest => do
    let version ← searchVersion formats package file
    return version.toList ++ (← searchVersions package rest)

def searchPackage (index : Path) (query name : String) : OnDisk (Option SearchResult) := do
  let isDir ← Disk.isDir (index ++ [name])
  if isDir && decide (query.toList.map Char.toLower <:+: name.toList.map Char.toLower) then
    let files ← Disk.orFail (Disk.inspect (index ++ [name]) (readDir (index ++ [name])))
      fun fault => packageError ("cannot read registry index: " ++ faultText fault)
    let versions ← searchVersions formats (index ++ [name]) files
    let newestFirst := versions.mergeSort fun a b => notNewer (versionParts b) (versionParts a)
    return if newestFirst.isEmpty then none else some ⟨name, newestFirst⟩
  else return none

def searchPackages (index : Path) (query : String) : List String → OnDisk (List SearchResult)
  | [] => return []
  | name :: rest => do
    let found ← searchPackage formats index query name
    return found.toList ++ (← searchPackages index query rest)

/-- The results of a search, by name. -/
def searchIndex (query registry : String) : OnDisk (List SearchResult) := do
  let index := resolve cwd (join registry "v1/index")
  match ← Disk.inspect index (readDir index) with
  | .error .notFound => return []
  | .error fault => throw (packageError ("cannot search registry: " ++ faultText fault))
  | .ok names =>
    let results ← searchPackages formats index query names
    return (results.mergeSort fun a b => decide (a.name ≤ b.name)).take 100

/-- `search`. -/
def search (query registry : String) : OnDisk (List SearchResult) :=
  if isSearchable query then searchIndex cwd formats query registry
  else throw (packageError "registry search must use at most 64 ASCII letters, digits, '-' or '_'")

def serveSearch (toVec : List SearchResult → Bytes) (registry query : String) : OnDisk Response :=
  tryCatch (do return ⟨200, "OK", "application/json", toVec (← search cwd formats query registry)⟩)
    fun error => return ⟨400, "Bad Request", "text/plain", utf8 error.message⟩

/-- What `handle_request` answers to `GET`; `toVec` writes the results of a search. -/
def get (toVec : List SearchResult → Bytes) (registry path : String) : OnDisk Response :=
  if path = "/healthz" then
    return ⟨200, "OK", "application/json", utf8 "\x7b\"status\":\"ok\"\x7d\n"⟩
  else match path.toList.dropPrefix? "/v1/search/".toList with
  | some query => serveSearch cwd formats toVec registry (String.ofList query)
  | none => servePath cwd formats registry path

end Server

end Nivren
