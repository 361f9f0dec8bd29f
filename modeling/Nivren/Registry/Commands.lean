import Nivren.Library.Traversal
import Nivren.Registry.Authority
import Nivren.Registry.Install
import Nivren.Registry.Release
import Nivren.Registry.Store

/-! The install commands.

An install fetches the whole graph of dependencies, compares the authority it would have with the lock
that was reviewed, and only then writes packages and locks. The graph comes from a directory or from a
registry that is asked over the network; what is installed already can be taken over as it is. The root
of a project is a place, since a manifest is loaded with the canonical form of its directory.
-/

namespace Nivren

open Codec FileTree

variable {α : Type}

structure StagedPackage where
  package : Package
  destination : Path
  digest : String
  bytes : Bytes
  manifest : Manifest

/-- The disk and the number of requests made so far. -/
structure Online where
  disk : Disk
  requests : ℕ

abbrev Fetching := Program.Fallible Failure Online

def onDisk (m : OnDisk α) : Fetching α :=
  Program.zoom Online.disk (fun disk s => { s with disk }) Failure.error m

def PackageId.directory (id : PackageId) : String := id.name ++ "-" ++ id.version

namespace Manifest

def id (manifest : Manifest) : PackageId := ⟨manifest.name, manifest.version⟩

def requirements (manifest : Manifest) : List PackageId :=
  manifest.dependencies.toList.map fun entry => ⟨entry.1, entry.2⟩

/-- Where the manifest of a directory is; another place is taken for a manifest itself. -/
def locate (place : Path) : OnDisk Path := do
  if ← Disk.isDir place then return place ++ [manifestName] else return place

/-- `Manifest::load`. -/
def load (place : Path) : OnDisk Manifest := do
  let manifestPlace ← locate place
  let root := manifestPlace.dropLast
  if !(← Disk.exists root) then
    throw (projectError ("cannot resolve project: " ++
      faultText (← Disk.inspect root fun tree => tree.missing root)) 1)
  let bytes ← Disk.orFail (Disk.read manifestPlace) fun fault =>
    projectError ("cannot read " ++ display manifestPlace ++ ": " ++ faultText fault) 1
  match ofUtf8 bytes with
  | none => throw (projectError
      ("cannot read " ++ display manifestPlace ++ ": source file is not valid UTF-8") 1)
  | some source => parse source

end Manifest

namespace Commands

def stateOf (root : Path) : Path := root ++ [".niv"]

def storeOf (root : Path) : Path := root ++ [".niv", "deps"]

def authorityPlace (root : Path) : Path := root ++ [authorityLockfileName]

def openStore (root : Path) : OnDisk Unit := do
  Disk.rejectSymlinkIfPresent (stateOf root)
  Disk.rejectSymlinkIfPresent (storeOf root)
  Disk.orFail (Disk.createDirAll (storeOf root)) fun fault =>
    packageError ("cannot create dependency store: " ++ faultText fault)

/-- A fetched package with its own dependencies. -/
def prepare (root : Path) (id : PackageId) (package : Package) (digest : String) (bytes : Bytes) :
    Except NivError (StagedPackage × List PackageId) :=
  match package.manifestText with
  | none => .error (packageError "dependency manifest is not UTF-8")
  | some embedded => do
    let manifest ← Manifest.parse embedded
    return (⟨package, storeOf root ++ [id.directory], digest, bytes, manifest⟩, manifest.requirements)

abbrev Source := PackageId → Fetching (Package × String × Bytes)

def visitSource (root : Path) (source : Source) (id : PackageId) :
    Fetching (StagedPackage × List PackageId) := do
  let (package, digest, bytes) ← source id
  onDisk (liftM (prepare root id package digest bytes))

def gather (root : Path) (manifest : Manifest) (source : Source) (fuel : ℕ) :
    Fetching (Option (PackageMap StagedPackage)) :=
  Traversal.drain (visitSource root source) fuel manifest.requirements.reverse ∅

/-- The packages of the authority lock: a fetched package has to be the one asked for. -/
def addStaged (packages : Packages) (entry : PackageId × StagedPackage) : Except NivError Packages :=
  if entry.2.manifest.name ≠ entry.1.name ∨ entry.2.manifest.version ≠ entry.1.version then
    .error (packageError ("fetched package '" ++ entry.1.name ++ "' has the wrong authority identity"))
  else .ok (packages.insert entry.1 ("dependency", entry.2.manifest))

def stagedPackages (manifest : Manifest) (staged : PackageMap StagedPackage) :
    Except NivError Packages :=
  staged.toList.foldlM addStaged ((∅ : Packages).insert manifest.id ("root", manifest))

/-- `guard_prospective_authority`. -/
def guardProspectiveAuthority (root : Path) (expected : String) : OnDisk Unit := do
  match ← Disk.readToString (authorityPlace root) with
  | none => return
  | some actual =>
    if actual ≠ expected then throw (packageError
      ("dependency authority changed; review the difference and run 'niv authority lock' to " ++
        "accept it before installing:\n" ++ Authority.authorityDiff actual expected))

variable (processId : ℕ) (crypto : Trust.Crypto)

def installStaged : List (PackageId × StagedPackage) → OnDisk Unit
  | [] => return
  | (_, entry) :: rest => do
    entry.package.installPackage processId crypto entry.destination entry.digest entry.bytes
    installStaged rest

/-- `commit_staged_install`. -/
def commitStagedInstall (root : Path) (manifest : Manifest) (staged : PackageMap StagedPackage) :
    OnDisk ℕ := do
  let packages ← stagedPackages manifest staged
  let expectedAuthority := Authority.renderAuthorityLock packages
  guardProspectiveAuthority root expectedAuthority
  installStaged processId crypto staged.toList
  let digests : PackageMap String := staged.map fun _ entry => entry.digest
  Disk.writeAtomic processId (root ++ [lockfileName]) (utf8 (manifest.resolvedLockfile digests))
  Disk.writeAtomic processId (authorityPlace root) (utf8 expectedAuthority)
  return digests.size

def commitGathered (root : Path) (manifest : Manifest) (gathered : Option (PackageMap StagedPackage)) :
    Fetching (Option ℕ) :=
  match gathered with
  | none => return none
  | some staged => some <$> onDisk (commitStagedInstall processId crypto root manifest staged)

/-- A package of a registry in a directory. -/
def directorySource (cwd : Path) (formats : Formats) (root : Path) (registry : String) : Source :=
  fun id => onDisk do
    let bytes ← Store.fetch cwd crypto formats id.name id.version registry
    let digest := crypto.sha256 bytes
    LockFile.checkLockedDigest root id.name id.version digest
    let package ← Package.decode bytes
    return (package, digest, bytes)

/-- `install_dependencies`. -/
def installDependencies (cwd : Path) (formats : Formats) (root : Path) (manifest : Manifest)
    (registry : String) (fuel : ℕ) : Fetching (Option ℕ) := do
  onDisk (openStore root)
  let gathered ← gather root manifest (directorySource crypto cwd formats root registry) fuel
  commitGathered processId crypto root manifest gathered

/-- The archive of an installed package, with its digest, if the record beside it agrees. -/
def readArchive (destination : Path) (id : PackageId) : OnDisk (Bytes × String) := do
  let archive ← Disk.orFail (Disk.read (destination ++ [Package.archiveName])) fun _ =>
    packageError ("package '" ++ id.name ++ "' " ++ id.version ++ " is not installed; run 'niv install'")
  let digest := crypto.sha256 archive
  match ← Disk.readToString (destination ++ [Package.checksumName]) with
  | none => throw (packageError ("package '" ++ id.name ++ "' has no checksum"))
  | some recorded =>
    if Text.trim recorded.toList ≠ digest.toList then
      throw (packageError ("installed package '" ++ id.name ++ "' checksum does not match"))
    return (archive, digest)

/-- An installed package has to be what its archive says. -/
def visitInstalled (root : Path) (id : PackageId) : OnDisk (String × List PackageId) := do
  let destination := storeOf root ++ [id.directory]
  Disk.rejectSymlinkIfPresent destination
  let (archive, digest) ← readArchive crypto destination id
  let package ← Package.decode archive
  if package.name ≠ id.name ∨ package.version ≠ id.version then
    throw (packageError ("installed package '" ++ id.name ++ "' has the wrong identity"))
  if !(← package.installedPackageMatches crypto destination digest) then
    throw (packageError ("installed package '" ++ id.name ++ "' differs from its locked archive"))
  let dependency ← Manifest.load destination
  return (digest, dependency.requirements)

/-- `installed_lockfile`. -/
def installedLockfile (root : Path) (manifest : Manifest) (fuel : ℕ) : OnDisk (Option String) := do
  let resolved ← Traversal.drain (visitInstalled crypto root) fuel manifest.requirements.reverse ∅
  return resolved.map manifest.resolvedLockfile

/-- An installed package as it counts for authority. -/
def visitAuthority (root : Path) (id : PackageId) :
    OnDisk ((String × Manifest) × List PackageId) := do
  let dependency ← Manifest.load (storeOf root ++ [id.directory])
  if dependency.name ≠ id.name ∨ dependency.version ≠ id.version then
    throw (packageError ("installed package '" ++ id.name ++ "' has the wrong authority identity"))
  return (("dependency", dependency), dependency.requirements)

/-- `installed_authority_lockfile`. -/
def installedAuthorityLockfile (root : Path) (manifest : Manifest) (fuel : ℕ) :
    OnDisk (Option String) := do
  match ← installedLockfile crypto root manifest fuel with
  | none => return none
  | some _ =>
    let packages ← Traversal.drain (visitAuthority root) fuel manifest.requirements.reverse
      ((∅ : Packages).insert manifest.id ("root", manifest))
    return packages.map Authority.renderAuthorityLock

/-- `guard_authority_lock`. -/
def guardAuthorityLock (root : Path) (manifest : Manifest) (fuel : ℕ) : OnDisk (Option Unit) := do
  match ← installedAuthorityLockfile crypto root manifest fuel with
  | none => return none
  | some expected =>
    match ← Disk.readToString (authorityPlace root) with
    | none => some <$> Disk.writeAtomic processId (authorityPlace root) (utf8 expected)
    | some actual =>
      if actual ≠ expected then throw (packageError
        ("dependency authority changed; review the difference and run 'niv authority lock' to " ++
          "accept it:\n" ++ Authority.authorityDiff actual expected))
      return some ()

/-- `install_offline_dependencies`: what is installed is taken as it is. -/
def installOfflineDependencies (root : Path) (manifest : Manifest) (fuel : ℕ) :
    OnDisk (Option ℕ) := do
  match ← installedLockfile crypto root manifest fuel with
  | none => return none
  | some lockfile =>
    let count := (Text.splitText LockFile.separator lockfile.toList).length - 1
    Disk.writeAtomic processId (root ++ [lockfileName]) (utf8 lockfile)
    return (← guardAuthorityLock processId crypto root manifest fuel).map fun _ => count

/-- The other side of the network: the answer to the request of a number, a path and a limit. -/
abbrev Remote := ℕ → String → ℕ → Except NivError Bytes

structure Readers where
  status : Bytes → Except String Trust.RegistryStatus
  advisories : Bytes → Except String (List Trust.Advisory)
  provenance : Bytes → Except String Trust.ReleaseProvenance
  authorization : Bytes → Except String Trust.PublisherAuthorization

structure Trusted where
  rootPublicKey : Bytes
  remote : Remote
  readers : Readers
  /-- The seconds since the epoch, unless the clock stands before it. -/
  now : Option UInt64

def request (remote : Remote) (path : String) (maximum : ℕ) : Fetching Bytes := do
  let number ← Program.read Online.requests
  Program.write fun s => { s with requests := s.requests + 1 }
  onDisk (liftM (remote number path maximum))

/-- `remote_json_with`. -/
def remoteJson (remote : Remote) (reader : Bytes → Except String α) (path : String) : Fetching α := do
  match reader (← request remote path (1024 * 1024)) with
  | .ok document => return document
  | .error reason => throw (.error (packageError
      ("invalid registry document '" ++ path ++ "': " ++ reason)))

def safePublisher (publisher : String) : Bool :=
  publisher != "" && decide ((utf8 publisher).length ≤ 128) &&
    publisher.toList.all fun c => c.isAlphanum || c == '-' || c == '_'

structure Session where
  status : Trust.RegistryStatus
  advisories : List Trust.Advisory
  now : UInt64
  minimum : UInt64

/-- A release of a registry, with all its documents. -/
def fetchRelease (trusted : Trusted) (session : Session) (id : PackageId) : Fetching Trust.Release := do
  let packageBytes ← request trusted.remote
    ("v1/packages/" ++ id.name ++ "/" ++ id.version ++ ".nivpkg") Package.maxPackageSize
  let provenance ← remoteJson trusted.remote trusted.readers.provenance
    ("v1/provenance/" ++ id.name ++ "/" ++ id.version ++ ".json")
  if !safePublisher provenance.publisher then
    throw (.error (packageError "provenance publisher is not a safe identifier"))
  let authorization ← remoteJson trusted.remote trusted.readers.authorization
    ("v1/authorizations/" ++ provenance.publisher ++ ".json")
  return ⟨packageBytes, provenance, authorization, session.status, session.advisories,
    trusted.rootPublicKey, session.now, session.minimum⟩

/-- A verified release. -/
def releaseSource (root : Path) (trusted : Trusted) (session : Session) : Source := fun id => do
  let release ← fetchRelease trusted session id
  let package ← liftM (Trust.verifyRelease crypto release)
  if package.name ≠ id.name ∨ package.version ≠ id.version then
    throw (.error (packageError "registry returned the wrong dependency"))
  let digest := crypto.sha256 release.packageBytes
  onDisk (LockFile.checkLockedDigest root id.name id.version digest)
  return (package, digest, release.packageBytes)

def generationPlace (root : Path) : Path := stateOf root ++ ["registry-generation"]

def parseU64 (value : List Char) : Option UInt64 := (Manifest.parseU64 value).map UInt64.ofNat

theorem parseU64_toString (n : UInt64) : parseU64 (toString n.toNat).toList = some n := by
  rw [parseU64, Manifest.parseU64, Text.decimal_toString]
  simpa [Option.filter] using n.toNat_lt

/-- The generation and the time of issue that are stored for a key. A single number is an older format
and counts for every key. -/
def storedEntry (rootHex : String) : List (List Char) → Option (UInt64 × UInt64)
  | key :: generation :: rest =>
    if key = rootHex.toList then do
      return (← parseU64 generation, (rest.head?.bind parseU64).getD 0)
    else none
  | [generation] => do return (← parseU64 generation, 0)
  | [] => none

def persisted (rootHex : String) (text : Option String) : UInt64 × UInt64 :=
  (text.bind fun value => storedEntry rootHex (Text.splitWhitespace value.toList)).getD (0, 0)

def generationText (rootHex : String) (status : Trust.RegistryStatus) : String :=
  rootHex ++ " " ++ toString status.generation.toNat ++ " " ++ toString status.issuedAt.toNat ++ "\n"

/-- The key the registry shows has to be the trusted one. -/
def checkRoot (trusted : Trusted) : Fetching Unit := do
  let root ← request trusted.remote "v1/trust/root.pub" 4096
  onDisk do
    match ofUtf8 root with
    | none => throw (packageError "registry root key is not UTF-8")
    | some text =>
      let advertised ← Trust.decodeKey (String.ofList (Text.trim text.toList))
      if advertised ≠ trusted.rootPublicKey then
        throw (packageError "registry root key does not match the trusted key")

/-- The start of a trusted install, up to the first dependency. -/
def openSession (root : Path) (trusted : Trusted) : Fetching Session := do
  checkRoot trusted
  let status ← remoteJson trusted.remote trusted.readers.status "v1/trust/status.json"
  let advisories ← remoteJson trusted.remote trusted.readers.advisories "v1/trust/advisories.json"
  onDisk (openStore root)
  let text ← onDisk (Disk.readToString (generationPlace root))
  let (minimum, issuedAt) := persisted (Trust.encodeHex trusted.rootPublicKey) text
  match trusted.now with
  | none => throw (.error (packageError "system clock is before Unix epoch"))
  | some now =>
    if status.generation = minimum ∧ status.issuedAt < issuedAt then
      throw (.error (packageError
        "registry status was replayed: same generation, earlier issue time"))
    return ⟨status, advisories, now, minimum⟩

/-- `install_trusted_with`. -/
def installTrustedWith (root : Path) (manifest : Manifest) (trusted : Trusted) (fuel : ℕ) :
    Fetching (Option ℕ) := do
  let session ← openSession root trusted
  let gathered ← gather root manifest (releaseSource crypto root trusted session) fuel
  match ← commitGathered processId crypto root manifest gathered with
  | none => return none
  | some installed =>
    onDisk (Disk.writeAtomic processId (generationPlace root)
      (utf8 (generationText (Trust.encodeHex trusted.rootPublicKey) session.status)))
    return some installed

end Commands

end Nivren
