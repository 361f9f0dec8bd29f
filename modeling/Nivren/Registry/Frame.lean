import Nivren.Registry.Commands

/-! What the commands leave alone.

Reading commands leave the tree as it is. An install writes below the store and at the files of the
project it names; every other place is as before, whether the install succeeds or not.
-/

namespace Nivren

open FileTree Program List
open Disk (leaves_inspect moves_orFail leaves_rename leaves_seen seen temporary tree)

variable {α : Type} {processId : ℕ} {crypto : Trust.Crypto} {q store : Path}

namespace Package

variable {files : List (String × Codec.Bytes)}

theorem leaves_extractFiles {base : Path} (hq : Unrelated base q)
    (hn : ∀ file ∈ files, Normal file.1) : Leaves (seen q) (extractFiles base files) := by
  induction files with
  | nil => exact .pure ()
  | cons file rest ih =>
    have hp := (hn file (by simp)).resolve base
    have hoff : Unrelated (base ++ segments file.1) q := hq.append _
    have hd : ¬ q <+: (base ++ segments file.1).dropLast :=
      fun h => hoff.2 (h.trans (List.dropLast_prefix _))
    have hne : q ≠ base ++ segments file.1 := fun heq => hoff.2 (heq ▸ prefix_rfl)
    refine .bind ?_ fun _ => ih fun other hot => hn other (by simp [hot])
    rw [extractFile, hp]
    exact .bind (moves_orFail (Disk.leaves_createDirAll hd) _) fun _ =>
      moves_orFail (Disk.leaves_write hne) _

variable {package : Package} {name digest : String} {archive : Codec.Bytes}

theorem leaves_extract (hq : Unrelated store q)
    (hn : ∀ file ∈ package.files.toList, Normal file.1) :
    Leaves (seen q) (package.extract processId (store ++ [name])) := by
  have hna := hq.append [name]
  have hsa : Unrelated (package.sandbox processId store) q := hq.append _
  rw [extract, dropLast_concat]
  refine .bind (leaves_seen leaves_inspect q) fun _ => .guarded ?_
  refine .bind (moves_orFail (Disk.leaves_createDirAll hq.2) _) fun _ => ?_
  refine .bind (leaves_seen leaves_inspect q) fun _ => .guarded ?_
  have hne : q ≠ package.sandbox processId store := fun heq => hsa.2 (heq ▸ prefix_rfl)
  refine .bind (moves_orFail (Disk.leaves_createDir hne) _) fun _ => .tryCatch ?_ fun _ => ?_
  · exact .bind (leaves_extractFiles hsa hn) fun _ =>
      moves_orFail (leaves_rename hsa.1 hna.1) _
  · exact .bind (Disk.leaves_removeDirAll hsa.1) fun _ => .throw _

theorem leaves_stage (hq : Unrelated store q) (hn : ∀ file ∈ package.files.toList, Normal file.1) :
    Leaves (seen q) (package.stage processId (store ++ [name]) digest archive) := by
  have hr : ∀ record, q ≠ store ++ [name] ++ [record] := by
    intro record heq
    exact ((hq.append [name]).append [record]).2 (heq ▸ prefix_rfl)
  refine .bind (leaves_seen leaves_inspect q) fun _ => .guarded ?_
  refine .bind (leaves_extract hq hn) fun _ => ?_
  exact .bind (moves_orFail (Disk.leaves_write (hr _)) _) fun _ =>
    moves_orFail (Disk.leaves_write (hr _)) _

variable {destination : Path}

theorem leaves_replace {staging backup : Path} (hst : Unrelated staging q)
    (hb : Unrelated backup q) (hd : Unrelated destination q) :
    Leaves (seen q) (replace staging backup destination) := by
  refine .bind (moves_orFail (leaves_rename hd.1 hb.1) _) fun _ => ?_
  refine .bind (leaves_rename hst.1 hd.1) fun r => ?_
  cases r with
  | error fault =>
    exact .bind (leaves_rename hb.1 hd.1) fun _ =>
      .bind (Disk.leaves_removeDirAll hst.1) fun _ => .throw _
  | ok _ => exact moves_orFail (Disk.leaves_removeDirAll hb.1) _

theorem leaves_filesMatch : Leaves tree (filesMatch destination files) := by
  induction files with
  | nil => exact .pure true
  | cons file rest ih =>
    refine .bind leaves_inspect fun r => ?_
    cases r with
    | error fault => exact .pure false
    | ok actual => exact .ite (.pure false) ih

theorem leaves_installedPackageMatches :
    Leaves tree (package.installedPackageMatches crypto destination digest) :=
  .bind leaves_inspect fun _ => .ite (.pure false) <|
    .bind leaves_inspect fun _ => .ite (.pure false) leaves_filesMatch

theorem leaves_installPackage (hq : Unrelated store q)
    (hno : ∀ file ∈ package.files.toList, Normal file.1) :
    Leaves (seen q) (package.installPackage processId crypto (store ++ [name]) digest archive) := by
  have hn := hq.append [name]
  refine .bind (leaves_seen Disk.leaves_rejectSymlinkIfPresent q) fun _ => ?_
  refine .bind (leaves_seen ?_ q) fun same => .ite (.pure ()) ?_
  · exact .bind leaves_inspect fun there =>
      .ite leaves_installedPackageMatches (.pure false)
  · rw [dropLast_concat]
    refine .guarded (.bind (leaves_stage hq hno) fun _ => ?_)
    refine .bind (leaves_seen leaves_inspect q) fun _ => .ite ?_ ?_
    · exact leaves_replace (hq.append _) (hq.append _) hn
    · exact moves_orFail (leaves_rename (hq.append _).1 hn.1) _

end Package

theorem Manifest.leaves_load {place : Path} : Leaves tree (Manifest.load place) := by
  refine .bind (.bind leaves_inspect fun _ => .ite (.pure _) (.pure _)) fun place => ?_
  refine .bind leaves_inspect fun there => ?_
  cases there
  on_goal 1 => refine .bind leaves_inspect fun _ => .bind (.throw _) fun _ => ?_
  all_goals
    refine .bind (moves_orFail leaves_inspect _) fun bytes => ?_
    cases Codec.ofUtf8 bytes with
    | none => exact .throw _
    | some source => exact .lift _

variable {name : String} {formats : Formats} {registry version : String}

theorem Store.leaves_fetch {cwd : Path} :
    Leaves tree (Store.fetch cwd crypto formats name version registry) := by
  refine .bind (.lift _) fun _ => .bind ?_ fun metadata => .bind (.lift _) fun expected => ?_
  · exact .bind (moves_orFail leaves_inspect _) fun _ => .lift _
  · exact .bind (moves_orFail leaves_inspect _) fun _ => .lift _

variable {digest : String}

theorem LockFile.leaves_checkLockedDigest {root : Path} :
    Leaves tree (LockFile.checkLockedDigest root name version digest) := by
  refine .bind (.bind leaves_inspect fun text => ?_) fun digests => ?_
  · cases text with
    | none => exact .pure _
    | some text => exact .pure _
  · cases digests[(⟨name, version⟩ : PackageId)]? with
    | none => exact .pure ()
    | some expected => exact .ite (.throw _) (.pure ())

theorem leaves_onDisk {γ : Type} {f : Disk → γ} {m : OnDisk α} (h : Leaves f m) :
    Leaves (fun s => f s.disk) (onDisk m) :=
  .zoom h fun _ _ hsa => hsa

theorem ensures_onDisk {m : OnDisk α} {s : Online} {Q : α → Online → Prop}
    {R : Failure → Online → Prop} :
    Ensures (onDisk m) s Q R ↔
      Ensures m s.disk (fun a disk => Q a { s with disk }) fun e disk => R (.error e) { s with disk } :=
  ensures_zoom

namespace Commands

variable {root : Path} {manifest : Manifest} {fuel : ℕ} {id : PackageId}

theorem leaves_visitInstalled : Leaves tree (visitInstalled crypto root id) := by
  refine .bind Disk.leaves_rejectSymlinkIfPresent fun _ => .bind ?_ fun archived => ?_
  · refine .bind (moves_orFail leaves_inspect _) fun archive => ?_
    refine .bind leaves_inspect fun recorded => ?_
    cases recorded with
    | none => exact .throw _
    | some recorded => exact .guarded (.pure _)
  · refine .bind (.lift _) fun package => .guarded ?_
    refine .bind Package.leaves_installedPackageMatches fun same => .guarded ?_
    exact .bind Manifest.leaves_load fun _ => .pure _

theorem leaves_installedLockfile : Leaves tree (installedLockfile crypto root manifest fuel) :=
  .bind (Traversal.leaves_drain (fun _ => leaves_visitInstalled) _ _ _) fun _ => .pure _

theorem leaves_installedAuthorityLockfile :
    Leaves tree (installedAuthorityLockfile crypto root manifest fuel) := by
  refine .bind leaves_installedLockfile fun lockfile => ?_
  cases lockfile with
  | none => exact .pure none
  | some _ =>
    exact .bind (Traversal.leaves_drain (fun _ => .bind Manifest.leaves_load fun _ => .guarded (.pure _)) _ _ _) fun _ => .pure _

/-- A source gives packages with their archives and digests, and does not change the disk. -/
structure Supplies (crypto : Trust.Crypto) (source : Source) : Prop where
  leaves : ∀ id, Leaves (fun s => s.disk.tree) (source id)
  decoded : ∀ id s, Ensures (source id) s
    (fun r _ => Package.decode r.2.2 = .ok r.1 ∧ r.2.1 = crypto.sha256 r.2.2) fun _ _ => True

theorem supplies_directorySource {cwd : Path} :
    Supplies crypto (directorySource crypto cwd formats root registry) where
  leaves id := by
    refine leaves_onDisk (f := tree) (.bind Store.leaves_fetch fun _ => ?_)
    exact .bind LockFile.leaves_checkLockedDigest fun _ => .bind (.lift _) fun _ => .pure _
  decoded id s := by
    rw [directorySource]
    -- whatever is fetched is decoded
    generalize Store.fetch cwd crypto formats id.name id.version registry = fetched
    refine ensures_onDisk.mpr (Returns.skip fun bytes d => Returns.skip fun _ d' => ?_)
    rw [Returns, ensures_bind, ensures_lift]
    exact ⟨fun package hp => ⟨hp, rfl⟩, fun _ _ => trivial⟩

variable {remote : Remote}

theorem leaves_request {path : String} {maximum : ℕ} :
    Leaves (fun s => s.disk.tree) (request remote path maximum) :=
  .bind .read fun _ => .bind (.write fun _ => rfl) fun _ => leaves_onDisk (f := tree) (.lift _)

theorem leaves_remoteJson {reader : Codec.Bytes → Except String α} {path : String} :
    Leaves (fun s => s.disk.tree) (remoteJson remote reader path) := by
  refine .bind leaves_request fun bytes => ?_
  cases reader bytes with
  | ok document => exact .pure document
  | error reason => exact .throw _

variable {trusted : Trusted} {session : Session}

theorem leaves_fetchRelease : Leaves (fun s => s.disk.tree) (fetchRelease trusted session id) :=
  .bind leaves_request fun _ => .bind leaves_remoteJson fun _ => .guarded <|
    .bind leaves_remoteJson fun _ => .pure _

theorem ensures_fetchRelease (s : Online) : Returns (fetchRelease trusted session id) s
      fun r _ => r.status = session.status ∧ r.rootPublicKey = trusted.rootPublicKey ∧
        r.minimumStatusGeneration = session.minimum := by
  refine .skip fun bytes s => .skip fun provenance s => ?_
  split
  · trivial
  · exact .skip fun _ _ => ⟨rfl, rfl, rfl⟩

theorem ensures_releaseSource (s : Online) :
    Returns (releaseSource crypto root trusted session id) s
      fun r _ => (Package.decode r.2.2 = .ok r.1 ∧ r.2.1 = crypto.sha256 r.2.2) ∧
        Trust.Signed crypto trusted.rootPublicKey (Trust.statusBytes session.status)
          session.status.signature ∧ session.minimum ≤ session.status.generation := by
  refine .bind (ensures_fetchRelease s) ?_
  rintro release s' ⟨hst, hr, hm⟩
  rw [Returns, ensures_bind, ensures_lift]
  refine ⟨fun package hp => ?_, fun _ _ => trivial⟩
  obtain ⟨ha, -, -, hg⟩ := (Trust.verifyRelease_eq_ok crypto).mp hp
  have hsi := ha.status_signed
  rw [hst, hr] at hsi
  rw [hst, hm] at hg
  split
  · trivial
  · exact Returns.skip fun _ _ => ⟨⟨ha.decoded, rfl⟩, hsi, hg⟩

theorem supplies_releaseSource : Supplies crypto (releaseSource crypto root trusted session) where
  leaves _ := .bind leaves_fetchRelease fun _ => .bind (.lift _) fun _ => .guarded <|
    .bind (leaves_onDisk (f := tree) LockFile.leaves_checkLockedDigest) fun _ => .pure _
  decoded _ s := (ensures_releaseSource s).mono (fun _ _ h => h.1) fun _ _ h => h

structure Prepared (crypto : Trust.Crypto) (root : Path) (id : PackageId) (entry : StagedPackage) :
    Prop where
  destination : entry.destination = storeOf root ++ [id.directory]
  decoded : Package.decode entry.bytes = .ok entry.package
  digest : entry.digest = crypto.sha256 entry.bytes
  manifest : ∃ text, entry.package.manifestText = some text ∧
    Manifest.parse text = .ok entry.manifest

theorem prepare_eq_ok {package : Package} {bytes : Codec.Bytes}
    {result : StagedPackage × List PackageId} (h : prepare root id package digest bytes = .ok result) :
    ∃ text manifest, package.manifestText = some text ∧ Manifest.parse text = .ok manifest ∧
      result = (⟨package, storeOf root ++ [id.directory], digest, bytes, manifest⟩,
        manifest.requirements) := by
  unfold prepare at h
  cases hte : package.manifestText with
  | none =>
    rw [hte] at h
    cases h
  | some text =>
    rw [hte] at h
    obtain ⟨manifest, hm, h⟩ := bind_eq_ok_iff.mp h
    cases h
    exact ⟨text, manifest, rfl, hm, rfl⟩

variable {source : Source}

theorem leaves_visitSource (hso : Supplies crypto source) :
    Leaves (fun s => s.disk.tree) (visitSource root source id) :=
  .bind (hso.leaves id) fun _ => leaves_onDisk (f := tree) (.lift _)

theorem ensures_visitSource (hso : Supplies crypto source) (s : Online) :
    Returns (visitSource root source id) s
      fun r _ => Prepared crypto root id r.1 ∧ r.2 = r.1.manifest.requirements := by
  refine .bind (hso.decoded id s) ?_
  rintro ⟨package, digest, bytes⟩ s' ⟨hd, hdi⟩
  rw [Returns, ensures_onDisk, ensures_lift]
  refine ⟨fun result hr => ?_, fun _ _ => trivial⟩
  obtain ⟨text, manifest, hte, hm, rfl⟩ := prepare_eq_ok hr
  exact ⟨⟨rfl, hd, hdi, text, hte, hm⟩, rfl⟩

theorem leaves_gather (hso : Supplies crypto source) :
    Leaves (fun s => s.disk.tree) (gather root manifest source fuel) :=
  Traversal.leaves_drain (fun _ => leaves_visitSource hso) _ _ _

theorem ensures_gather (hso : Supplies crypto source) (s : Online) :
    Ensures (gather root manifest source fuel) s
      (fun r s' => s'.disk.tree = s.disk.tree ∧ ∀ staged, r = some staged →
        ∀ (id : PackageId) (entry : StagedPackage), staged[id]? = some entry →
          Prepared crypto root id entry)
      fun _ s' => s'.disk.tree = s.disk.tree := by
  have hv : ∀ id s', s'.disk.tree = s.disk.tree → Ensures (visitSource root source id) s'
      (fun r s'' => s''.disk.tree = s.disk.tree ∧ Prepared crypto root id r.1)
      fun _ s'' => s''.disk.tree = s.disk.tree := by
    intro id s' hs'
    refine ((leaves_visitSource hso).ensures (ensures_visitSource hso s')).mono ?_ ?_
    · rintro r s'' ⟨⟨hp, -⟩, hsa⟩
      exact ⟨hsa.trans hs', hp⟩
    · exact fun _ s'' h => h.2.trans hs'
  refine (Traversal.ensures_drain hv rfl (by simp)).mono ?_ fun _ _ h => h
  exact fun r s' h => ⟨h.1, fun staged hr => (h.2 staged hr).1⟩

theorem unrelated_storeOf (h : name ≠ ".niv") (rest : Path) :
    Unrelated (storeOf root) (root ++ name :: rest) := by
  have hst : storeOf root = root ++ ".niv" :: ["deps"] := rfl
  rw [hst]
  constructor
  · rw [prefix_append_right_inj, cons_prefix_cons]
    exact fun hp => h hp.1.symm
  · rw [prefix_append_right_inj, cons_prefix_cons]
    exact fun hp => h hp.1

theorem unrelated_authorityPlace : Unrelated (storeOf root) (authorityPlace root) :=
  unrelated_storeOf (by decide) []

theorem unrelated_beside (h : name ≠ "deps") :
    Unrelated (storeOf root) (stateOf root ++ [name]) := by
  have hst : storeOf root = stateOf root ++ ["deps"] := by simp [storeOf, stateOf]
  rw [hst]
  constructor
  · simpa using h.symm
  · simpa using h

theorem unrelated_generationPlace : Unrelated (storeOf root) (generationPlace root) :=
  unrelated_beside (by decide)

theorem temporary_eq (place : Path) (name : String) :
    temporary processId (place ++ [name]) = place ++ [String.ofList
      (stem name.toList ++ '.' :: ("tmp-" ++ toString processId).toList)] := by
  simp [temporary]

theorem temporary_ne {place : Path} {other : String} (n : ℕ)
    (hn : n ≤ (stem name.toList ++ ['.', 't', 'm', 'p', '-']).length)
    (h : (stem name.toList ++ ['.', 't', 'm', 'p', '-']).take n ≠ other.toList.take n) :
    ¬ temporary processId (place ++ [name]) <+: place ++ [other] := by
  rw [temporary_eq]
  simp only [prefix_append_right_inj, cons_prefix_cons, nil_prefix, and_true]
  intro heq
  have hta := congrArg (fun s : String => s.toList.take n) heq
  have hsp : stem name.toList ++ '.' :: ("tmp-" ++ toString processId).toList =
      stem name.toList ++ ['.', 't', 'm', 'p', '-'] ++ (toString processId).toList := by
    rw [String.toList_append, append_assoc]
    rfl
  simp only [String.toList_ofList, hsp] at hta
  rw [take_append_of_le_length hn] at hta
  exact h hta

variable {contents : Codec.Bytes}

theorem leaves_projectFile (hn : name ≠ ".niv")
    (hte : ¬ temporary processId (root ++ [name]) <+: root ++ [".niv"]) (q : Path) :
    Leaves (seen (stateOf root ++ q)) (Disk.writeAtomic processId (root ++ [name]) contents) := by
  have hoff : ∀ {other : String}, other ≠ ".niv" → ¬ root ++ [other] <+: stateOf root ++ q := by
    intro other hot h
    rw [stateOf, append_assoc, prefix_append_right_inj, singleton_append, cons_prefix_cons] at h
    exact hot h.1
  refine Disk.leaves_writeAtomic (hoff hn) ?_
  rw [temporary_eq] at hte ⊢
  exact hoff (by simpa using hte)

theorem leaves_writeLockfile (q : Path) : Leaves (seen (stateOf root ++ q))
      (Disk.writeAtomic processId (root ++ [lockfileName]) contents) :=
  leaves_projectFile (by decide) (temporary_ne 2 (by decide) (by decide)) q

theorem leaves_writeAuthority (q : Path) : Leaves (seen (stateOf root ++ q))
      (Disk.writeAtomic processId (authorityPlace root) contents) :=
  leaves_projectFile (by decide) (temporary_ne 2 (by decide) (by decide)) q

theorem leaves_openStore (hq : ¬ q <+: storeOf root) : Leaves (seen q) (openStore root) :=
  .bind (leaves_seen Disk.leaves_rejectSymlinkIfPresent q) fun _ =>
    .bind (leaves_seen Disk.leaves_rejectSymlinkIfPresent q) fun _ =>
      moves_orFail (Disk.leaves_createDirAll hq) _

theorem leaves_online {m : Fetching α} (h : Leaves (fun s => s.disk.tree) m) :
    Leaves (fun s => s.disk.seen q) m :=
  h.mono (g := fun tree => tree.look q)

theorem leaves_checkRoot : Leaves (fun s => s.disk.tree) (checkRoot trusted) := by
  refine .bind leaves_request fun bytes => leaves_onDisk (f := tree) ?_
  cases Codec.ofUtf8 bytes with
  | none => exact .throw _
  | some text => exact .bind (.lift _) fun _ => .ite (.throw _) (.pure _)

theorem leaves_openSession (hq : ¬ q <+: storeOf root) :
    Leaves (fun s => s.disk.seen q) (openSession root trusted) := by
  refine .bind (leaves_online leaves_checkRoot) fun _ => ?_
  refine .bind (leaves_online leaves_remoteJson) fun status => ?_
  refine .bind (leaves_online leaves_remoteJson) fun advisories => ?_
  refine .bind (leaves_onDisk (f := seen q) (leaves_openStore hq)) fun _ => ?_
  refine .bind (leaves_online (leaves_onDisk (f := tree) leaves_inspect)) fun text => ?_
  cases trusted.now with
  | none => exact .throw _
  | some now => exact .guarded (.pure _)

theorem leaves_guardProspectiveAuthority {expected : String} :
    Leaves tree (guardProspectiveAuthority root expected) := by
  refine .bind leaves_inspect fun actual => ?_
  cases actual with
  | none => exact .pure ()
  | some actual => exact .ite (.throw _) (.pure ())

theorem leaves_installStaged (hq : Unrelated (storeOf root) q)
    {entries : List (PackageId × StagedPackage)}
    (hen : ∀ entry ∈ entries, Prepared crypto root entry.1 entry.2) :
    Leaves (seen q) (installStaged processId crypto entries) := by
  induction entries with
  | nil => exact .pure ()
  | cons entry rest ih =>
    have het := hen entry (by simp)
    refine .bind ?_ fun _ => ih fun other hot => hen other (by simp [hot])
    rw [het.destination]
    exact Package.leaves_installPackage hq (Package.decode_decoded het.decoded).normal

end Commands

end Nivren
