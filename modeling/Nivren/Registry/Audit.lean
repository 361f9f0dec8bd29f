import Nivren.Registry.Gate
import Nivren.Registry.Staged

/-! The audit of an installed graph.

`installed_authority_lockfile` walks over the installed packages as an install walks over the fetched
ones. The two walks go in step as long as every package on the disk is what its archive says. They give
one lock unless the project itself is among its dependencies.
-/

namespace Nivren.Commands

open Codec FileTree Program

variable {crypto : Trust.Crypto} {root : Path} {manifest : Manifest} {id : PackageId}
  {entry : StagedPackage} {staged : PackageMap StagedPackage} {d : Disk} {fuel : ℕ}

theorem ensures_load {place : Path} {bytes : Bytes} {text : String} {m : Manifest}
    (hf : d.tree.look (place ++ [manifestName]) = some (.file ⟨bytes, true⟩))
    (hte : ofUtf8 bytes = some text) (hp : Manifest.parse text = .ok m) :
    Ensures (Manifest.load place) d (fun r d' => r = m ∧ d'.tree = d.tree) fun _ _ => False := by
  have hdir : d.tree.look place = some .dir := look_eq_dir_of_append (by rw [hf]; simp) (by simp)
  have hl : Ensures (Manifest.locate place) d
      (fun r d' => r = place ++ [manifestName] ∧ d'.tree = d.tree) fun _ _ => False := by
    rw [Manifest.locate, ensures_bind, Disk.isDir, Disk.ensures_inspect, hdir]
    exact ⟨rfl, rfl⟩
  have hth : FileTree.exists place d.tree = true := by rw [FileTree.exists, hdir]; rfl
  refine hl.bind ?_
  rintro _ d₁ ⟨rfl, h₁⟩
  rw [List.dropLast_concat, ensures_bind, Disk.exists, Disk.ensures_inspect, h₁, hth,
    if_neg (by simp), ensures_bind]
  refine Disk.ensures_orFail ?_
  rw [Disk.read, Disk.ensures_inspect, Disk.tree_touch, h₁, Disk.bytesAt_eq_ok.mpr hf]
  refine ⟨?_, fun _ h => by cases h⟩
  rintro _ ⟨⟩
  rw [hte]
  dsimp only
  rw [hp]
  exact ⟨rfl, h₁⟩

/-- An installed package with a valid archive of its name, whose files are there. -/
def Kept (crypto : Trust.Crypto) (root : Path) (id : PackageId) (t : Node File) : Prop :=
  ∃ archive package, Disk.bytesAt (storeOf root ++ [id.directory] ++ [Package.archiveName]) t = .ok archive ∧
    Package.decode archive = .ok package ∧ package.name = id.name ∧ package.version = id.version ∧
      Package.Matches crypto package (storeOf root ++ [id.directory]) (crypto.sha256 archive) t

theorem ensures_readArchive {destination : Path} : Ensures (readArchive crypto destination id) d
      (fun r d' => d'.tree = d.tree ∧
        Disk.bytesAt (destination ++ [Package.archiveName]) d.tree = .ok r.1 ∧ r.2 = crypto.sha256 r.1)
      fun _ _ => ∀ archive, Disk.bytesAt (destination ++ [Package.archiveName]) d.tree = .ok archive →
        ¬ ∃ text, Disk.textAt (destination ++ [Package.checksumName]) d.tree = some text ∧
          Text.trim text.toList = (crypto.sha256 archive).toList := by
  rw [readArchive, ensures_bind]
  refine Disk.ensures_orFail ?_
  rw [Disk.read, Disk.ensures_inspect]
  refine ⟨fun archive ha => ?_, fun fault hf archive ha => ?_⟩
  · rw [ensures_bind, Disk.readToString, Disk.ensures_inspect, Disk.tree_touch]
    cases hte : Disk.textAt (destination ++ [Package.checksumName]) d.tree with
    | none =>
      rintro other - ⟨text, hn, -⟩
      cases hn
    | some recorded =>
      dsimp only
      split
      next hd =>
        rw [ensures_bind]
        rintro other hot ⟨text, hso, htr⟩
        rw [ha] at hot
        cases hot
        cases hso
        exact hd htr
      · exact ⟨rfl, ha, rfl⟩
  · rw [ha] at hf
    cases hf

/-- An installed package is found in order exactly when it is what its archive says; what is found is
given by the package that was written. -/
theorem ensures_visitInstalled (hst : d.tree.look (storeOf root) = some .dir)
    (hdg : ∀ archive, Disk.bytesAt (storeOf root ++ [id.directory] ++ [Package.archiveName]) d.tree =
      .ok archive → crypto.sha256 archive = entry.digest)
    (hma : Kept crypto root id d.tree → ∃ bytes text,
      d.tree.look (storeOf root ++ [id.directory] ++ [manifestName]) = some (.file ⟨bytes, true⟩) ∧
        ofUtf8 bytes = some text ∧ Manifest.parse text = .ok entry.manifest) :
    Ensures (visitInstalled crypto root id) d
      (fun r d' => d'.tree = d.tree ∧ Kept crypto root id d.tree ∧
        r = (entry.digest, entry.manifest.requirements))
      fun _ _ => ¬ Kept crypto root id d.tree := by
  refine (Package.ensures_rejectSymlink hst).total fun _ d₁ h₁ => ?_
  rw [ensures_bind]
  refine ensures_readArchive.mono ?_ ?_
  · rintro ⟨archive, digest⟩ d₂ ⟨h₂, ha, hsum⟩
    rw [h₁] at h₂ ha
    change digest = crypto.sha256 archive at hsum
    subst hsum
    -- every other archive is this one
    have hon : ∀ {other package}, Disk.bytesAt
        (storeOf root ++ [id.directory] ++ [Package.archiveName]) d.tree = .ok other →
        Package.decode other = .ok package → Package.decode archive = .ok package ∧ other = archive := by
      intro other package hot hd
      rw [ha] at hot
      cases hot
      exact ⟨hd, rfl⟩
    rw [ensures_bind, ensures_lift]
    refine ⟨fun package hp => ?_, fun e her => ?_⟩
    · split
      next hdi =>
        rintro ⟨other, found, hot, hd, hn, hv, -⟩
        rw [(hon hot hd).1] at hp
        cases hp
        exact hdi.elim (· hn) (· hv)
      next hna =>
        rw [not_or, not_not, not_not] at hna
        refine Package.ensures_installedPackageMatches.total ?_
        rintro same d₃ ⟨h₃, hsa⟩
        rw [h₂] at h₃ hsa
        cases same with
        | false =>
          rintro ⟨other, found, hot, hd, -, -, hm⟩
          obtain ⟨hd, rfl⟩ := hon hot hd
          rw [hd] at hp
          cases hp
          simpa using hsa.mpr hm
        | true =>
          have hke : Kept crypto root id d.tree :=
            ⟨archive, package, ha, hp, hna.1, hna.2, hsa.mp rfl⟩
          obtain ⟨bytes, text, hb, hte, hpa⟩ := hma hke
          dsimp only
          rw [if_neg (by simp)]
          refine (ensures_load (by rwa [h₃]) hte hpa).total ?_
          rintro _ d₄ ⟨rfl, h₄⟩
          rw [ensures_pure, hdg archive ha]
          exact ⟨h₄.trans h₃, hke, rfl⟩
    · rintro ⟨other, package, hot, hd, -⟩
      rw [(hon hot hd).1] at her
      cases her
  · rintro _ _ hnot ⟨archive, package, ha, -, -, -, hm⟩
    rw [h₁] at hnot
    exact hnot archive ha hm.recorded

section Renewal

variable {t t' : Node File}

theorem kept_congr (hsa : ∀ q, t'.look (storeOf root ++ [id.directory] ++ q) =
    t.look (storeOf root ++ [id.directory] ++ q)) :
    Kept crypto root id t' ↔ Kept crypto root id t := by
  have hone : ∀ {t t' : Node File}, (∀ q, t'.look (storeOf root ++ [id.directory] ++ q) =
      t.look (storeOf root ++ [id.directory] ++ q)) → Kept crypto root id t → Kept crypto root id t' := by
    rintro t t' hsa ⟨archive, package, ha, hd, hn, hv, hm⟩
    refine ⟨archive, package, ?_, hd, hn, hv, ?_⟩
    · rw [Disk.bytesAt_eq_ok] at ha ⊢
      rw [hsa, ha]
    · exact (matches_congr (Package.decode_decoded hd).normal hsa).mpr hm
  exact ⟨hone fun q => (hsa q).symm, hone hsa⟩

theorem kept_of_recorded (hready : Ready crypto root id entry)
    (h : Package.Recorded (storeOf root ++ [id.directory]) entry.package entry.digest entry.bytes t) :
    Kept crypto root id t ↔
      Package.Matches crypto entry.package (storeOf root ++ [id.directory]) entry.digest t := by
  have ha := Disk.bytesAt_eq_ok.mpr h.archive
  obtain ⟨-, -, -, -, -, hn, hv⟩ := hready.manifest_bytes
  constructor
  · rintro ⟨archive, package, hot, hd, -, -, hm⟩
    rw [ha] at hot
    cases hot
    rw [hready.decoded] at hd
    cases hd
    rwa [hready.digest]
  · intro hm
    rw [hready.digest] at hm
    exact ⟨entry.bytes, entry.package, ha, hready.decoded, hn, hv, hm⟩

/-- Among the files of a package and its records those at one place are the same. -/
def Coherent (entry : StagedPackage) : Prop :=
  ∀ a ∈ entry.package.installedFiles entry.digest entry.bytes,
    ∀ b ∈ entry.package.installedFiles entry.digest entry.bytes,
      segments a.1 = segments b.1 → a.2 = b.2

theorem Coherent.consistent (h : Coherent entry) :
    Consistent (Package.placed (entry.package.installedFiles entry.digest entry.bytes)) := by
  intro a ha b hb hsa
  obtain ⟨x, hx, rfl⟩ := List.mem_map.mp ha
  obtain ⟨y, hy, rfl⟩ := List.mem_map.mp hb
  simp only [h x hx y hy hsa]

theorem matches_iff_coherent (hready : Ready crypto root id entry)
    (h : Package.Recorded (storeOf root ++ [id.directory]) entry.package entry.digest entry.bytes t) :
    Package.Matches crypto entry.package (storeOf root ++ [id.directory]) entry.digest t ↔
      Coherent entry := by
  constructor
  · intro hm
    have hlo : ∀ file ∈ entry.package.installedFiles entry.digest entry.bytes,
        t.look (storeOf root ++ [id.directory] ++ segments file.1) = some (.file ⟨file.2, true⟩) := by
      intro file hf
      rw [Package.installedFiles, List.mem_append, List.mem_cons, List.mem_singleton] at hf
      rcases hf with hf | rfl | rfl
      · rw [← (hready.normal file hf).resolve]
        exact Disk.bytesAt_eq_ok.mp (hm.files file hf)
      · rw [Package.segments_checksumName]
        exact h.checksum
      · rw [Package.segments_archiveName]
        exact h.archive
    intro a ha b hb hsa
    have hbo := hlo a ha
    rw [hsa, hlo b hb] at hbo
    simpa using hbo.symm
  · intro hc
    have hl := h.laid
    have hp := hc.consistent
    rw [hready.digest] at hl hp ⊢
    exact Package.matches_of_laid hready.normal hl hp

/-- A package of a graph that the audit will find in order: one that is recognised stays as it is, any
other is written. -/
def Auditable (crypto : Trust.Crypto) (root : Path) (id : PackageId) (entry : StagedPackage)
    (t : Node File) : Prop :=
  (Package.Matches crypto entry.package (storeOf root ++ [id.directory]) entry.digest t ∧
    Kept crypto root id t) ∨
  (¬ Package.Matches crypto entry.package (storeOf root ++ [id.directory]) entry.digest t ∧
    Coherent entry)

namespace Renewed

variable (hready : Ready crypto root id entry) (h : Renewed crypto root id entry t t')

include hready h

theorem kept_iff : Kept crypto root id t' ↔ Auditable crypto root id entry t := by
  rcases h with ⟨hm, hsa⟩ | ⟨hd, hr⟩
  · rw [kept_congr hsa, Auditable]
    simp [hm]
  · rw [kept_of_recorded hready hr, matches_iff_coherent hready hr, Auditable]
    simp [hd]

theorem digest {archive : Bytes}
    (ha : Disk.bytesAt (storeOf root ++ [id.directory] ++ [Package.archiveName]) t' = .ok archive) :
    crypto.sha256 archive = entry.digest := by
  rw [Disk.bytesAt_eq_ok] at ha
  rcases h with ⟨⟨-, ⟨bytes, hb, hd⟩, -⟩, hsa⟩ | ⟨-, hr⟩
  · rw [Disk.bytesAt_eq_ok] at hb
    rw [hsa, hb] at ha
    cases ha
    exact hd
  · rw [hr.archive] at ha
    cases ha
    exact hready.digest.symm

theorem manifest_read (hke : Kept crypto root id t') : ∃ bytes text,
    t'.look (storeOf root ++ [id.directory] ++ [manifestName]) = some (.file ⟨bytes, true⟩) ∧
      ofUtf8 bytes = some text ∧ Manifest.parse text = .ok entry.manifest := by
  have hm : Package.Matches crypto entry.package (storeOf root ++ [id.directory]) entry.digest t' := by
    rcases h with ⟨hm, hsa⟩ | ⟨-, hr⟩
    · exact (matches_congr hready.normal hsa).mpr hm
    · exact (kept_of_recorded hready hr).mp hke
  obtain ⟨bytes, text, hb, hte, hp, -, -⟩ := hready.manifest_bytes
  have hmem : (manifestName, bytes) ∈ entry.package.files.toList :=
    Std.ExtTreeMap.mem_toList_iff_getElem?_eq_some.mpr hb
  have hf := hm.files _ hmem
  have hse : segments manifestName = [manifestName] := by decide
  rw [Disk.bytesAt_eq_ok, (hready.normal _ hmem).resolve, hse] at hf
  exact ⟨bytes, text, hf, hte, hp⟩

end Renewed

end Renewal

def Gathered (crypto : Trust.Crypto) (root : Path) (manifest : Manifest) (fuel : ℕ)
    (staged : PackageMap StagedPackage) : Prop :=
  ∃ source s s', Supplies crypto source ∧
    exec (gather root manifest source fuel) s = (.ok (some staged), s')

theorem Gathered.add (h : Gathered crypto root manifest fuel staged) (more : ℕ) :
    Gathered crypto root manifest (fuel + more) staged := by
  obtain ⟨source, s, s', hso, hrun⟩ := h
  exact ⟨source, s, s', hso, Traversal.exec_drain_add more hrun⟩

theorem visitSource_children {source : Source} (hso : Supplies crypto source) (key : PackageId)
    (s : Online) (value : StagedPackage) (more : List PackageId) (s' : Online)
    (h : exec (visitSource root source key) s = (.ok (value, more), s')) :
    more = value.manifest.requirements :=
  ((ensures_visitSource hso s).of_ok h).2

variable {d' : Disk}

section Walks

variable {packages : Packages} {t : Node File} (hgathered : Gathered crypto root manifest fuel staged)
  (hwritten : Written crypto root manifest staged packages t d)

include hgathered hwritten

theorem ensures_installedLockfile : Ensures (installedLockfile crypto root manifest fuel) d
      (fun r d' => d'.tree = d.tree ∧ r.isSome = true ∧
        ∀ id : PackageId, id ∈ staged → Kept crypto root id d.tree)
      fun _ _ => ∃ id : PackageId, id ∈ staged ∧ ¬ Kept crypto root id d.tree := by
  obtain ⟨source, s, s', hso, hrun⟩ := hgathered
  have hv : ∀ (id : PackageId) (entry : StagedPackage), staged[id]? = some entry →
      ∀ d' : Disk, d'.tree = d.tree → Ensures (visitInstalled crypto root id) d'
        (fun r d'' => d''.tree = d.tree ∧ Kept crypto root id d.tree ∧
          r = (entry.digest, entry.manifest.requirements)) fun _ _ => ¬ Kept crypto root id d.tree := by
    intro id entry hen d' hd'
    have hready := hwritten.ready id entry hen
    have hr := hwritten.renewed id entry hen
    rw [← hd'] at hr ⊢
    refine ensures_visitInstalled ?_ (fun archive ha => ?_) fun hke => ?_
    · rw [hd']
      exact hwritten.store
    · exact hr.digest hready ha
    · exact hr.manifest_read hready hke
  refine (Traversal.ensures_lockstep (visitSource_children hso) hv hrun (fun _ _ => by simp) rfl).bind
    ?_
  rintro _ d' ⟨hd', resolved, rfl, -, hke⟩
  exact ⟨hd', rfl, fun id hid => hke id hid (by simp)⟩

theorem ensures_authorityWalk (hr : manifest.id ∉ staged)
    (hke : ∀ id : PackageId, id ∈ staged → Kept crypto root id d.tree)
    (hd' : d'.tree = d.tree) :
    Ensures (Traversal.drain (visitAuthority root) fuel manifest.requirements.reverse
      ((∅ : Packages).insert manifest.id ("root", manifest))) d'
      (fun r _ => r = some packages) fun _ _ => False := by
  obtain ⟨source, s, s', hso, hrun⟩ := hgathered
  have hv : ∀ (id : PackageId) (entry : StagedPackage), staged[id]? = some entry →
      ∀ d' : Disk, d'.tree = d.tree → Ensures (visitAuthority root id) d'
        (fun r d'' => d''.tree = d.tree ∧ True ∧
          r = (("dependency", entry.manifest), entry.manifest.requirements)) fun _ _ => ¬ True := by
    intro id entry hen d' hd'
    have hready := hwritten.ready id entry hen
    have hmem : id ∈ staged := Std.ExtTreeMap.mem_iff_isSome_getElem?.mpr (by rw [hen]; rfl)
    obtain ⟨bytes, text, hfi, hte, hp⟩ :=
      (hwritten.renewed id entry hen).manifest_read hready (hke id hmem)
    have hid := hready.named
    rw [← hid] at hfi ⊢
    refine (ensures_load (by rwa [hd']) hte hp).total ?_
    rintro _ d'' ⟨rfl, hd''⟩
    rw [if_neg (by simp [Manifest.id])]
    exact ⟨hd''.trans hd', trivial, rfl⟩
  have hnew : ∀ id : PackageId, id ∈ staged →
      (id ∈ (∅ : Packages).insert manifest.id ("root", manifest) ↔
        id ∈ (∅ : PackageMap StagedPackage)) := by
    intro id hid
    have hne : ¬ compare manifest.id id = .eq := by
      intro heq
      rw [Std.LawfulEqCmp.eq_of_compare heq] at hr
      exact hr hid
    simp [hne]
  refine (Traversal.ensures_lockstep (visitSource_children hso) hv hrun hnew hd').mono ?_ ?_
  · rintro _ _ ⟨-, found, rfl, hf, -⟩
    congr 1
    refine Std.ExtTreeMap.ext_getElem? fun id => ?_
    rw [hf, (stagedPackages_eq_ok hwritten.accepted).1]
    cases hen : staged[id]? with
    | none => simp
    | some entry =>
      have hn : ((∅ : Packages).insert manifest.id ("root", manifest))[id]? = none := by
        have hmem : id ∈ staged := Std.ExtTreeMap.mem_iff_isSome_getElem?.mpr (by rw [hen]; rfl)
        simpa using (hnew id hmem).not.mpr (by simp)
      rw [hn]
      rfl
  · rintro _ _ ⟨id, -, hnot⟩
    exact hnot trivial

theorem kept_of_installedLockfile {rounds : ℕ} {lockfile : String}
    (h : exec (installedLockfile crypto root manifest rounds) d = (.ok (some lockfile), d'))
    {id : PackageId}
    (hid : id ∈ staged) : Kept crypto root id d.tree := by
  have hl : ∃ lockfile', exec (installedLockfile crypto root manifest (fuel + rounds)) d =
      (.ok (some lockfile'), d') := by
    obtain ⟨outcome, d₁, hd, h⟩ := exec_bind_eq_ok h
    cases outcome with
    | none => cases h
    | some resolved =>
      cases h
      have hm := Traversal.exec_drain_add fuel hd
      rw [installedLockfile, exec_bind, Nat.add_comm fuel, hm]
      exact ⟨_, rfl⟩
  obtain ⟨lockfile', hrun⟩ := hl
  exact ((ensures_installedLockfile (hgathered.add rounds) hwritten).of_ok hrun).2.2 id hid

end Walks

def Agrees (crypto : Trust.Crypto) (root : Path) (manifest : Manifest) (d : Disk) : Prop :=
  ∃ text readable fuel, d.tree.look (authorityPlace root) = some (.file ⟨utf8 text, readable⟩) ∧
    (exec (installedAuthorityLockfile crypto root manifest fuel) d).1 = .ok (some text)

theorem exists_root_of_audit {text : String}
    (h : exec (installedAuthorityLockfile crypto root manifest fuel) d = (.ok (some text), d')) :
    (∃ lockfile d₁, exec (installedLockfile crypto root manifest fuel) d = (.ok (some lockfile), d₁)) ∧
      ∃ packages : Packages, packages[manifest.id]? = some ("root", manifest) ∧
        text = Authority.renderAuthorityLock packages := by
  obtain ⟨outcome, d₁, hl, h⟩ := exec_bind_eq_ok h
  cases outcome with
  | none => cases h
  | some lockfile =>
    obtain ⟨found, d₂, hd, h⟩ := exec_bind_eq_ok h
    cases found with
    | none => cases h
    | some packages =>
      cases h
      exact ⟨⟨lockfile, d₁, hl⟩, packages, Traversal.drain_keeps hd (by simp), rfl⟩

variable {packages : Packages}

theorem no_root_of_mem (h : stagedPackages manifest staged = .ok packages)
    (hr : manifest.id ∈ staged) :
    ¬ ∃ (id : PackageId) (package : Manifest), packages[id]? = some ("root", package) := by
  rintro ⟨id, package, hf⟩
  rw [(stagedPackages_eq_ok h).1] at hf
  cases hen : staged[id]? with
  | some entry =>
    rw [hen] at hf
    simp at hf
  | none =>
    have hout : id ∉ staged := by simpa using hen
    have hne : ¬ compare manifest.id id = .eq := by
      intro heq
      rw [Std.LawfulEqCmp.eq_of_compare heq] at hr
      exact hout hr
    rw [hen, Std.ExtTreeMap.getElem?_insert, if_neg hne] at hf
    simp at hf

/-- After a graph has been written the audit gives its lock exactly when the project is not among its
own dependencies and the audit finds every package in order. -/
theorem agrees_of_written {t : Node File} (hgathered : Gathered crypto root manifest fuel staged)
    (hwritten : Written crypto root manifest staged packages t d) :
    Agrees crypto root manifest d ↔ manifest.id ∉ staged ∧
      ∀ (id : PackageId) (entry : StagedPackage), staged[id]? = some entry →
        Auditable crypto root id entry t := by
  have hkp : (∀ id : PackageId, id ∈ staged → Kept crypto root id d.tree) ↔
      ∀ (id : PackageId) (entry : StagedPackage), staged[id]? = some entry →
        Auditable crypto root id entry t := by
    constructor
    · intro hke id entry hen
      rw [← (hwritten.renewed id entry hen).kept_iff (hwritten.ready id entry hen)]
      exact hke id (Std.ExtTreeMap.mem_iff_isSome_getElem?.mpr (by rw [hen]; rfl))
    · intro hau id hid
      obtain ⟨entry, hen⟩ := Option.isSome_iff_exists.mp (Std.ExtTreeMap.mem_iff_isSome_getElem?.mp hid)
      rw [(hwritten.renewed id entry hen).kept_iff (hwritten.ready id entry hen)]
      exact hau id entry hen
  obtain ⟨readable, hlo⟩ := hwritten.lock
  rw [← hkp]
  constructor
  · rintro ⟨text, readable', rounds, hf, hrun⟩
    rw [hlo] at hf
    have hte : Authority.renderAuthorityLock packages = text := by
      simp only [Option.some.injEq, Entry.file.injEq, File.mk.injEq] at hf
      exact utf8_injective hf.1
    rcases ha : exec (installedAuthorityLockfile crypto root manifest rounds) d with ⟨outcome, d'⟩
    rw [ha] at hrun
    cases hrun
    obtain ⟨⟨lockfile, d₁, hl⟩, audited, had, hsa⟩ := exists_root_of_audit ha
    refine ⟨fun hr => ?_, fun id hid => kept_of_installedLockfile hgathered hwritten hl hid⟩
    have hli := Authority.sourceLine_mem.mpr ⟨manifest.id, manifest, had⟩
    rw [← Authority.lines_renderAuthorityLock, ← hsa, ← hte, Authority.lines_renderAuthorityLock,
      Authority.sourceLine_mem] at hli
    exact no_root_of_mem hwritten.accepted hr hli
  · rintro ⟨hr, hke⟩
    refine ⟨Authority.renderAuthorityLock packages, readable, fuel, hlo, ?_⟩
    have ha : Ensures (installedAuthorityLockfile crypto root manifest fuel) d
        (fun r _ => r = some (Authority.renderAuthorityLock packages)) fun _ _ => False := by
      rw [installedAuthorityLockfile, ensures_bind]
      refine (ensures_installedLockfile hgathered hwritten).mono ?_ ?_
      · rintro r d₁ ⟨hd₁, hso, -⟩
        obtain ⟨lockfile, rfl⟩ := Option.isSome_iff_exists.mp hso
        dsimp only
        refine (ensures_authorityWalk hgathered hwritten hr hke hd₁).bind ?_
        rintro _ _ rfl
        rfl
      · rintro _ _ ⟨id, hid, hnot⟩
        exact hnot (hke id hid)
    obtain ⟨r, d', hrun, rfl⟩ := ha.exists_ok
    rw [hrun]

end Nivren.Commands
