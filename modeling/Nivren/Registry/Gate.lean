import Nivren.Registry.Frame

/-! The authority gate.

Every install compares the authority its packages would have with the lock that was reviewed. A lock
that can be read stops an install whose authority differs, before anything is written over it. A lock
that cannot be read counts as none, and the install replaces it.
-/

namespace Nivren.Commands

open Codec FileTree Program

inductive Install
  | directory (cwd : Path) (formats : Formats) (registry : String)
  | network (trusted : Trusted)
  | offline

structure Setting where
  processId : ℕ
  crypto : Trust.Crypto
  root : Path
  manifest : Manifest
  fuel : ℕ

namespace Install

def program (c : Setting) : Install → Fetching (Option ℕ)
  | .directory cwd formats registry =>
    installDependencies c.processId c.crypto cwd formats c.root c.manifest registry c.fuel
  | .network trusted => installTrustedWith c.processId c.crypto c.root c.manifest trusted c.fuel
  | .offline => onDisk (installOfflineDependencies c.processId c.crypto c.root c.manifest c.fuel)

/-- The lock for a fetched graph. -/
def lockFor (manifest : Manifest) (gathered : Option (PackageMap StagedPackage)) :
    Fetching (Option String) :=
  match gathered with
  | none => return none
  | some staged => onDisk do
    return some (Authority.renderAuthorityLock (← stagedPackages manifest staged))

/-- The authority lock for the graph of an install, as it stands once the graph has been fetched. -/
def prospective (c : Setting) : Install → Fetching (Option String)
  | .directory cwd formats registry => do
    onDisk (openStore c.root)
    lockFor c.manifest (← gather c.root c.manifest
      (directorySource c.crypto cwd formats c.root registry) c.fuel)
  | .network trusted => do
    let session ← openSession c.root trusted
    lockFor c.manifest (← gather c.root c.manifest
      (releaseSource c.crypto c.root trusted session) c.fuel)
  | .offline => onDisk do
    match ← installedLockfile c.crypto c.root c.manifest c.fuel with
    | none => return none
    | some lockfile =>
      Disk.writeAtomic c.processId (c.root ++ [lockfileName]) (utf8 lockfile)
      installedAuthorityLockfile c.crypto c.root c.manifest c.fuel

end Install

/-- A lock that is not the one for the graph stops the install and stays as it is. -/
def Gated (c : Setting) (install : Install) (s : Online) (file : File) : Prop :=
  (¬ ∃ text, (exec (install.prospective c) s).1 = .ok (some text) ∧ file.bytes = utf8 text) →
    (∀ count, (exec (install.program c) s).1 ≠ .ok (some count)) ∧
      (exec (install.program c) s).2.disk.tree.look (authorityPlace c.root) = some (.file file)

variable {d : Disk}

section Refusal

variable {c : Setting} {actual : String}

def Stopped (c : Setting) (file : File) (program : Fetching (Option ℕ)) (s : Online) : Prop :=
  Ensures program s
    (fun r s' => r = none ∧ s'.disk.seen (authorityPlace c.root) = some (.file file))
    fun _ s' => s'.disk.seen (authorityPlace c.root) = some (.file file)

theorem ensures_guard_refused {expected : String}
    (hf : d.tree.look (authorityPlace c.root) = some (.file ⟨utf8 actual, true⟩))
    (hne : actual ≠ expected) :
    Ensures (guardProspectiveAuthority c.root expected) d (fun _ _ => False)
      fun _ d' => d'.tree = d.tree := by
  rw [guardProspectiveAuthority, ensures_bind, Disk.readToString, Disk.ensures_inspect,
    Disk.textAt_eq_some.mpr hf]
  simp only [ne_eq, hne, not_false_eq_true, if_true]
  rfl

theorem ensures_commit_refused {staged : PackageMap StagedPackage}
    (hf : d.tree.look (authorityPlace c.root) = some (.file ⟨utf8 actual, true⟩))
    (hne : ∀ packages, stagedPackages c.manifest staged = .ok packages →
      actual ≠ Authority.renderAuthorityLock packages) :
    Ensures (commitStagedInstall c.processId c.crypto c.root c.manifest staged) d (fun _ _ => False)
      fun _ d' => d'.tree = d.tree := by
  rw [commitStagedInstall, ensures_bind, ensures_lift]
  refine ⟨fun packages hp => ?_, fun _ _ => rfl⟩
  exact (ensures_guard_refused hf (hne packages hp)).bind fun _ _ h => h.elim

theorem stopped_of_fetched {β : Type} {opening : Fetching β} {source : β → Source}
    {closing : β → Option ℕ → Fetching (Option ℕ)} {s : Online}
    (hop : Leaves (fun s => s.disk.seen (authorityPlace c.root)) opening)
    (hso : ∀ b, Supplies c.crypto (source b)) (hc : ∀ b, closing b none = pure none)
    (hf : s.disk.seen (authorityPlace c.root) = some (.file ⟨utf8 actual, true⟩))
    (hne : Returns (do
      let b ← opening
      Install.lockFor c.manifest (← gather c.root c.manifest (source b) c.fuel)) s
        fun r _ => r ≠ some actual) :
    Stopped c ⟨utf8 actual, true⟩ (do
      let b ← opening
      let gathered ← gather c.root c.manifest (source b) c.fuel
      let installed ← commitGathered c.processId c.crypto c.root c.manifest gathered
      closing b installed) s := by
  rw [Stopped, ensures_bind]
  refine (hop.ensures (ensures_bind.mp hne)).mono ?_ fun _ _ h => h.2.trans hf
  rintro b s₁ ⟨hne₁, hsame₁⟩
  have hfile₁ := hsame₁.trans hf
  have hg : Leaves (fun s => s.disk.seen (authorityPlace c.root))
      (gather c.root c.manifest (source b) c.fuel) := leaves_online (leaves_gather (hso b))
  rw [ensures_bind]
  refine (hg.ensures (ensures_bind.mp hne₁)).mono ?_ fun _ _ h => h.2.trans hfile₁
  rintro gathered s₂ ⟨hne₂, hsame₂⟩
  have hfile₂ := hsame₂.trans hfile₁
  rw [ensures_bind]
  cases gathered with
  | none =>
    rw [commitGathered, ensures_pure, hc]
    exact ⟨rfl, hfile₂⟩
  | some staged =>
    rw [Install.lockFor, ensures_onDisk, ensures_bind, ensures_lift] at hne₂
    rw [commitGathered, ensures_map, ensures_onDisk]
    refine (ensures_commit_refused hfile₂ fun packages hp => ?_).mono (fun _ _ h => h.elim) ?_
    · intro heq
      exact hne₂.1 packages hp (congrArg some heq.symm)
    · exact fun _ d hd => (Disk.seen_congr hd).trans hfile₂

theorem ensures_guardAuthorityLock_refused
    (hf : d.seen (authorityPlace c.root) = some (.file ⟨utf8 actual, true⟩))
    (hne : Returns (installedAuthorityLockfile c.crypto c.root c.manifest c.fuel) d
      fun r _ => r ≠ some actual) :
    Ensures (guardAuthorityLock c.processId c.crypto c.root c.manifest c.fuel) d
      (fun r d' => r = none ∧ d'.tree = d.tree) fun _ d' => d'.tree = d.tree := by
  rw [guardAuthorityLock, ensures_bind]
  refine (leaves_installedAuthorityLockfile.ensures hne).mono ?_ fun _ _ h => h.2
  rintro expected d₁ ⟨hep, hsa⟩
  cases expected with
  | none => exact ⟨rfl, hsa⟩
  | some expected =>
    have hte : Disk.textAt (authorityPlace c.root) d₁.tree = some actual := by
      rw [Disk.textAt_eq_some, hsa]
      exact hf
    have hd : actual ≠ expected := fun heq => hep (congrArg some heq.symm)
    rw [ensures_bind, Disk.readToString, Disk.ensures_inspect, hte]
    simp only [ne_eq, hd, not_false_eq_true, if_true]
    exact hsa

theorem stopped_of_offline {s : Online}
    (hf : s.disk.seen (authorityPlace c.root) = some (.file ⟨utf8 actual, true⟩))
    (hne : Returns (Install.prospective c .offline) s fun r _ => r ≠ some actual) :
    Stopped c ⟨utf8 actual, true⟩ (Install.program c .offline) s := by
  have hr : Leaves (Disk.seen (authorityPlace c.root))
      (installedLockfile c.crypto c.root c.manifest c.fuel) :=
    Disk.leaves_seen leaves_installedLockfile _
  have hw : ∀ contents, Leaves (Disk.seen (authorityPlace c.root))
      (Disk.writeAtomic c.processId (c.root ++ [lockfileName]) contents) := by
    intro contents
    refine Disk.leaves_writeAtomic ?_ (temporary_ne 5 (by decide) (by decide))
    simp [authorityPlace, lockfileName, authorityLockfileName]
  rw [Returns, Install.prospective, ensures_onDisk, ensures_bind] at hne
  rw [Stopped, Install.program, ensures_onDisk, installOfflineDependencies, ensures_bind]
  refine (hr.ensures hne).mono ?_ fun _ _ h => h.2.trans hf
  rintro lockfile d₁ ⟨hne₁, hsame₁⟩
  have hfile₁ := hsame₁.trans hf
  cases lockfile with
  | none => exact ⟨rfl, hfile₁⟩
  | some lockfile =>
    rw [ensures_bind] at hne₁ ⊢
    refine ((hw _).ensures hne₁).mono ?_ fun _ _ h => h.2.trans hfile₁
    rintro _ d₂ ⟨hne₂, hsame₂⟩
    have hfile₂ := hsame₂.trans hfile₁
    rw [ensures_bind]
    refine (ensures_guardAuthorityLock_refused hfile₂ hne₂).mono ?_ ?_
    · rintro r d₃ ⟨rfl, hd₃⟩
      exact ⟨rfl, (Disk.seen_congr hd₃).trans hfile₂⟩
    · exact fun _ d₃ hd₃ => (Disk.seen_congr hd₃).trans hfile₂

theorem gated_of_text {install : Install} {s : Online}
    (hf : s.disk.tree.look (authorityPlace c.root) = some (.file ⟨utf8 actual, true⟩)) :
    Gated c install s ⟨utf8 actual, true⟩ := by
  intro hnot
  have hne : Returns (install.prospective c) s fun r _ => r ≠ some actual := by
    refine Ensures.of_exec (fun r s' hec heq => ?_) fun _ _ _ => trivial
    exact hnot ⟨actual, by rw [hec, heq], rfl⟩
  have hst : Stopped c ⟨utf8 actual, true⟩ (install.program c) s := by
    cases install with
    | directory cwd formats registry =>
      have hop : Leaves (fun s => s.disk.seen (authorityPlace c.root)) (onDisk (openStore c.root)) :=
        leaves_onDisk (f := Disk.seen _) (leaves_openStore unrelated_authorityPlace.2)
      have h := @stopped_of_fetched c actual Unit (onDisk (openStore c.root))
        (fun _ => directorySource c.crypto cwd formats c.root registry) (fun _ r => pure r) s hop
        (fun _ => supplies_directorySource) (fun _ => rfl) hf hne
      simp only [bind_pure] at h
      exact h
    | network trusted =>
      exact stopped_of_fetched (leaves_openSession unrelated_authorityPlace.2)
        (fun _ => supplies_releaseSource) (fun _ => rfl) hf hne
    | offline => exact stopped_of_offline hf hne
  unfold Stopped Ensures at hst
  rcases hec : exec (install.program c) s with ⟨outcome, s'⟩
  rw [hec] at hst
  cases outcome with
  | error e => exact ⟨nofun, hst⟩
  | ok r =>
    obtain ⟨rfl, hsa⟩ := hst
    exact ⟨nofun, hsa⟩

end Refusal

section Replacement

def lockedProject (file : File) : Disk := ⟨.dir [(authorityLockfileName, .file file)], []⟩

def plainManifest (name : String) : Manifest :=
  ⟨name, "1.0.0", "main.niv", ∅, ∅, ∅, ∅, none, none, none, 4⟩

def plainSetting (name : String) : Setting := ⟨1, Package.undigested, [], plainManifest name, 0⟩

def plainInstall : Install := .directory [] ⟨fun _ => .error "", fun _ => []⟩ ""

/-- Beside the lock and the state there is nothing in the project. -/
structure Bare (file : File) (d : Disk) : Prop where
  root : d.tree.look [] = some .dir
  lock : d.tree.look [authorityLockfileName] = some (.file file)
  other : ∀ name, name ≠ authorityLockfileName → name ≠ ".niv" → d.tree.look [name] = none

theorem ensures_openStore_bare (file : File) :
    Ensures (openStore []) (lockedProject file) (fun _ d => Bare file d) fun _ _ => False := by
  refine ⟨rfl, rfl, fun name hl hst => ?_⟩
  change (Node.dir [(".niv", .dir [("deps", .dir [])]), (authorityLockfileName, .file file)]).look
    [name] = none
  have hf : (name == ".niv") = false := beq_eq_false_iff_ne.mpr hst
  have hse : (name == authorityLockfileName) = false := beq_eq_false_iff_ne.mpr hl
  rw [look_dir_cons, List.lookup_cons, hf, List.lookup_cons, hse]
  rfl

def plainPackages (name : String) : Packages :=
  (∅ : Packages).insert (plainManifest name).id ("root", plainManifest name)

theorem ensures_commit_bare {file : File} {name : String} (h : Bare file d)
    (hu : Disk.textAt [authorityLockfileName] d.tree = none) :
    Ensures (commitStagedInstall 1 Package.undigested [] (plainManifest name) ∅) d (fun r _ => r = 0)
      fun _ _ => False := by
  have hfr : ∀ other, other ≠ authorityLockfileName → other ≠ ".niv" →
      d.tree.look [other] ≠ some .dir := fun other hlo hst => by simp [h.other other hlo hst]
  have hl : Disk.temporary 1 [lockfileName] = ["niv.tmp-1"] := by decide
  have ha : Disk.temporary 1 [authorityLockfileName] = ["niv.authority.tmp-1"] := by
    decide
  rw [commitStagedInstall, ensures_bind, ensures_lift]
  refine ⟨?_, nofun⟩
  rintro packages ⟨⟩
  have hg : Ensures (guardProspectiveAuthority []
      (Authority.renderAuthorityLock (plainPackages name))) d
      (fun _ d' => d'.tree = d.tree) fun _ _ => False := by
    change Ensures (match Disk.textAt [authorityLockfileName] d.tree with | none => _ | some _ => _) _ _ _
    rw [hu]
    rfl
  refine hg.bind fun _ d₁ h₁ => ?_
  have hke : ∀ q, ¬ [lockfileName] <+: q → ¬ ["niv.tmp-1"] <+: q → ∀ contents,
      Leaves (Disk.seen q) (Disk.writeAtomic 1 ([] ++ [lockfileName]) contents) :=
    fun q hq ht contents => Disk.leaves_writeAtomic hq (by rwa [List.nil_append, hl])
  have hn : (∅ : PackageMap StagedPackage).toList = [] := rfl
  rw [hn, installStaged, ensures_bind, ensures_pure, ensures_bind]
  refine ((hke [] (by simp) (by simp) _).ensures ((hke [authorityLockfileName] (by decide) (by decide)
    _).ensures ((hke ["niv.authority.tmp-1"] (by decide) (by decide) _).ensures
      (Disk.ensures_writeAtomic (by rw [List.nil_append, hl]; decide))))).mono ?_ ?_
  · rintro _ d₂ ⟨⟨⟨-, hte⟩, hlo⟩, hr⟩
    change d₂.tree.look _ = d₁.tree.look _ at hte hlo hr
    rw [h₁] at hte hlo hr
    rw [ensures_bind]
    refine (Disk.ensures_writeAtomic ?_).mono (fun _ _ _ => by simp) fun _ _ hf => hf ?_
    · change ¬ Disk.temporary 1 [authorityLockfileName] <+: [authorityLockfileName]
      rw [ha]
      decide
    · change _ ∧ d₂.tree.look [] = _ ∧ d₂.tree.look (Disk.temporary 1 [authorityLockfileName]) ≠ _ ∧
        d₂.tree.look [authorityLockfileName] ≠ _
      rw [ha, hr, hte, hlo, h.lock]
      exact ⟨by simp [authorityPlace], h.root, hfr _ (by decide) (by decide), by simp⟩
  · rintro _ _ ⟨⟨⟨hf, -⟩, -⟩, -⟩
    refine hf ?_
    rw [List.nil_append, hl, h₁]
    exact ⟨by simp, h.root, hfr _ (by decide) (by decide), hfr _ (by decide) (by decide)⟩

theorem ensures_prospective_plain (name : String) (file : File) :
    Ensures (plainInstall.prospective (plainSetting name)) ⟨lockedProject file, 0⟩
      (fun r _ => r = some (Authority.renderAuthorityLock (plainPackages name))) fun _ _ => False := by
  rw [plainInstall, Install.prospective, ensures_bind, ensures_onDisk]
  exact (ensures_openStore_bare file).mono (fun _ _ _ => rfl) fun _ _ h => h

theorem ensures_program_plain (name : String) {file : File}
    (h : ¬ (file.readable = true ∧ (ofUtf8 file.bytes).isSome = true)) :
    Ensures (plainInstall.program (plainSetting name)) ⟨lockedProject file, 0⟩
      (fun r _ => r = some 0) fun _ _ => False := by
  rw [plainInstall, Install.program, installDependencies, ensures_bind, ensures_onDisk]
  refine (ensures_openStore_bare file).mono (fun _ d hb => ?_) fun _ _ h => h
  have hu : Disk.textAt [authorityLockfileName] d.tree = none := by
    rw [Option.eq_none_iff_forall_ne_some]
    intro text hte
    rw [Disk.textAt_eq_some, hb.lock] at hte
    cases hte
    exact h ⟨rfl, by rw [ofUtf8_eq_some.mpr rfl]; rfl⟩
  have hg : ∀ s, Ensures (gather (plainSetting name).root (plainSetting name).manifest
      (directorySource (plainSetting name).crypto [] ⟨fun _ => .error "", fun _ => []⟩
        (plainSetting name).root "") (plainSetting name).fuel) s
      (fun r s' => r = some ∅ ∧ s' = s) fun _ _ => False := fun _ => ⟨rfl, rfl⟩
  refine (hg _).bind ?_
  rintro _ _ ⟨rfl, rfl⟩
  rw [commitGathered, ensures_map, ensures_onDisk]
  exact (ensures_commit_bare hb hu).mono (fun _ _ h => congrArg some h) fun _ _ h => h

theorem exists_plain_ne (bytes : Bytes) :
    ∃ name, bytes ≠ utf8 (Authority.renderAuthorityLock (plainPackages name)) := by
  by_contra hall
  simp only [ne_eq, not_exists, not_not] at hall
  have hsa : Authority.renderAuthorityLock (plainPackages "app") =
      Authority.renderAuthorityLock (plainPackages "tool") :=
    utf8_injective ((hall "app").symm.trans (hall "tool"))
  exact absurd hsa (by decide +kernel)

end Replacement

/-- The locks that no install passes by are those that can be read. -/
theorem gate_kept_iff (file : File) :
    (∀ (c : Setting) (install : Install) (s : Online),
      s.disk.tree.look (authorityPlace c.root) = some (.file file) → Gated c install s file) ↔
      file.readable = true ∧ (ofUtf8 file.bytes).isSome = true := by
  constructor
  · intro hgate
    by_contra hunread
    obtain ⟨name, hname⟩ := exists_plain_ne file.bytes
    obtain ⟨-, s₁, hprogram, rfl⟩ := (ensures_program_plain name hunread).exists_ok
    obtain ⟨-, s₂, hprospective, rfl⟩ := (ensures_prospective_plain name file).exists_ok
    have hgated := hgate (plainSetting name) plainInstall ⟨lockedProject file, 0⟩ rfl
    refine (hgated ?_).1 0 (by rw [hprogram])
    rintro ⟨text, htext, hbytes⟩
    cases htext
    exact hname hbytes
  · rintro ⟨hreadable, htext⟩ c install s hfile
    obtain ⟨text, htext⟩ := Option.isSome_iff_exists.mp htext
    obtain ⟨bytes, readable⟩ := file
    cases hreadable
    cases ofUtf8_eq_some.mp htext
    exact gated_of_text hfile

/-- A lock that is not a text is replaced. -/
theorem unread_lock_replaced :
    (exec (plainInstall.program (plainSetting "app")) ⟨lockedProject ⟨[255], true⟩, 0⟩).1 =
        .ok (some 0) ∧
      (exec (plainInstall.program (plainSetting "app")) ⟨lockedProject ⟨[255], true⟩, 0⟩).2.disk.tree.look
        [authorityLockfileName] =
        some (.file ⟨utf8 (Authority.renderAuthorityLock (plainPackages "app")), true⟩) ∧
      ¬ Gated (plainSetting "app") plainInstall ⟨lockedProject ⟨[255], true⟩, 0⟩ ⟨[255], true⟩ := by
  have hcount : (exec (plainInstall.program (plainSetting "app"))
      ⟨lockedProject ⟨[255], true⟩, 0⟩).1 = .ok (some 0) := by decide +kernel
  refine ⟨hcount, by decide +kernel, fun hgated => ?_⟩
  refine (hgated ?_).1 0 hcount
  rintro ⟨text, -, hbytes⟩
  have hnot : ofUtf8 [255] = none := by decide +kernel
  have hbytes : ([255] : Bytes) = utf8 text := hbytes
  rw [hbytes, ofUtf8_eq_some.mpr rfl] at hnot
  cases hnot

end Nivren.Commands
