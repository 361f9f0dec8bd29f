import Nivren.Registry.Audit

/-! Install and audit.

The lock an install writes is the one the audit gives right afterwards, unless the project is among its
own dependencies or a package cannot be found in order.
-/

namespace Nivren.Commands

open Codec FileTree Program

variable {α : Type} {processId : ℕ} {root : Path} {entry : StagedPackage}
  {staged : PackageMap StagedPackage} {d : Disk}

namespace Install

/-- The graph of an install, as it is fetched; what is installed already is not fetched. -/
def fetched (c : Setting) : Install → Fetching (Option (PackageMap StagedPackage))
  | .directory cwd formats registry => do
    onDisk (openStore c.root)
    gather c.root c.manifest (directorySource c.crypto cwd formats c.root registry) c.fuel
  | .network trusted => do
    let session ← openSession c.root trusted
    gather c.root c.manifest (releaseSource c.crypto c.root trusted session) c.fuel
  | .offline => return none

end Install

variable {s : Online}

theorem ensures_openStore : Returns (onDisk (openStore root)) s
    fun _ s' => s'.disk.tree.look (storeOf root) = some .dir := by
  refine ensures_onDisk.mpr (Returns.skip fun _ d₁ => Returns.skip fun _ d₂ => ?_)
  refine Disk.ensures_orFail_change (fun t ht => ?_) fun _ _ => trivial
  refine (look_createDirsFrom ht _).1 ?_
  rw [List.nil_append, between_nil]
  exact ⟨by simp [storeOf], List.prefix_rfl⟩

theorem ensures_openSession {trusted : Trusted} : Returns (openSession root trusted) s
    fun _ s' => s'.disk.tree.look (storeOf root) = some .dir := by
  refine .skip fun _ s₁ => .skip fun status s₂ => .skip fun advisories s₃ => ?_
  refine .bind ensures_openStore fun _ s₄ hst => ?_
  rw [Returns, ensures_bind, ensures_onDisk, Disk.readToString, Disk.ensures_inspect]
  cases trusted.now with
  | none => trivial
  | some now =>
    dsimp only
    split
    · trivial
    · exact hst

theorem not_prefix_storeOf (name : String) (q : Path) :
    ¬ storeOf root ++ [name] ++ q <+: storeOf root := by
  intro h
  have hl := h.length_le
  simp at hl

/-- The graph was fetched and committed. -/
def Committed (c : Setting) (staged : PackageMap StagedPackage) (s s' : Online) : Prop :=
  Gathered c.crypto c.root c.manifest c.fuel staged ∧
    ∃ packages, Written c.crypto c.root c.manifest staged packages s.disk.tree s'.disk

variable {c : Setting}

theorem ensures_fetched {β : Type} {opening : Fetching β} {source : β → Source}
    {closing : β → Option ℕ → Fetching (Option ℕ)}
    (hop : Returns opening s fun _ s' => s'.disk.tree.look (storeOf c.root) = some .dir)
    (hp : Leaves (fun s name => s.disk.below (storeOf c.root ++ [name])) opening)
    (hso : ∀ b, Supplies c.crypto (source b))
    (hb : ∀ b r, Leaves (fun s => s.disk.below (storeOf c.root)) (closing b r))
    (hl : ∀ b r, Leaves (fun s => s.disk.seen (authorityPlace c.root)) (closing b r))
    (hf : (exec (do
      let b ← opening
      gather c.root c.manifest (source b) c.fuel) s).1 = .ok (some staged)) :
    Returns (do
      let b ← opening
      let gathered ← gather c.root c.manifest (source b) c.fuel
      let installed ← commitGathered c.processId c.crypto c.root c.manifest gathered
      closing b installed) s fun _ => Committed c staged s := by
  have hg : Returns (do
      let b ← opening
      gather c.root c.manifest (source b) c.fuel) s fun r _ => r = some staged := by
    refine Ensures.of_exec (fun r s' hec => ?_) fun _ _ _ => trivial
    rw [hec] at hf
    cases hf
    rfl
  refine .bind (hp.ensures (hop.and (ensures_bind.mp hg))) ?_
  rintro b s₁ ⟨⟨hst, hgathered₁⟩, hsame₁⟩
  rw [Returns, ensures_bind]
  refine Ensures.of_exec (fun r s₂ hrun => ?_) fun _ _ _ => trivial
  obtain rfl := hgathered₁.of_ok hrun
  obtain ⟨htr, hpr⟩ := (ensures_gather (hso b) s₁).of_ok hrun
  rw [ensures_bind, commitGathered, ensures_map, ensures_onDisk]
  refine (ensures_commit (by rwa [htr]) (hpr staged rfl)).mono ?_ fun _ _ h => h
  rintro count d₃ ⟨packages, hw⟩
  refine ((hb b _).returns.and (hl b _).returns).mono ?_ fun _ _ _ => trivial
  rintro _ s₄ ⟨hbelow₄, hlock₄⟩
  refine ⟨⟨source b, s₁, s₂, hso b, hrun⟩, packages, hw.congr ?_ (congrFun hbelow₄) hlock₄⟩
  intro name q
  rw [htr]
  exact congrFun (congrFun hsame₁ name) q

theorem leaves_packages {m : Fetching α}
    (h : ∀ q, ¬ q <+: storeOf root → Leaves (fun s => s.disk.seen q) m) :
    Leaves (fun s name => s.disk.below (storeOf root ++ [name])) m :=
  .all fun name => .all fun q => h _ (not_prefix_storeOf name q)

theorem leaves_writeGeneration {contents : Bytes} : Leaves (Disk.below (storeOf root))
        (Disk.writeAtomic processId (generationPlace root) contents) ∧
      Leaves (Disk.seen (authorityPlace root))
        (Disk.writeAtomic processId (generationPlace root) contents) := by
  have hst : storeOf root = stateOf root ++ ["deps"] := by simp [storeOf, stateOf]
  have hte := @temporary_ne processId "registry-generation" (stateOf root) "deps" 1 (by decide)
    (by decide)
  have hn : ∀ {name : String} (q : Path), ¬ stateOf root ++ [name] <+: stateOf root ++ ["deps"] →
      ¬ stateOf root ++ [name] <+: storeOf root ++ q := by
    intro name q hne h
    rw [hst, List.append_assoc, List.prefix_append_right_inj, List.singleton_append,
      List.cons_prefix_cons] at h
    exact hne (by simp [h.1])
  have hl : ∀ name : String, ¬ stateOf root ++ [name] <+: authorityPlace root := by
    intro name h
    have hln := h.length_le
    simp [stateOf, authorityPlace] at hln
  rw [generationPlace]
  constructor
  · refine Disk.leaves_below fun q => Disk.leaves_writeAtomic (hn q (by simp)) ?_
    rw [temporary_eq] at hte ⊢
    exact hn q hte
  · refine Disk.leaves_writeAtomic (hl _) ?_
    rw [temporary_eq]
    exact hl _

variable {install : Install}

theorem ensures_program (hf : (exec (install.fetched c) s).1 = .ok (some staged)) :
    Returns (install.program c) s fun _ => Committed c staged s := by
  cases install with
  | directory cwd formats registry =>
    have h := @ensures_fetched staged s c Unit (onDisk (openStore c.root))
      (fun _ => directorySource c.crypto cwd formats c.root registry) (fun _ r => pure r)
      ensures_openStore
      (leaves_packages fun q hq => leaves_onDisk (f := Disk.seen q) (leaves_openStore hq))
      (fun _ => supplies_directorySource) (fun _ r => .pure r) (fun _ r => .pure r) hf
    simp only [bind_pure] at h
    exact h
  | network trusted =>
    refine ensures_fetched ensures_openSession (leaves_packages fun q hq => leaves_openSession hq)
      (fun _ => supplies_releaseSource) (fun session r => ?_) (fun session r => ?_) hf
    · cases r with
      | none => exact .pure none
      | some installed =>
        exact .bind (leaves_onDisk (f := Disk.below _) leaves_writeGeneration.1) fun _ => .pure _
    · cases r with
      | none => exact .pure none
      | some installed =>
        exact .bind (leaves_onDisk (f := Disk.seen _) leaves_writeGeneration.2) fun _ => .pure _
  | offline => cases hf

theorem committed_of_run {s' : Online} {count : Option ℕ}
    (hf : (exec (install.fetched c) s).1 = .ok (some staged))
    (hrun : exec (install.program c) s = (.ok count, s')) : Committed c staged s s' :=
  (ensures_program hf).of_ok hrun

/-- After a successful install the audit gives the lock that was written exactly when the project is not
among its own dependencies and the audit finds every package in order. -/
theorem audit_agrees_iff (c : Setting) (install : Install) (s s' : Online) (count : ℕ)
    (staged : PackageMap StagedPackage)
    (hfetched : (exec (install.fetched c) s).1 = .ok (some staged))
    (hrun : exec (install.program c) s = (.ok (some count), s')) :
    Agrees c.crypto c.root c.manifest s'.disk ↔ c.manifest.id ∉ staged ∧
      ∀ (id : PackageId) (entry : StagedPackage), staged[id]? = some entry →
        Auditable c.crypto c.root id entry s.disk.tree := by
  obtain ⟨hgathered, packages, hwritten⟩ := committed_of_run hfetched hrun
  exact agrees_of_written hgathered hwritten

def pointing (name other : String) : Package :=
  ⟨name, "1.0.0", (∅ : TextMap Bytes).insert manifestName
    (utf8 ("[package]\nname = \"" ++ name ++ "\"\nversion = \"1.0.0\"\nentry = \"main.niv\"\n" ++
      "\n[dependencies]\n" ++ other ++ " = \"1.0.0\"\n"))⟩

def mutualArchive (name : String) : Bytes :=
  (pointing name (if name = "app" then "lib" else "app")).encode.toOption.getD []

/-- An index whose entries are the names of the packages. -/
def mutualFormats : Formats where
  fromSlice bytes :=
    match ofUtf8 bytes with
    | none => .error ""
    | some name => .ok (.object [("format", .integer 1), ("name", .string name),
        ("version", .string "1.0.0"), ("sha256", .string ""),
        ("size", .integer (mutualArchive name).length)])
  toVecPretty _ := []

/-- An empty project beside a registry with the two packages. -/
def mutualDisk : Disk :=
  let packages (suffix : String) (contents : String → Bytes) : Node File :=
    .dir (["app", "lib"].map fun name =>
      (name, .dir [("1.0.0" ++ suffix, .file ⟨contents name, true⟩)]))
  ⟨.dir [("registry", .dir [("v1", .dir [("index", packages ".json" utf8),
    ("packages", packages ".nivpkg" mutualArchive)])])], []⟩

def mutualSetting (name : String) : Setting :=
  ⟨1, Package.undigested, [], { plainManifest name with
    dependencies := (∅ : TextMap String).insert "lib" "1.0.0" }, 4⟩

def mutualInstall : Install := .directory [] mutualFormats "registry"

instance : Decidable (Coherent entry) :=
  inferInstanceAs (Decidable (∀ a ∈ entry.package.installedFiles entry.digest entry.bytes,
    ∀ b ∈ entry.package.installedFiles entry.digest entry.bytes,
      segments a.1 = segments b.1 → a.2 = b.2))

theorem mutual_runs :
    ((exec (mutualInstall.program (mutualSetting "app")) ⟨mutualDisk, 0⟩).1 = .ok (some 2) ∧
      ((exec (mutualInstall.fetched (mutualSetting "app")) ⟨mutualDisk, 0⟩).1.toOption.join.any
        fun staged => staged.contains (mutualSetting "app").manifest.id) = true) ∧
    (exec (mutualInstall.program (mutualSetting "tool")) ⟨mutualDisk, 0⟩).1 = .ok (some 2) ∧
      ((exec (mutualInstall.fetched (mutualSetting "tool")) ⟨mutualDisk, 0⟩).1.toOption.join.any
        fun staged => !staged.contains (mutualSetting "tool").manifest.id &&
          staged.toList.all fun e => decide (Coherent e.2)) = true := by
  decide +kernel

theorem exec_eq_of_fst {ε S β : Type} {m : Fallible ε S β} {s : S} {r : Except ε β}
    (h : (exec m s).1 = r) : exec m s = (r, (exec m s).2) :=
  Prod.ext h rfl

theorem eq_ok_of_join {ε β : Type} {r : Except ε (Option β)} {value : β}
    (h : r.toOption.join = some value) : r = .ok (some value) := by
  match r with
  | .error e => cases h
  | .ok none => cases h
  | .ok (some _) =>
    cases h
    rfl

/-- A project with another name than its dependencies. -/
theorem audit_agrees_mutual :
    Agrees Package.undigested [] (mutualSetting "tool").manifest
      (exec (mutualInstall.program (mutualSetting "tool")) ⟨mutualDisk, 0⟩).2.disk := by
  obtain ⟨-, hcount, hgraph⟩ := mutual_runs
  obtain ⟨staged, hfetched, hchecked⟩ := (Option.any_eq_true _ _).mp hgraph
  rw [Bool.and_eq_true, Bool.not_eq_true', List.all_eq_true] at hchecked
  refine (audit_agrees_iff (mutualSetting "tool") mutualInstall ⟨mutualDisk, 0⟩ _ 2 staged
    (eq_ok_of_join hfetched) (exec_eq_of_fst hcount)).mpr ⟨?_, fun id entry hentry => .inr ⟨?_, ?_⟩⟩
  · intro hroot
    rw [Std.ExtTreeMap.contains_iff_mem.mpr hroot] at hchecked
    cases hchecked.1
  · rintro ⟨-, ⟨bytes, hbytes, -⟩, -⟩
    cases hbytes
  · have hmem := Std.ExtTreeMap.mem_toList_iff_getElem?_eq_some.mpr hentry
    exact of_decide_eq_true (hchecked.2 (id, entry) hmem)

/-- A project that is among its own dependencies: the lock that is written has no root, the audit keeps
one. -/
theorem root_among_dependencies_disagrees :
    (exec (mutualInstall.program (mutualSetting "app")) ⟨mutualDisk, 0⟩).1 = .ok (some 2) ∧
      ¬ Agrees Package.undigested [] (mutualSetting "app").manifest
        (exec (mutualInstall.program (mutualSetting "app")) ⟨mutualDisk, 0⟩).2.disk := by
  obtain ⟨⟨hcount, hgraph⟩, -⟩ := mutual_runs
  obtain ⟨staged, hfetched, hroot⟩ := (Option.any_eq_true _ _).mp hgraph
  refine ⟨hcount, fun hagrees => ?_⟩
  obtain ⟨hgathered, packages, hwritten⟩ :=
    committed_of_run (eq_ok_of_join hfetched) (exec_eq_of_fst hcount)
  have hnot := ((agrees_of_written hgathered hwritten).mp hagrees).1
  exact hnot (Std.ExtTreeMap.contains_iff_mem.mp hroot)

end Nivren.Commands
