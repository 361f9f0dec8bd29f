import Nivren.Registry.Frame

/-! A graph is written into the store.

The packages of a graph have directories of their own, so installing one leaves the others alone. After
a graph has been written every package of it is either as it was before, if it was recognised, or has
been laid out anew.
-/

namespace Nivren.Commands

open Codec FileTree Program List

variable {processId : ℕ} {crypto : Trust.Crypto} {root : Path} {manifest : Manifest} {id : PackageId}
  {entry : StagedPackage} {staged : PackageMap StagedPackage}

theorem directory_inj {a b : PackageId} (ha : Manifest.validVersion a.version = true)
    (hb : Manifest.validVersion b.version = true) (h : a.directory = b.directory) : a = b := by
  have hd : ∀ {version : String}, Manifest.validVersion version = true →
      '-' ∉ version.toList.reverse := by
    intro version hv hmem
    exact absurd (Manifest.validVersion_mem hv (mem_reverse.mp hmem)) (by decide)
  have hc : ∀ id : PackageId, id.directory.toList.reverse =
      id.version.toList.reverse ++ '-' :: id.name.toList.reverse := by
    intro id
    simp [PackageId.directory, String.toList_append]
  have hsp := congrArg (fun s : String => Text.splitOnce '-' s.toList.reverse) h
  simp only [hc, Text.splitOnce_append_cons (hd ha), Text.splitOnce_append_cons (hd hb),
    Option.some.injEq, Prod.mk.injEq, reverse_inj] at hsp
  obtain ⟨hv, hn⟩ := hsp
  cases a
  cases b
  exact congrArg₂ PackageId.mk (String.toList_injective hn) (String.toList_injective hv)

variable {packages : Packages} {entries : List (PackageId × StagedPackage)}

theorem foldlM_addStaged {start : Packages} (h : entries.foldlM addStaged start = .ok packages) :
    packages = Maps.insertAll (entries.map fun e => (e.1, "dependency", e.2.manifest)) start ∧
      ∀ e ∈ entries, e.2.manifest.id = e.1 := by
  induction entries generalizing start with
  | nil =>
    cases h
    exact ⟨rfl, by simp⟩
  | cons e rest ih =>
    rw [foldlM_cons] at h
    obtain ⟨next, hn, h⟩ := bind_eq_ok_iff.mp h
    unfold addStaged at hn
    split at hn
    · cases hn
    next hsa =>
      cases hn
      rw [not_or, not_not, not_not] at hsa
      obtain ⟨hp, hr⟩ := ih h
      exact ⟨hp, forall_mem_cons.mpr ⟨congrArg₂ PackageId.mk hsa.1 hsa.2, hr⟩⟩

theorem stagedPackages_eq_ok (h : stagedPackages manifest staged = .ok packages) :
    (∀ id : PackageId, packages[id]? = ((staged[id]?).map fun e => ("dependency", e.manifest)).or
      ((∅ : Packages).insert manifest.id ("root", manifest))[id]?) ∧
      ∀ (id : PackageId) (entry : StagedPackage), staged[id]? = some entry → entry.manifest.id = id := by
  obtain ⟨rfl, hids⟩ := foldlM_addStaged h
  constructor
  · intro id
    have hd : (staged.toList.map fun e => (e.1, "dependency", e.2.manifest)).Pairwise
        fun a b => ¬ compare a.1 b.1 = .eq := by
      rw [pairwise_map]
      exact Std.ExtTreeMap.distinct_keys_toList
    obtain ⟨hin, hout⟩ := Maps.getElem?_insertAll
      ((∅ : Packages).insert manifest.id ("root", manifest)) hd id
    cases hen : staged[id]? with
    | none =>
      refine (hout fun value hv => ?_).trans rfl
      obtain ⟨⟨other, e⟩, hmem, heq⟩ := mem_map.mp hv
      cases heq
      rw [Std.ExtTreeMap.mem_toList_iff_getElem?_eq_some, hen] at hmem
      cases hmem
    | some entry =>
      refine hin _ (mem_map.mpr ⟨(id, entry), ?_, rfl⟩)
      exact Std.ExtTreeMap.mem_toList_iff_getElem?_eq_some.mpr hen
  · intro id entry hen
    exact hids (id, entry) (Std.ExtTreeMap.mem_toList_iff_getElem?_eq_some.mpr hen)

structure Ready (crypto : Trust.Crypto) (root : Path) (id : PackageId) (entry : StagedPackage) : Prop
    extends Prepared crypto root id entry where
  named : entry.manifest.id = id

namespace Ready

theorem normal (h : Ready crypto root id entry) :
    ∀ file ∈ entry.package.files.toList, Package.Normal file.1 :=
  (Package.decode_decoded h.decoded).normal

theorem manifest_bytes (h : Ready crypto root id entry) :
    ∃ bytes text, entry.package.files[manifestName]? = some bytes ∧ ofUtf8 bytes = some text ∧
      Manifest.parse text = .ok entry.manifest ∧ entry.package.name = id.name ∧
        entry.package.version = id.version := by
  obtain ⟨bytes, text, parsed, hb, htx, hp, hn, hv⟩ := (Package.decode_decoded h.decoded).manifest
  obtain ⟨text', hte, hm⟩ := h.manifest
  rw [Package.manifestText, hb, Option.bind_some, htx] at hte
  cases hte
  rw [hp] at hm
  cases hm
  have hid := h.named
  rw [← hid]
  exact ⟨bytes, text, hb, htx, hp, hn.symm, hv.symm⟩

theorem directory_eq (h : Ready crypto root id entry) : entry.package.directory = id.directory := by
  obtain ⟨-, -, -, -, -, hn, hv⟩ := h.manifest_bytes
  rw [Package.directory, PackageId.directory, hn, hv]

theorem plain (h : Ready crypto root id entry) : Package.Plain id.directory := by
  rw [← h.directory_eq]
  exact (Package.decode_decoded h.decoded).plain

theorem validVersion (h : Ready crypto root id entry) : Manifest.validVersion id.version = true := by
  obtain ⟨text, -, hm⟩ := h.manifest
  have hv := (Manifest.parse_valid hm).2
  rw [← h.named]
  exact hv

end Ready

variable {t : Node File}

theorem matches_congr {package : Package} {destination : Path} {digest : String} {t' : Node File}
    (hn : ∀ file ∈ package.files.toList, Package.Normal file.1)
    (hsa : ∀ q, t'.look (destination ++ q) = t.look (destination ++ q)) :
    Package.Matches crypto package destination digest t' ↔
      Package.Matches crypto package destination digest t := by
  have hone : ∀ {t t' : Node File}, (∀ q, t'.look (destination ++ q) = t.look (destination ++ q)) →
      Package.Matches crypto package destination digest t →
      Package.Matches crypto package destination digest t' := by
    rintro t t' hsa ⟨⟨text, hte, htr⟩, ⟨bytes, hb, hd⟩, hfi⟩
    refine ⟨⟨text, ?_, htr⟩, ⟨bytes, ?_, hd⟩, fun file hf => ?_⟩
    · rw [Disk.textAt_eq_some] at hte ⊢
      rw [hsa, hte]
    · rw [Disk.bytesAt_eq_ok] at hb ⊢
      rw [hsa, hb]
    · have hr := hfi file hf
      rw [Disk.bytesAt_eq_ok, (hn file hf).resolve] at hr ⊢
      rw [hsa, hr]
  exact ⟨hone fun q => (hsa q).symm, hone hsa⟩

/-- A package that was recognised has stayed as it was; any other has been laid out anew. -/
def Renewed (crypto : Trust.Crypto) (root : Path) (id : PackageId) (entry : StagedPackage)
    (t t' : Node File) : Prop :=
  (Package.Matches crypto entry.package (storeOf root ++ [id.directory]) entry.digest t ∧
    ∀ q, t'.look (storeOf root ++ [id.directory] ++ q) = t.look (storeOf root ++ [id.directory] ++ q)) ∨
  (¬ Package.Matches crypto entry.package (storeOf root ++ [id.directory]) entry.digest t ∧
    Package.Recorded (storeOf root ++ [id.directory]) entry.package entry.digest entry.bytes t')

variable {t₀ : Node File}

theorem Renewed.congr {t' t₁ : Node File} (hre : Ready crypto root id entry)
    (h : Renewed crypto root id entry t t')
    (hb : ∀ q, t.look (storeOf root ++ [id.directory] ++ q) =
      t₀.look (storeOf root ++ [id.directory] ++ q))
    (ha : ∀ q, t₁.look (storeOf root ++ [id.directory] ++ q) =
      t'.look (storeOf root ++ [id.directory] ++ q)) : Renewed crypto root id entry t₀ t₁ := by
  rw [Renewed, ← matches_congr hre.normal hb]
  rcases h with ⟨hm, hsa⟩ | ⟨hd, hr⟩
  · exact .inl ⟨hm, fun q => by rw [ha, hsa, hb]⟩
  · exact .inr ⟨hd, hr.congr ha⟩

variable {d : Disk}

theorem ensures_installStaged (hre : ∀ e ∈ entries, Ready crypto root e.1 e.2)
    (hdi : entries.Pairwise fun a b => a.1 ≠ b.1)
    (hst : d.tree.look (storeOf root) = some .dir) :
    Returns (installStaged processId crypto entries) d
      fun _ d' => d'.tree.look (storeOf root) = some .dir ∧
        (∀ e ∈ entries, Renewed crypto root e.1 e.2 d.tree d'.tree) ∧
        ∀ other, Package.Plain other → (∀ e ∈ entries, e.1.directory ≠ other) →
          ∀ q, d'.tree.look (storeOf root ++ [other] ++ q) =
            d.tree.look (storeOf root ++ [other] ++ q) := by
  induction entries generalizing d with
  | nil => exact ⟨hst, by simp, fun _ _ _ _ => rfl⟩
  | cons e rest ih =>
    obtain ⟨id, entry⟩ := e
    have hf := hre (id, entry) (by simp)
    have hrs : ∀ e ∈ rest, Ready crypto root e.1 e.2 := fun e he => hre e (by simp [he])
    rw [pairwise_cons] at hdi
    have hd : ∀ e ∈ rest, e.1.directory ≠ id.directory := by
      intro e he heq
      exact hdi.1 e he (directory_inj (hrs e he).validVersion hf.validVersion heq).symm
    rw [installStaged, hf.destination]
    refine .bind (Package.ensures_installPackage hf.normal hst hf.plain) fun _ d₁ h₁ => ?_
    have hot : ∀ other, Package.Plain other → id.directory ≠ other →
        ∀ q, d₁.tree.look (storeOf root ++ [other] ++ q) = d.tree.look (storeOf root ++ [other] ++ q) := by
      intro other hp hne q
      rcases h₁ with ⟨-, hsa⟩ | ⟨-, -, -, hfr⟩
      · rw [hsa]
      · refine hfr _ (fun h => hne (Package.prefix_sibling_iff.mp h)) fun h => ?_
        exact Package.Plain.ne_besides hp ".backup-" (by decide) (Package.prefix_sibling_iff.mp h)
    have hstore₁ : d₁.tree.look (storeOf root) = some .dir := by
      rcases h₁ with ⟨-, hsa⟩ | ⟨-, hr, -, -⟩
      · rwa [hsa]
      · exact look_eq_dir_of_append (by rw [hr.laid.root]; simp) (by simp)
    refine (ih hrs hdi.2 hstore₁).mono ?_ fun _ _ h => h
    rintro _ d₂ ⟨hstore₂, hrn, hfr⟩
    refine ⟨hstore₂, ?_, ?_⟩
    · intro e he
      rcases mem_cons.mp he with rfl | he
      · have hke := hfr id.directory hf.plain hd
        rcases h₁ with ⟨hm, hsa⟩ | ⟨hdf, hr, -, -⟩
        · exact .inl ⟨hm, fun q => by rw [hke, hsa]⟩
        · exact .inr ⟨hdf, hr.congr hke⟩
      · exact (hrn e he).congr (hrs e he) (hot _ (hrs e he).plain (hd e he).symm) fun _ => rfl
    · intro other hp hne q
      rw [hfr other hp (fun e he => hne e (by simp [he])) q]
      exact hot other hp (hne (id, entry) (by simp)) q

theorem storeOf_append (root q : Path) : storeOf root ++ q = stateOf root ++ "deps" :: q := by
  simp [storeOf, stateOf]

theorem exists_rewritten_eq (bytes : Bytes) (place : Path) (t : Node File) :
    ∃ readable, Disk.rewritten bytes place t = ⟨bytes, readable⟩ := by
  unfold Disk.rewritten
  split <;> exact ⟨_, rfl⟩

structure Written (crypto : Trust.Crypto) (root : Path) (manifest : Manifest)
    (staged : PackageMap StagedPackage) (packages : Packages) (t : Node File) (d : Disk) : Prop where
  accepted : stagedPackages manifest staged = .ok packages
  ready : ∀ (id : PackageId) (entry : StagedPackage), staged[id]? = some entry →
    Ready crypto root id entry
  renewed : ∀ (id : PackageId) (entry : StagedPackage), staged[id]? = some entry →
    Renewed crypto root id entry t d.tree
  store : d.tree.look (storeOf root) = some .dir
  lock : ∃ readable, d.tree.look (authorityPlace root) =
    some (.file ⟨utf8 (Authority.renderAuthorityLock packages), readable⟩)

/-- Neither what happened before beside the packages nor what happens afterwards beside the store and
the lock matters. -/
theorem Written.congr {d' : Disk} (h : Written crypto root manifest staged packages t d)
    (hbe : ∀ name q, t.look (storeOf root ++ [name] ++ q) = t₀.look (storeOf root ++ [name] ++ q))
    (hb : ∀ q, d'.tree.look (storeOf root ++ q) = d.tree.look (storeOf root ++ q))
    (hl : d'.tree.look (authorityPlace root) = d.tree.look (authorityPlace root)) :
    Written crypto root manifest staged packages t₀ d' where
  accepted := h.accepted
  ready := h.ready
  renewed id entry hen := by
    refine (h.renewed id entry hen).congr (h.ready id entry hen) (hbe _) fun q => ?_
    rw [append_assoc]
    exact hb _
  store := by
    have hr := hb []
    rwa [append_nil, h.store] at hr
  lock := by
    rw [hl]
    exact h.lock

theorem ensures_commit (hst : d.tree.look (storeOf root) = some .dir)
    (hpr : ∀ (id : PackageId) (entry : StagedPackage), staged[id]? = some entry →
      Prepared crypto root id entry) :
    Returns (commitStagedInstall processId crypto root manifest staged) d
      fun _ d' => ∃ packages, Written crypto root manifest staged packages d.tree d' := by
  rw [Returns, commitStagedInstall, ensures_bind, ensures_lift]
  refine ⟨fun packages hp => ?_, fun _ _ => trivial⟩
  have hids := (stagedPackages_eq_ok hp).2
  have hr : ∀ (id : PackageId) (entry : StagedPackage), staged[id]? = some entry →
      Ready crypto root id entry :=
    fun id entry hen => ⟨hpr id entry hen, hids id entry hen⟩
  have hmem : ∀ e ∈ staged.toList, Ready crypto root e.1 e.2 :=
    fun e he => hr e.1 e.2 (Std.ExtTreeMap.mem_toList_iff_getElem?_eq_some.mp he)
  have hd : staged.toList.Pairwise fun a b => a.1 ≠ b.1 :=
    Std.ExtTreeMap.distinct_keys_toList.imp fun h heq => h (by rw [heq]; exact Std.ReflCmp.compare_self)
  have hl : ∀ contents, Leaves (Disk.below (storeOf root))
      (Disk.writeAtomic processId (root ++ [lockfileName]) contents) := by
    refine fun contents => Disk.leaves_below fun q => ?_
    rw [storeOf_append]
    exact leaves_writeLockfile _
  have ha : ∀ contents, Leaves (Disk.below (storeOf root))
      (Disk.writeAtomic processId (authorityPlace root) contents) := by
    refine fun contents => Disk.leaves_below fun q => ?_
    rw [storeOf_append]
    exact leaves_writeAuthority _
  refine Returns.bind leaves_guardProspectiveAuthority.returns fun _ d₁ h₁ => ?_
  refine .bind (ensures_installStaged hmem hd (by rwa [h₁])) ?_
  rintro _ d₂ ⟨hstore₂, hre, -⟩
  rw [h₁] at hre
  refine .bind (hl _).returns fun _ d₃ h₃ => ?_
  refine .bind ((ha _).ensures (Disk.ensures_writeAtomic (temporary_ne 15 (by decide)
    (by decide)))) ?_
  rintro _ d₄ ⟨hlo, h₄⟩
  have hb : ∀ q, d₄.tree.look (storeOf root ++ q) = d₂.tree.look (storeOf root ++ q) :=
    congrFun (h₄.trans h₃)
  refine ⟨packages, hp, hr, fun id entry hen => ?_, ?_, ?_⟩
  · have hm := Std.ExtTreeMap.mem_toList_iff_getElem?_eq_some.mpr hen
    refine (hre (id, entry) hm).congr (hr id entry hen) (fun _ => rfl) fun q => ?_
    rw [append_assoc]
    exact hb _
  · have hro := hb []
    rwa [append_nil, hstore₂] at hro
  · obtain ⟨readable, hf⟩ := exists_rewritten_eq (utf8 (Authority.renderAuthorityLock packages))
      (Disk.temporary processId (authorityPlace root)) d₃.tree
    refine ⟨readable, ?_⟩
    rw [← hf]
    exact hlo

end Nivren.Commands
