import Nivren.Library.Maps
import Nivren.Registry.Extract

/-! Installing one package.

The destination is a name in the store. `install_package` leaves a package alone that is there already;
otherwise its files and records come to stand at the destination, and what else is in the store stays as
it is. Into an empty store exactly the packages are installed faithfully whose files, taken with the
records, have places of their own.
-/

namespace Nivren.Package

open Codec FileTree Program List

variable {processId : ℕ} {crypto : Trust.Crypto} {package : Package} {digest : String}
  {archive : Bytes} {d : Disk} {store : Path}

variable {name : String}

theorem ensures_replace {staging backup : String} (hst : d.tree.look (store ++ [staging]) ≠ none)
    (hsb : staging ≠ backup) (hsn : staging ≠ name) (hbn : backup ≠ name) :
    Ensures (replace (store ++ [staging]) (store ++ [backup]) (store ++ [name])) d
      (fun _ d' => (∀ q, d'.tree.look (store ++ [name] ++ q) = d.tree.look (store ++ [staging] ++ q)) ∧
        ∀ q, ¬ store ++ [name] <+: q → ¬ store ++ [backup] <+: q →
          d'.tree.look q = if store ++ [staging] <+: q then none else d.tree.look q)
      (fun _ _ => ¬ (d.tree.look (store ++ [name]) = some .dir ∧
        d.tree.look (store ++ [backup]) = none)) := by
  have hne : ∀ {a b : String}, a ≠ b → store ++ [a] ≠ store ++ [b] := by simp
  have ha : ∀ {a b : String}, a ≠ b → ¬ store ++ [a] <+: store ++ [b] := by simp
  have hbe : ∀ {a b : String} (q : Path), a ≠ b → ¬ store ++ [a] <+: store ++ [b] ++ q :=
    fun q hab h => hab (prefix_sibling_iff.mp h)
  have hdir : d.tree.look store = some .dir := look_eq_dir_of_append hst (by simp)
  rw [replace, ensures_bind]
  refine Disk.ensures_orFail (Disk.ensures_rename (fun t₁ hfi => ?_) fun fault hf => ?_)
  · refine ⟨fun _ _ => ?_, nofun⟩
    have hlook₁ := look_rename hfi (hne hbn.symm)
    rw [ensures_bind]
    refine Disk.ensures_rename (fun t₂ hse => ?_) fun fault hf => ?_
    · have hlook₂ := look_rename hse (hne hsn)
      refine Disk.ensures_orFail_change (fun t₃ hr => ?_) fun fault hf => ?_
      · have hlook₃ := look_removeDirAll hr
        constructor
        · intro q
          rw [hlook₃, if_neg (hbe q hbn), hlook₂, if_pos (prefix_append ..), drop_left,
            hlook₁, if_neg (hbe q hsb.symm), if_neg (hbe q hsn.symm)]
        · intro q hn hb
          rw [hlook₃, if_neg hb, hlook₂, if_neg hn, hlook₁, if_neg hb, if_neg hn]
      · rintro ⟨hth, -⟩
        have hba : t₂.look (store ++ [backup]) = some .dir := by
          rw [hlook₂, if_neg (ha hbn.symm), if_neg (ha hsb), hlook₁, if_pos prefix_rfl]
          simpa using hth
        obtain ⟨t₃, hok⟩ := removeDirAll_isOk (by simp) hba
        rw [hok] at hf
        cases hf
    · have hfa : ¬ (d.tree.look (store ++ [name]) = some .dir ∧
          d.tree.look (store ++ [backup]) = none) := by
        obtain ⟨t₂, hok⟩ := @rename_isOk _ t₁ (store ++ [staging]) (store ++ [name])
          (by rwa [hlook₁, if_neg (ha hsb.symm), if_neg (ha hsn.symm)]) (by simp) (ha hsn)
          (by simp) (by rw [hlook₁, if_neg (ha hbn), if_pos prefix_rfl])
          (by
            rw [dropLast_concat, hlook₁, if_neg, if_neg, hdir]
            all_goals exact fun h => absurd h.length_le (by simp))
        rw [hok] at hf
        cases hf
      rw [ensures_bind]
      refine Ensures.of_forall (fun _ _ => ?_) fun _ _ => hfa
      rw [ensures_bind]
      exact Ensures.of_forall (fun _ _ => hfa) fun _ _ => hfa
  · refine ⟨nofun, ?_⟩
    rintro _ ⟨⟩ ⟨hth, hfr⟩
    obtain ⟨t₁, hok⟩ := @rename_isOk _ d.tree (store ++ [name]) (store ++ [backup])
      (by rw [hth]; simp) (by simp) (ha hbn.symm) (by simp) hfr (by rwa [dropLast_concat])
    rw [hok] at hf
    cases hf

theorem append_ne_of_take {a b x y : String} (n : ℕ) (ha : n ≤ a.toList.length)
    (hb : n ≤ b.toList.length) (h : a.toList.take n ≠ b.toList.take n) : a ++ x ≠ b ++ y := by
  intro heq
  have hta := congrArg (fun s : String => s.toList.take n) heq
  simp only [String.toList_append] at hta
  rw [take_append_of_le_length ha, take_append_of_le_length hb] at hta
  exact h hta

theorem besides_eq (role : String) : package.besides processId role =
    role ++ (package.name ++ "-" ++ package.version ++ "-" ++ toString processId) := by
  simp only [besides, String.append_assoc]

theorem besides_ne_besides :
    package.besides processId ".install-" ≠ package.besides processId ".backup-" := by
  rw [besides_eq, besides_eq]
  exact append_ne_of_take 2 (by decide) (by decide) (by decide)

theorem sandbox_ne_besides :
    package.sandbox processId store ≠ store ++ [package.besides processId ".install-"] := by
  have hn := @append_ne_of_take ".nivren-extract-" ".install-"
    (toString processId ++ "-" ++ package.name)
    (package.name ++ "-" ++ package.version ++ "-" ++ toString processId) 2
    (by decide) (by decide) (by decide)
  rw [sandbox, besides_eq]
  simpa [String.append_assoc] using hn

def Plain (name : String) : Prop := name.toList.head? ≠ some '.'

theorem Plain.ne_besides (h : Plain name) (role : String)
    (hr : role.toList.head? = some '.') : package.besides processId role ≠ name := by
  rintro rfl
  refine h ?_
  rw [besides_eq, String.toList_append, List.head?_append, hr]
  rfl

/-- A store with nothing in it, except perhaps an empty directory under one name. -/
def Vacant (store : Path) (name : String) (t : Node File) : Prop :=
  ∀ q, q ≠ [] → t.look (store ++ q) = none ∨ q = [name] ∧ t.look (store ++ q) = some .dir

theorem Vacant.free {other : String} {t : Node File} (h : Vacant store name t)
    (hne : other ≠ name) : t.look (store ++ [other]) = none :=
  (h [other] (by simp)).resolve_right fun hot => hne (by simpa using hot.1)

theorem ensures_rejectSymlink (hst : d.tree.look store = some .dir) :
    Ensures (Disk.rejectSymlinkIfPresent (store ++ [name])) d (fun _ d' => d'.tree = d.tree)
      (fun _ _ => False) := by
  have hn : Disk.inspectFault (store ++ [name]) d.tree = none := by
    unfold Disk.inspectFault FileTree.exists
    cases hl : d.tree.look (store ++ [name]) with
    | some entry => simp
    | none => simp [missing_eq_notFound hst hl]
  rw [Disk.rejectSymlinkIfPresent, ensures_bind, Disk.ensures_inspect, hn]
  rfl

theorem ensures_installPackage (hno : ∀ file ∈ package.files.toList, Normal file.1)
    (hsr : d.tree.look store = some .dir) (hna : Plain name) :
    Ensures (package.installPackage processId crypto (store ++ [name]) digest archive) d
      (fun _ d' =>
        Matches crypto package (store ++ [name]) digest d.tree ∧ d'.tree = d.tree ∨
        ¬ Matches crypto package (store ++ [name]) digest d.tree ∧
          Recorded (store ++ [name]) package digest archive d'.tree ∧
          Separate (placed (package.installedFiles digest archive)) ∧
          ∀ q, ¬ store ++ [name] <+: q → ¬ store ++ [package.besides processId ".backup-"] <+: q →
            d'.tree.look q = d.tree.look q)
      (fun _ _ => ¬ (Vacant store name d.tree ∧
        Separate (placed (package.installedFiles digest archive)))) := by
  have hst := @Plain.ne_besides processId package name hna ".install-" (by decide)
  have hba := @Plain.ne_besides processId package name hna ".backup-" (by decide)
  have hnm := @besides_ne_besides processId package
  refine (ensures_rejectSymlink hsr).total fun _ d₁ h₁ => ?_
  refine ensures_alreadyInstalled.total ?_
  rintro same d₂ ⟨h₂, hsa⟩
  rw [h₁] at h₂ hsa
  cases same with
  | true => exact .inl ⟨hsa.mp rfl, h₂⟩
  | false =>
    have hd : ¬ Matches crypto package (store ++ [name]) digest d.tree :=
      fun h => by simpa using hsa.mpr h
    rw [if_neg (by simp), if_neg (by simp), dropLast_concat, ensures_bind]
    refine (ensures_stage (d := d₂) hno (by rwa [h₂]) sandbox_ne_besides).mono ?_ ?_
    · rintro _ d₃ ⟨hr, hse, hfr, hf⟩
      have hl := hr.laid
      rw [h₂] at hfr hf
      have hke : d₃.tree.look (store ++ [name]) = d.tree.look (store ++ [name]) :=
        hf _ (by simpa using hst)
      rw [ensures_bind, Disk.exists, Disk.ensures_inspect]
      by_cases hth : FileTree.exists (store ++ [name]) d₃.tree = true
      · rw [if_pos hth]
        refine (ensures_replace (d := d₃.touch (store ++ [name])) (by rw [Disk.tree_touch, hl.root]; simp)
          hnm hst hba).mono ?_ fun _ _ hfa => ?_
        · rintro _ d₄ ⟨hm, hot⟩
          refine .inr ⟨hd, hr.congr hm, hse, fun q hn hb => ?_⟩
          rw [hot q hn hb]
          by_cases hin : store ++ [package.besides processId ".install-"] <+: q
          · rw [if_pos hin, look_free hfr hin]
          · rw [if_neg hin]
            exact hf q hin
        · rintro ⟨hv, -⟩
          refine hfa ⟨?_, ?_⟩
          · rw [Disk.tree_touch, hke]
            rw [FileTree.exists, hke] at hth
            refine ((hv [name] (by simp)).resolve_left fun hnn => ?_).2
            simp [hnn] at hth
          · rw [Disk.tree_touch, hf _ (by simpa using hnm), hv.free hba]
      · rw [if_neg hth]
        have hnn : d₃.tree.look (store ++ [name]) = none := by
          simpa [FileTree.exists] using hth
        have hsi : store ++ [package.besides processId ".install-"] ≠ store ++ [name] := by
          simpa using hst
        refine Disk.ensures_orFail (Disk.ensures_rename (fun t hre => ?_) fun fault hfl => ?_)
        · have hm : ∀ q, t.look (store ++ [name] ++ q) =
              d₃.tree.look (store ++ [package.besides processId ".install-"] ++ q) := by
            intro q
            rw [look_rename hre hsi, if_pos (prefix_append ..), drop_left]
            rfl
          refine ⟨fun _ _ => .inr ⟨hd, hr.congr hm, hse, fun q hn _ => ?_⟩, fun _ h => by cases h⟩
          rw [look_rename hre hsi, if_neg hn]
          by_cases hin : store ++ [package.besides processId ".install-"] <+: q
          · rw [if_pos hin, look_free hfr hin]
          · rw [if_neg hin]
            exact hf q hin
        · have hdir : d₃.tree.look store = some .dir := by
            rw [hf _ fun h => absurd h.length_le (by simp)]
            exact hsr
          obtain ⟨t, hok⟩ := @rename_isOk _ d₃.tree _ (store ++ [name]) (by rw [hl.root]; simp)
            (by simp) (by simpa using hst) (by simp) hnn (by rwa [dropLast_concat])
          rw [Disk.tree_touch, hok] at hfl
          cases hfl
    · rw [h₂]
      rintro _ _ (hth | hth | hfa) ⟨hv, hse⟩
      · exact hth (hv.free hst)
      · refine hth (hv.free ?_)
        rintro rfl
        exact hna (by simp [String.toList_append])
      · exact hfa hse

def directory (package : Package) : String := package.name ++ "-" ++ package.version

/-- The installed tree holds the files of the package, with their bytes, besides the two records and
nothing else, and is recognised as the package. -/
def Faithful (processId : ℕ) (crypto : Trust.Crypto) (package : Package) (archive : Bytes)
    (destination : Path) (d : Disk) : Prop :=
  ∃ d', exec (package.installPackage processId crypto destination (crypto.sha256 archive) archive) d =
      (.ok (), d') ∧
    (∀ q file, d'.tree.look (destination ++ q) = some (.file file) ↔ file.readable = true ∧
      ∃ path, (path, file.bytes) ∈ package.installedFiles (crypto.sha256 archive) archive ∧
        segments path = q) ∧
    (∀ q, d'.tree.look (destination ++ q) = some .dir ↔ q = [] ∨
      ∃ file ∈ package.installedFiles (crypto.sha256 archive) archive,
        q <+: segments file.1 ∧ q ≠ segments file.1) ∧
    (exec (package.installedPackageMatches crypto destination (crypto.sha256 archive)) d').1 = .ok true

theorem Decoded.plain (h : Decoded package) : Plain package.directory := by
  have hn := h.validName
  have hne : package.name.toList ≠ [] := by
    have := (Bool.and_eq_true_iff.mp hn).1
    simpa using this
  obtain ⟨c, rest, hch⟩ := exists_cons_of_ne_nil hne
  have hc := Manifest.validName_mem hn (c := c) (by simp [hch])
  have hh : package.directory.toList.head? = some c := by
    simp [directory, String.toList_append, hch]
  rw [Plain, hh]
  rintro ⟨⟩
  exact absurd hc (by decide)

variable {files : List (String × Bytes)}

theorem mem_placed {q : Path} {file : File} : (q, file) ∈ placed files ↔
      file.readable = true ∧ ∃ path, (path, file.bytes) ∈ files ∧ segments path = q := by
  constructor
  · intro h
    obtain ⟨⟨path, bytes⟩, hmem, heq⟩ := mem_map.mp h
    cases heq
    exact ⟨rfl, path, hmem, rfl⟩
  · rintro ⟨hr, path, hmem, rfl⟩
    obtain ⟨bytes, readable⟩ := file
    cases hr
    exact mem_map.mpr ⟨(path, bytes), hmem, rfl⟩

theorem fits_iff : Separate (placed files) ∧ Consistent (placed files) ↔ ∀ a ∈ files, ∀ b ∈ files,
      segments a.1 <+: segments b.1 → segments a.1 = segments b.1 ∧ a.2 = b.2 := by
  have hpl : ∀ a ∈ files, (segments a.1, (⟨a.2, true⟩ : File)) ∈ placed files :=
    fun a ha => mem_map_of_mem ha
  constructor
  · rintro ⟨hse, hc⟩ a ha b hb hpr
    have hsa := (hse _ (hpl a ha) _ (hpl b hb)).1 hpr
    exact ⟨hsa, congrArg File.bytes (hc _ (hpl a ha) _ (hpl b hb) hsa)⟩
  · intro h
    constructor
    · intro a ha b hb
      obtain ⟨x, hx, rfl⟩ := mem_map.mp ha
      obtain ⟨y, hy, rfl⟩ := mem_map.mp hb
      exact ⟨fun hp => (h x hx y hy hp).1, fun hp => (h y hy x hx hp).1⟩
    · intro a ha b hb hsa
      obtain ⟨x, hx, rfl⟩ := mem_map.mp ha
      obtain ⟨y, hy, rfl⟩ := mem_map.mp hb
      have hpc : segments x.1 = segments y.1 := hsa
      have hby := (h x hx y hy (hpc ▸ prefix_rfl)).2
      simp only [hby]

theorem matches_of_laid {destination : Path} {t : Node File}
    (hn : ∀ file ∈ package.files.toList, Normal file.1)
    (hla : Laid destination (placed (package.installedFiles (crypto.sha256 archive) archive)) t)
    (hc : Consistent (placed (package.installedFiles (crypto.sha256 archive) archive))) :
    Matches crypto package destination (crypto.sha256 archive) t := by
  have hl : ∀ file ∈ package.installedFiles (crypto.sha256 archive) archive,
      t.look (destination ++ segments file.1) = some (.file ⟨file.2, true⟩) := by
    intro file hf
    rw [hla.look_iff hc, mem_placed]
    exact ⟨rfl, file.1, hf, rfl⟩
  refine ⟨⟨crypto.sha256 archive ++ "\n", ?_, ?_⟩, ⟨archive, ?_, rfl⟩, fun file hf => ?_⟩
  · rw [Disk.textAt_eq_some, ← segments_checksumName]
    exact hl (checksumName, utf8 (crypto.sha256 archive ++ "\n")) (by simp [installedFiles])
  · rw [String.toList_append]
    exact Text.trim_concat (fun c => Trust.isWhiteSpace_encodeHex) (by decide)
  · rw [Disk.bytesAt_eq_ok, ← segments_archiveName]
    exact hl (archiveName, archive) (by simp [installedFiles])
  · rw [Disk.bytesAt_eq_ok, (hn file hf).resolve]
    exact hl file (mem_append_left _ hf)

/-- Into an empty store a package is installed faithfully exactly when among its files and the two
records none has a place on the way to that of another, and those at one place are the same. -/
theorem faithful_iff (processId : ℕ) (crypto : Trust.Crypto) (archive : Bytes) (package : Package)
    (hdecode : Package.decode archive = .ok package) (store : Path) (d : Disk)
    (hstore : d.tree.look store = some .dir) (hvacant : Vacant store package.directory d.tree) :
    Faithful processId crypto package archive (store ++ [package.directory]) d ↔
      ∀ a ∈ package.installedFiles (crypto.sha256 archive) archive,
        ∀ b ∈ package.installedFiles (crypto.sha256 archive) archive,
          segments a.1 <+: segments b.1 → segments a.1 = segments b.1 ∧ a.2 = b.2 := by
  have hdecoded := decode_decoded hdecode
  have hinstall := @ensures_installPackage processId crypto package (crypto.sha256 archive) archive d store
    package.directory hdecoded.normal hstore hdecoded.plain
  have hfresh : ¬ Matches crypto package (store ++ [package.directory]) (crypto.sha256 archive) d.tree := by
    rintro ⟨-, ⟨bytes, hbytes, -⟩, -⟩
    rw [Disk.bytesAt_eq_ok, append_assoc] at hbytes
    rcases hvacant ([package.directory] ++ [archiveName]) (by simp) with hnone | ⟨hlong, -⟩
    · rw [hnone] at hbytes
      cases hbytes
    · simp at hlong
  rw [← fits_iff]
  unfold Ensures at hinstall
  constructor
  · rintro ⟨d', hexec, hfiles, -, -⟩
    rw [hexec] at hinstall
    obtain ⟨hmatches, -⟩ | ⟨-, -, hseparate, -⟩ := hinstall
    · exact absurd hmatches hfresh
    · refine ⟨hseparate, ?_⟩
      rintro ⟨q, a⟩ ha ⟨q', b⟩ hb hsame
      cases hsame
      have hlooka := (hfiles q a).mpr (mem_placed.mp ha)
      have hlookb := (hfiles q b).mpr (mem_placed.mp hb)
      rw [hlooka] at hlookb
      cases hlookb
      rfl
  · rintro ⟨hseparate, hconsistent⟩
    rcases hexec : exec (package.installPackage processId crypto (store ++ [package.directory])
      (crypto.sha256 archive) archive) d with ⟨outcome, d'⟩
    rw [hexec] at hinstall
    cases outcome with
    | error e => exact absurd ⟨hvacant, hseparate⟩ hinstall
    | ok _ =>
      obtain ⟨hmatches, -⟩ | ⟨-, ⟨hlaid, -, -⟩, -, -⟩ := hinstall
      · exact absurd hmatches hfresh
      · refine ⟨d', hexec, fun q file => ?_, fun q => ?_, ?_⟩
        · rw [hlaid.look_iff hconsistent, mem_placed]
        · by_cases hq : q = []
          · simp [hq, hlaid.root]
          · rw [hlaid.dir q hq]
            simp [hq, placed]
        · have hcheck := @ensures_installedPackageMatches crypto d' package (crypto.sha256 archive)
            (store ++ [package.directory])
          obtain ⟨same, d'', hsame, -, hiff⟩ := hcheck.exists_ok
          rw [hsame, hiff.mpr (matches_of_laid hdecoded.normal hlaid hconsistent)]

def sampleWith (others : List (String × Bytes)) : Package :=
  ⟨"shapes", "1.0.0", Maps.insertAll others ((∅ : TextMap Bytes).insert manifestName
    (utf8 "[package]\nname = \"shapes\"\nversion = \"1.0.0\"\nentry = \"main.niv\"\n"))⟩

def sampleArchive (others : List (String × Bytes)) : Bytes :=
  (sampleWith others).encode.toOption.getD []

def sampleStore : Disk := ⟨.dir [("deps", .dir [])], []⟩

def undigested : Trust.Crypto := ⟨fun _ => [], fun _ => true, fun _ _ _ => true⟩

theorem decode_sampleArchive : Package.decode (sampleArchive []) = .ok (sampleWith []) := by
  decide +kernel

theorem vacant_sampleStore (name : String) : Vacant ["deps"] name sampleStore.tree := by
  intro q hq
  obtain ⟨first, rest, rfl⟩ := exists_cons_of_ne_nil hq
  left
  simp [sampleStore, look_dir_cons]

/-- A package with a manifest only. -/
theorem faithful_plain :
    Faithful 1 undigested (sampleWith []) (sampleArchive []) (["deps"] ++ [(sampleWith []).directory])
      sampleStore :=
  (faithful_iff 1 undigested _ _ decode_sampleArchive ["deps"] sampleStore (by decide +kernel)
    (vacant_sampleStore _)).mpr (by decide +kernel)

/-- Two paths of an archive that name one place: the package is installed without an error, but the
first file is lost and the package is not recognised. -/
theorem doubled_separator_unfaithful :
    let others : List (String × Bytes) := [("lib/a.niv", [1]), ("lib//a.niv", [2])]
    Package.decode (sampleArchive others) = .ok (sampleWith others) ∧
      (exec ((sampleWith others).installPackage 1 undigested ["deps", "shapes-1.0.0"] ""
        (sampleArchive others)) sampleStore).1 = .ok () ∧
      ¬ Faithful 1 undigested (sampleWith others) (sampleArchive others) ["deps", "shapes-1.0.0"]
        sampleStore := by
  intro others
  refine ⟨by decide +kernel, by decide +kernel, ?_⟩
  rintro ⟨d', hexec, -, -, hmatches⟩
  have hstate : (exec ((sampleWith others).installPackage 1 undigested ["deps", "shapes-1.0.0"] ""
      (sampleArchive others)) sampleStore).2 = d' := congrArg Prod.snd hexec
  have hdiffers : (exec ((sampleWith others).installedPackageMatches undigested ["deps", "shapes-1.0.0"] "")
      (exec ((sampleWith others).installPackage 1 undigested ["deps", "shapes-1.0.0"] ""
        (sampleArchive others)) sampleStore).2).1 = .ok false := by
    decide +kernel
  rw [hstate] at hdiffers
  exact absurd (hdiffers.symm.trans hmatches) (by simp)

end Nivren.Package
