import Nivren.Library.Layout
import Nivren.Registry.Disk
import Nivren.Registry.Documents

/-! Packages on the disk.

A package is extracted into a directory beside its destination, gets two files that record where it came
from, and is then moved to its place. The files are written one after another, each at the place its path
names; two paths of an archive may name one place, and one may lie below another.
-/

namespace Nivren

open Codec FileTree List

namespace Package

variable (processId : ℕ)

/-- One file of a package, below a directory. -/
def extractFile (base : Path) (file : String × Bytes) : OnDisk Unit := do
  let output := resolve base file.1
  Disk.orFail (Disk.createDirAll output.dropLast) fun fault =>
    packageError ("cannot create package directory: " ++ faultText fault)
  Disk.orFail (Disk.write output file.2) fun fault =>
    packageError ("cannot extract " ++ display output ++ ": " ++ faultText fault)

def extractFiles (base : Path) : List (String × Bytes) → OnDisk Unit
  | [] => return
  | file :: rest => do
    extractFile base file
    extractFiles base rest

def sandbox (package : Package) (parent : Path) : Path :=
  parent ++ [".nivren-extract-" ++ toString processId ++ "-" ++ package.name]

def extractVia (package : Package) (temporary destination : Path) : OnDisk Unit := do
  extractFiles temporary package.files.toList
  Disk.orFail (Disk.rename temporary destination) fun fault =>
    packageError ("cannot commit extraction: " ++ faultText fault)

/-- `Package::extract`. -/
def extract (package : Package) (destination : Path) : OnDisk Unit := do
  if ← Disk.exists destination then
    throw (packageError ("destination already exists: " ++ display destination))
  Disk.orFail (Disk.createDirAll destination.dropLast) fun fault =>
    packageError ("cannot create destination parent: " ++ faultText fault)
  let temporary := package.sandbox processId destination.dropLast
  if ← Disk.exists temporary then
    throw (packageError "temporary extraction path already exists")
  Disk.orFail (Disk.createDir temporary) fun fault =>
    packageError ("cannot create extraction sandbox: " ++ faultText fault)
  tryCatch (package.extractVia temporary destination) fun error => do
    let _ ← Disk.removeDirAll temporary
    throw error

variable (crypto : Trust.Crypto)

def checksumName : String := ".niv-package-sha256"

def archiveName : String := ".niv-package"

/-- The files below a directory are those given. -/
def filesMatch (destination : Path) : List (String × Bytes) → OnDisk Bool
  | [] => return true
  | (path, expected) :: rest => do
    match ← Disk.read (resolve destination path) with
    | .error _ => return false
    | .ok actual => if actual ≠ expected then return false else filesMatch destination rest

/-- `installed_package_matches`. -/
def installedPackageMatches (package : Package) (destination : Path) (digest : String) :
    OnDisk Bool := do
  let recorded ← Disk.readToString (destination ++ [checksumName])
  if !recorded.any fun value => Text.trim value.toList == digest.toList then return false
  let archive ← Disk.read (destination ++ [archiveName])
  if !archive.toOption.any fun bytes => crypto.sha256 bytes == digest then return false
  filesMatch destination package.files.toList

def besides (package : Package) (role : String) : String :=
  role ++ package.name ++ "-" ++ package.version ++ "-" ++ toString processId

/-- A package beside its destination, with its two records. -/
def stage (package : Package) (staging : Path) (digest : String) (archive : Bytes) : OnDisk Unit := do
  if ← Disk.exists staging then throw (packageError "dependency staging path already exists")
  package.extract processId staging
  Disk.orFail (Disk.write (staging ++ [checksumName]) (utf8 (digest ++ "\n"))) fun fault =>
    packageError ("cannot write dependency checksum: " ++ faultText fault)
  Disk.orFail (Disk.write (staging ++ [archiveName]) archive) fun fault =>
    packageError ("cannot cache dependency archive: " ++ faultText fault)

/-- The package beside a destination takes the place of what is there. -/
def replace (staging backup destination : Path) : OnDisk Unit := do
  Disk.orFail (Disk.rename destination backup) fun fault =>
    packageError ("cannot stage dependency replacement: " ++ faultText fault)
  match ← Disk.rename staging destination with
  | .error fault =>
    let _ ← Disk.rename backup destination
    let _ ← Disk.removeDirAll staging
    throw (packageError ("cannot commit dependency replacement: " ++ faultText fault))
  | .ok _ =>
    Disk.orFail (Disk.removeDirAll backup) fun fault =>
      packageError ("cannot remove dependency backup: " ++ faultText fault)

def alreadyInstalled (package : Package) (destination : Path) (digest : String) : OnDisk Bool := do
  if ← Disk.exists destination then package.installedPackageMatches crypto destination digest
  else return false

/-- `install_package`. -/
def installPackage (package : Package) (destination : Path) (digest : String) (archive : Bytes) :
    OnDisk Unit := do
  Disk.rejectSymlinkIfPresent destination
  if ← package.alreadyInstalled crypto destination digest then return
  if destination = [] then throw (packageError "dependency destination has no parent")
  let staging := destination.dropLast ++ [package.besides processId ".install-"]
  package.stage processId staging digest archive
  if ← Disk.exists destination then
    replace staging (destination.dropLast ++ [package.besides processId ".backup-"]) destination
  else
    Disk.orFail (Disk.rename staging destination) fun fault =>
      packageError ("cannot install dependency: " ++ faultText fault)

section Extraction

open Program

variable {processId crypto} {d : Disk} {base : Path} {done files : List (String × Bytes)}

def placed (files : List (String × Bytes)) : List (Path × File) :=
  files.map fun file => (segments file.1, ⟨file.2, true⟩)

theorem placed_concat (file : String × Bytes) :
    placed (files ++ [file]) = placed files ++ [(segments file.1, ⟨file.2, true⟩)] := by
  simp [placed]

variable {t : Node File}

theorem rewritten_eq (h : Laid base (placed done) t) (bytes : Bytes) (q : Path) :
    Disk.rewritten bytes (base ++ q) t = ⟨bytes, true⟩ := by
  unfold Disk.rewritten
  split
  next old hold =>
    obtain ⟨file, -, heq⟩ := mem_map.mp (h.file q old hold)
    cases heq
    rfl
  · rfl

theorem ensures_extractFile (hl : Laid base (placed done) d.tree) {file : String × Bytes}
    (hn : Normal file.1) :
    Ensures (extractFile base file) d
      (fun _ d' => addFile (base ++ segments file.1) ⟨file.2, true⟩ d.tree = .ok d'.tree)
      (fun _ _ => ¬ ∃ t', addFile (base ++ segments file.1) (⟨file.2, true⟩ : File) d.tree = .ok t') := by
  have hp := hn.resolve base
  rw [extractFile, hp, ensures_bind]
  refine Disk.ensures_orFail_change (fun s hd => ?_) fun fault hf => ?_
  · have hsa : Disk.rewritten file.2 (base ++ segments file.1) s = ⟨file.2, true⟩ := by
      have hse : base ++ segments file.1 ≠ [] := by simp [hn.nonempty]
      have hlo := (look_createDirsFrom hd (base ++ segments file.1)).2 (by
        rw [nil_append, between_nil]
        exact fun hb => not_isPrefix_dropLast hse hb.2)
      rw [← rewritten_eq hl file.2 (segments file.1), Disk.rewritten, Disk.rewritten, hlo]
    refine Disk.ensures_orFail_change (fun t hw => ?_) fun fault hf => ?_
    · rw [hsa] at hw
      exact bind_eq_ok_iff.mpr ⟨s, hd, hw⟩
    · rintro ⟨t', hadd⟩
      obtain ⟨s', hdi, hw⟩ := bind_eq_ok_iff.mp hadd
      rw [hd] at hdi
      cases hdi
      rw [hsa, hw] at hf
      cases hf
  · rintro ⟨t', hadd⟩
    obtain ⟨s', hd, -⟩ := bind_eq_ok_iff.mp hadd
    rw [hd] at hf
    cases hf

theorem ensures_extractFiles (hn : ∀ file ∈ files, Normal file.1)
    (hl : Laid base (placed done) d.tree) (hd : Separate (placed done)) :
    Ensures (extractFiles base files) d
      (fun _ d' => Laid base (placed (done ++ files)) d'.tree ∧ Separate (placed (done ++ files)) ∧
        ∀ q, ¬ base <+: q → d'.tree.look q = d.tree.look q)
      (fun _ _ => ¬ Separate (placed (done ++ files))) := by
  induction files generalizing done d with
  | nil =>
    rw [append_nil]
    exact ⟨hl, hd, fun _ _ => rfl⟩
  | cons file rest ih =>
    have hfi := hn file (by simp)
    have hsp : done ++ file :: rest = done ++ [file] ++ rest := by simp
    rw [extractFiles, ensures_bind]
    refine (ensures_extractFile hl hfi).mono (fun _ d' hadd => ?_) fun _ _ hfa => ?_
    · have hap := (hl.addFile_iff hfi.nonempty).mp ⟨_, hadd⟩
      have hla := hl.addFile hfi.nonempty hadd
      rw [← placed_concat] at hla
      have hdo : Separate (placed (done ++ [file])) := by
        rw [placed_concat, separate_concat]
        exact ⟨hd, hap⟩
      rw [hsp]
      refine (ih (fun f hf => hn f (by simp [hf])) hla hdo).mono ?_ fun _ _ h => h
      rintro _ d'' ⟨hall, hse, hfr⟩
      refine ⟨hall, hse, fun q hq => ?_⟩
      have hne : q ≠ base ++ segments file.1 := fun heq => hq (heq ▸ prefix_append ..)
      rw [hfr q hq, look_addFile hadd hl.root, if_neg hne, if_neg fun hb => hq hb.1]
    · rw [hl.addFile_iff hfi.nonempty] at hfa
      intro hse
      refine hfa fun a ha => hse a ?_ (segments file.1, ⟨file.2, true⟩) ?_
      · simp [placed] at ha ⊢
        exact .inl ha
      · simp [placed]

variable {store : Path}

theorem prefix_sibling_iff {rest : Path} {a b : String} :
    store ++ [a] <+: store ++ [b] ++ rest ↔ a = b := by
  rw [append_assoc, prefix_append_right_inj, singleton_append, cons_prefix_cons]
  simp

theorem look_free {p q : Path} (hf : t.look p = none) (h : p <+: q) : t.look q = none := by
  obtain ⟨rest, rfl⟩ := h
  by_cases hr : rest = []
  · rwa [hr, append_nil]
  · exact look_append_eq_none (by simp [hf]) hr

variable {name : String} {package : Package}

theorem ensures_extractVia {temporary : String} (hn : ∀ file ∈ package.files.toList, Normal file.1)
    (hla : Laid (store ++ [temporary]) (placed []) d.tree) (hne : temporary ≠ name)
    (hfe : d.tree.look (store ++ [name]) = none) :
    Ensures (package.extractVia (store ++ [temporary]) (store ++ [name])) d
      (fun _ d' => Laid (store ++ [name]) (placed package.files.toList) d'.tree ∧
        Separate (placed package.files.toList) ∧
        ∀ q, ¬ store ++ [name] <+: q → d'.tree.look q =
          if store ++ [temporary] <+: q then none else d.tree.look q)
      (fun _ _ => ¬ Separate (placed package.files.toList)) := by
  have hsi : store ++ [temporary] ≠ store ++ [name] := by simpa using hne
  have ha : ¬ store ++ [temporary] <+: store ++ [name] := by simpa using hne
  have hem : Separate (placed []) := nofun
  refine (ensures_extractFiles hn hla hem).bind ?_
  rintro _ s ⟨hl, hse, hfr⟩
  refine Disk.ensures_orFail (Disk.ensures_rename (fun t hr => ?_) fun fault hf => ?_)
  · refine ⟨fun _ _ => ⟨hl.rename hsi hr, hse, fun q hq => ?_⟩, nofun⟩
    rw [look_rename hr hsi, if_neg hq]
    by_cases hin : store ++ [temporary] <+: q
    · rw [if_pos hin, if_pos hin]
    · rw [if_neg hin, if_neg hin, hfr q hin]
  · have hdir : s.tree.look store = some .dir :=
      @look_eq_dir_of_append _ _ store [temporary] (by rw [hl.root]; simp) (by simp)
    obtain ⟨t, hok⟩ := @rename_isOk _ s.tree (store ++ [temporary]) (store ++ [name])
      (by rw [hl.root]; simp) (by simp) ha (by simp) (by rw [hfr _ ha, hfe])
      (by rwa [dropLast_concat])
    rw [hok] at hf
    cases hf

theorem ensures_extract (hno : ∀ file ∈ package.files.toList, Normal file.1)
    (hst : d.tree.look store = some .dir) (hn : package.sandbox processId store ≠ store ++ [name]) :
    Ensures (package.extract processId (store ++ [name])) d
      (fun _ d' => Laid (store ++ [name]) (placed package.files.toList) d'.tree ∧
        Separate (placed package.files.toList) ∧
        ∀ q, ¬ store ++ [name] <+: q → d'.tree.look q = d.tree.look q)
      (fun _ _ => d.tree.look (store ++ [name]) ≠ none ∨
        d.tree.look (package.sandbox processId store) ≠ none ∨
          ¬ Separate (placed package.files.toList)) := by
  have hd : createDirAll store d.tree = .ok d.tree := createDirsFrom_of_look hst
  rw [extract, dropLast_concat]
  refine Disk.ensures_unless_exists .inl fun hfe => ?_
  rw [ensures_bind]
  refine Disk.ensures_orFail_change (fun s hs => ?_) fun fault hf => ?_
  · rw [Disk.tree_touch, hd] at hs
    cases hs
    refine Disk.ensures_unless_exists (fun hth => .inr (.inl hth)) fun hsa => ?_
    rw [ensures_bind]
    refine Disk.ensures_orFail_change (fun s hs => ?_) fun fault hf => ?_
    · have hl := look_createDir hs
      rw [ensures_tryCatch]
      refine (ensures_extractVia hno (laid_createDir hs) (by simpa [sandbox] using hn) ?_).mono
        ?_ fun e d' hfa => ?_
      · rw [hl, if_neg hn.symm]
        exact hfe
      · rintro _ d' ⟨hla, hse, hfr⟩
        refine ⟨hla, hse, fun q hq => ?_⟩
        rw [hfr q hq]
        by_cases hin : package.sandbox processId store <+: q
        · have hnn := look_free hsa hin
          rw [hnn]
          exact if_pos hin
        · have hne : q ≠ package.sandbox processId store := fun heq => hin (heq ▸ prefix_rfl)
          have hke := hl q
          rw [if_neg hne] at hke
          exact (if_neg hin).trans hke
      · rw [ensures_bind]
        exact Disk.ensures_change (fun _ _ => .inr (.inr hfa)) fun _ _ => .inr (.inr hfa)
    · obtain ⟨t, hok⟩ := @createDir_isOk _ (package.sandbox processId store) d.tree
        (by simp [sandbox]) (by rwa [sandbox, dropLast_concat]) hsa
      change createDir _ d.tree = _ at hf
      rw [hok] at hf
      cases hf
  · rw [Disk.tree_touch, hd] at hf
    cases hf

variable {package : Package} {store : Path} {digest : String} {archive : Bytes}

def installedFiles (package : Package) (digest : String) (archive : Bytes) : List (String × Bytes) :=
  package.files.toList ++ [(checksumName, utf8 (digest ++ "\n")), (archiveName, archive)]

theorem segments_checksumName : segments checksumName = [checksumName] := by decide

theorem segments_archiveName : segments archiveName = [archiveName] := by decide

theorem ensures_record (hl : Laid base (placed done) d.tree) (hd : Separate (placed done))
    (hn : segments name = [name]) (bytes : Bytes) (toError : Fault → NivError) :
    Ensures (Disk.orFail (Disk.write (base ++ [name]) bytes) toError) d
      (fun _ d' => Laid base (placed (done ++ [(name, bytes)])) d'.tree ∧
        Separate (placed (done ++ [(name, bytes)])) ∧
        ∀ q, d'.tree.look q = if q = base ++ [name] then some (.file ⟨bytes, true⟩) else d.tree.look q)
      (fun _ _ => ¬ Separate (placed (done ++ [(name, bytes)]))) := by
  have hadd : ∀ t, FileTree.write (base ++ [name]) ⟨bytes, true⟩ d.tree = .ok t ↔
      addFile (base ++ [name]) ⟨bytes, true⟩ d.tree = .ok t := by
    intro t
    rw [hl.addFile_eq_write]
  rw [placed_concat, separate_concat, hn]
  refine Disk.ensures_orFail_change (fun t ht => ?_) fun fault hf => ?_
  · rw [rewritten_eq hl] at ht
    have hlo := look_write ht
    rw [hadd] at ht
    exact ⟨hl.addFile (by simp) ht, ⟨hd, (hl.addFile_iff (by simp)).mp ⟨t, ht⟩⟩, hlo⟩
  · rintro ⟨-, ha⟩
    obtain ⟨t, ht⟩ := (@Laid.addFile_iff _ _ [name] (⟨bytes, true⟩ : File) _ _ hl (by simp)).mpr ha
    rw [← hadd] at ht
    rw [rewritten_eq hl, ht] at hf
    cases hf

structure Recorded (destination : Path) (package : Package) (digest : String) (archive : Bytes)
    (t : Node File) : Prop where
  laid : Laid destination (placed (package.installedFiles digest archive)) t
  checksum : t.look (destination ++ [checksumName]) = some (.file ⟨utf8 (digest ++ "\n"), true⟩)
  archive : t.look (destination ++ [archiveName]) = some (.file ⟨archive, true⟩)

theorem ensures_stage (hn : ∀ file ∈ package.files.toList, Normal file.1)
    (hst : d.tree.look store = some .dir) (hna : package.sandbox processId store ≠ store ++ [name]) :
    Ensures (package.stage processId (store ++ [name]) digest archive) d
      (fun _ d' => Recorded (store ++ [name]) package digest archive d'.tree ∧
        Separate (placed (package.installedFiles digest archive)) ∧
        d.tree.look (store ++ [name]) = none ∧
        ∀ q, ¬ store ++ [name] <+: q → d'.tree.look q = d.tree.look q)
      (fun _ _ => d.tree.look (store ++ [name]) ≠ none ∨
        d.tree.look (package.sandbox processId store) ≠ none ∨
          ¬ Separate (placed (package.installedFiles digest archive))) := by
  have hfe : ∀ {some more : List (String × Bytes)}, Separate (placed (some ++ more)) →
      Separate (placed some) := by
    intro some more h a ha b hb
    have hsub : placed some ⊆ placed (some ++ more) := by simp [placed]
    exact h a (hsub ha) b (hsub hb)
  have hsp : package.installedFiles digest archive =
      package.files.toList ++ [(checksumName, utf8 (digest ++ "\n"))] ++ [(archiveName, archive)] := by
    simp [installedFiles]
  have hnm : store ++ [name] ++ [checksumName] ≠ store ++ [name] ++ [archiveName] := by
    simp [checksumName, archiveName]
  have hoff : ∀ {q} record, ¬ store ++ [name] <+: q → q ≠ store ++ [name] ++ [record] :=
    fun record hq heq => hq (heq ▸ prefix_append ..)
  refine Disk.ensures_unless_exists .inl fun hfr => ?_
  rw [ensures_bind]
  refine (ensures_extract (d := d.touch (store ++ [name])) hn hst hna).mono ?_ ?_
  · rintro _ d₁ ⟨hlaid₁, hseparate₁, hframe₁⟩
    rw [ensures_bind]
    refine (ensures_record hlaid₁ hseparate₁ segments_checksumName _ _).mono ?_ ?_
    · rintro _ d₂ ⟨hlaid₂, hseparate₂, hlook₂⟩
      refine (ensures_record hlaid₂ hseparate₂ segments_archiveName _ _).mono ?_ ?_
      · rintro _ d₃ ⟨hlaid₃, hseparate₃, hlook₃⟩
        rw [← hsp] at hlaid₃ hseparate₃
        refine ⟨⟨hlaid₃, ?_, ?_⟩, hseparate₃, hfr, fun q hq => ?_⟩
        · rw [hlook₃, if_neg hnm, hlook₂, if_pos rfl]
        · rw [hlook₃, if_pos rfl]
        · rw [hlook₃, if_neg (hoff _ hq), hlook₂, if_neg (hoff _ hq), hframe₁ q hq]
          rfl
      · rw [hsp]
        exact fun _ _ hf => .inr (.inr hf)
    · rw [hsp]
      exact fun _ _ hf => .inr (.inr fun h => hf (hfe h))
  · rw [hsp]
    rintro _ _ (hth | hth | hf)
    · exact absurd hfr hth
    · exact .inr (.inl hth)
    · exact .inr (.inr fun h => hf (hfe (hfe h)))

variable {destination : Path}

theorem Recorded.congr {t' : Node File} {other : Path}
    (h : Recorded destination package digest archive t)
    (hsa : ∀ q, t'.look (other ++ q) = t.look (destination ++ q)) :
    Recorded other package digest archive t' :=
  ⟨h.laid.congr hsa, (hsa _).trans h.checksum, (hsa _).trans h.archive⟩

/-- The record beside a destination and the files are those of the package. -/
structure Matches (crypto : Trust.Crypto) (package : Package) (destination : Path) (digest : String)
    (t : Node File) : Prop where
  recorded : ∃ text, Disk.textAt (destination ++ [checksumName]) t = some text ∧
    Text.trim text.toList = digest.toList
  archived : ∃ bytes, Disk.bytesAt (destination ++ [archiveName]) t = .ok bytes ∧
    crypto.sha256 bytes = digest
  files : ∀ file ∈ package.files.toList, Disk.bytesAt (resolve destination file.1) t = .ok file.2

theorem ensures_filesMatch : Ensures (filesMatch destination files) d
      (fun same d' => d'.tree = d.tree ∧
        (same = true ↔ ∀ file ∈ files, Disk.bytesAt (resolve destination file.1) d.tree = .ok file.2))
      (fun _ _ => False) := by
  induction files generalizing d with
  | nil => exact ⟨rfl, by simp⟩
  | cons file rest ih =>
    rw [filesMatch, ensures_bind, Disk.read, Disk.ensures_inspect]
    cases hr : Disk.bytesAt (resolve destination file.1) d.tree with
    | error fault =>
      simp [hr]
    | ok actual =>
      dsimp only
      by_cases hd : actual ≠ file.2
      · rw [if_pos hd]
        simp [hr, hd]
      · rw [if_neg hd]
        rw [not_not] at hd
        refine ih.mono (fun same d' h => ⟨h.1, ?_⟩) fun _ _ h => h
        rw [h.2]
        simp [hr, hd]

theorem any_toOption {ε α : Type} {r : Except ε α} {p : α → Bool} :
    r.toOption.any p = true ↔ ∃ a, r = .ok a ∧ p a = true := by
  cases r with
  | error e => simp [Except.toOption]
  | ok a => simp [Except.toOption]

theorem ensures_installedPackageMatches :
    Ensures (package.installedPackageMatches crypto destination digest) d
      (fun same d' => d'.tree = d.tree ∧ (same = true ↔ Matches crypto package destination digest d.tree))
      (fun _ _ => False) := by
  rw [installedPackageMatches, ensures_bind, Disk.readToString, Disk.ensures_inspect]
  split
  next hd =>
    refine ⟨rfl, ?_⟩
    simp only [Bool.false_eq_true, false_iff]
    rintro ⟨⟨text, hte, htr⟩, -, -⟩
    simp [hte, htr] at hd
  next hr =>
    rw [ensures_bind, Disk.read, Disk.ensures_inspect, Disk.tree_touch]
    split
    next hd =>
      refine ⟨rfl, ?_⟩
      simp only [Bool.false_eq_true, false_iff]
      rintro ⟨-, ⟨bytes, hb, hdi⟩, -⟩
      simp [hb, hdi, Except.toOption] at hd
    next ha =>
      rw [Bool.not_eq_true, Bool.not_eq_false', Option.any_eq_true] at hr
      rw [Bool.not_eq_true, Bool.not_eq_false', any_toOption] at ha
      simp only [beq_iff_eq] at hr ha
      refine ensures_filesMatch.mono (fun same d' h => ⟨h.1, ?_⟩) fun _ _ h => h
      rw [h.2]
      exact ⟨fun hf => ⟨hr, ha, hf⟩, fun h => h.files⟩

theorem Matches.there
    (h : Matches crypto package destination digest t) : t.look destination = some .dir := by
  obtain ⟨bytes, hb, -⟩ := h.archived
  have hf := Disk.bytesAt_eq_ok.mp hb
  exact look_eq_dir_of_append (by rw [hf]; simp) (by simp)

theorem ensures_alreadyInstalled : Ensures (package.alreadyInstalled crypto destination digest) d
      (fun same d' => d'.tree = d.tree ∧ (same = true ↔ Matches crypto package destination digest d.tree))
      (fun _ _ => False) := by
  rw [alreadyInstalled, ensures_bind, Disk.exists, Disk.ensures_inspect]
  by_cases hth : FileTree.exists destination d.tree = true
  · rw [if_pos hth]
    exact ensures_installedPackageMatches
  · rw [if_neg hth]
    refine ⟨rfl, ?_⟩
    simp only [Bool.false_eq_true, false_iff]
    intro h
    exact hth (by rw [FileTree.exists, h.there]; rfl)

end Extraction

end Package

end Nivren
