import Nivren.Library.FileTree
import Nivren.Library.Program

/-! Files laid out below a directory.

Files are added one after another, each with the directories it needs. `Laid` says what then stands
below the directory. A file can be added exactly when its path is `Apart` from those before it: neither
is a part of the way to the other.
-/

namespace FileTree

open List

variable {α : Type}

def Apart (p q : Path) : Prop := (p <+: q → p = q) ∧ (q <+: p → q = p)

def Separate (files : List (Path × α)) : Prop := ∀ a ∈ files, ∀ b ∈ files, Apart a.1 b.1

def Consistent (files : List (Path × α)) : Prop := ∀ a ∈ files, ∀ b ∈ files, a.1 = b.1 → a.2 = b.2

/-- Below a directory there are these files, and the directories on the way to them. When several files
have one path, one of them is there. -/
structure Laid (base : Path) (files : List (Path × α)) (t : Node α) : Prop where
  root : t.look base = some .dir
  file : ∀ q contents, t.look (base ++ q) = some (.file contents) → (q, contents) ∈ files
  present : ∀ q contents, (q, contents) ∈ files → ∃ kept, t.look (base ++ q) = some (.file kept)
  dir : ∀ q, q ≠ [] → (t.look (base ++ q) = some .dir ↔ ∃ file ∈ files, q <+: file.1 ∧ q ≠ file.1)

def addFile (path : Path) (contents : α) (t : Node α) : Except Fault (Node α) := do
  write path contents (← createDirAll path.dropLast t)

variable {p q : Path}

theorem separate_concat {files : List (Path × α)} {file : Path × α} :
    Separate (files ++ [file]) ↔ Separate files ∧ ∀ a ∈ files, Apart a.1 file.1 := by
  constructor
  · intro h
    constructor
    · exact fun a ha b hb => h a (mem_append_left _ ha) b (mem_append_left _ hb)
    · exact fun a ha => h a (mem_append_left _ ha) file (by simp)
  · rintro ⟨hfi, hf⟩ a ha b hb
    rw [mem_append, mem_singleton] at ha hb
    rcases ha with ha | rfl <;> rcases hb with hb | rfl
    · exact hfi a ha b hb
    · exact hf a ha
    · exact ⟨(hf b hb).2, (hf b hb).1⟩
    · exact ⟨fun _ => rfl, fun _ => rfl⟩

theorem between_nil : Between [] p q ↔ q ≠ [] ∧ q <+: p := by
  simp [Between]

/-- Directories that are there need not be made. -/
theorem createDirsFrom_of_look {t : Node α} {above rest : Path}
    (h : t.look (above ++ rest) = some .dir) :
    createDirsFrom above rest t = .ok t := by
  induction rest generalizing above with
  | nil => rfl
  | cons name rest ih =>
    have hsp : above ++ name :: rest = above ++ [name] ++ rest := by simp
    rw [hsp] at h
    have hdir : t.look (above ++ [name]) = some .dir := by
      by_cases hr : rest = []
      · rwa [hr, append_nil] at h
      · exact look_eq_dir_of_append (by rw [h]; simp) hr
    unfold createDirsFrom
    simp only [hdir]
    exact ih h

section Add

variable {base path : Path} {contents : α} {files : List (Path × α)} {t t' s : Node α}

theorem isPrefix_dropLast (h : p <+: q) (hne : p ≠ q) : p <+: q.dropLast := by
  obtain ⟨rest, rfl⟩ := h
  have hr : rest ≠ [] := fun hnil => hne (by simp [hnil])
  rw [dropLast_append_of_ne_nil hr]
  exact prefix_append ..

theorem not_isPrefix_dropLast (h : p ≠ []) : ¬ p <+: p.dropLast := by
  intro hp
  have hl := hp.length_le
  have hpos := length_pos_iff.mpr h
  rw [length_dropLast] at hl
  omega

theorem look_addFile (h : addFile (base ++ path) contents t = .ok t')
    (hr : t.look base = some .dir) (q : Path) :
    t'.look q = if q = base ++ path then some (.file contents)
      else if base <+: q ∧ q ≠ base ∧ q <+: base ++ path then some .dir
      else t.look q := by
  obtain ⟨s, hd, hw⟩ := bind_eq_ok_iff.mp h
  rw [look_write hw]
  by_cases hse : q = base ++ path
  · rw [if_pos hse, if_pos hse]
  rw [if_neg hse, if_neg hse]
  obtain ⟨hin, hout⟩ := look_createDirsFrom hd q
  rw [nil_append, between_nil] at hin hout
  have hway : q <+: base ++ path → q <+: (base ++ path).dropLast := fun hq => isPrefix_dropLast hq hse
  by_cases hbe : base <+: q ∧ q ≠ base ∧ q <+: base ++ path
  · rw [if_pos hbe]
    have hne : q ≠ [] := by
      rintro rfl
      exact hbe.2.1 (prefix_nil.mp hbe.1).symm
    exact hin ⟨hne, hway hbe.2.2⟩
  · rw [if_neg hbe]
    by_cases hb : q ≠ [] ∧ q <+: (base ++ path).dropLast
    · -- the directories above the base are there
      rw [hin hb]
      have ha : q <+: base := by
        by_contra hnot
        have hq := hb.2.trans (List.dropLast_prefix _)
        have hba : base <+: q :=
          (List.prefix_or_prefix_of_prefix hq (prefix_append base path)).resolve_left hnot
        exact hbe ⟨hba, fun heq => hnot (heq ▸ prefix_rfl), hq⟩
      obtain ⟨rest, rfl⟩ := ha
      by_cases hre : rest = []
      · rw [hre, append_nil] at hr
        exact hr.symm
      · exact (look_eq_dir_of_append (by rw [hr]; simp) hre).symm
    · exact hout hb

/-- What is needed for a file to be added. -/
theorem addFile_eq_ok_iff (hr : t.look base = some .dir) (hp : path ≠ []) :
    (∃ t', addFile (base ++ path) contents t = .ok t') ↔ t.look (base ++ path) ≠ some .dir ∧
        ∀ q kept, q <+: path → q ≠ path → t.look (base ++ q) ≠ some (.file kept) := by
  have hw : base ++ path ≠ [] := by simp [hp]
  have hdr : (base ++ path).dropLast = base ++ path.dropLast := dropLast_append_of_ne_nil hp
  constructor
  · rintro ⟨t', h⟩
    obtain ⟨s, hd, hwr⟩ := bind_eq_ok_iff.mp h
    have hfr := look_ne_dir_of_write hwr
    have hke : ¬ Between [] ((base ++ path).dropLast) (base ++ path) := by
      rw [between_nil]
      exact fun hb => not_isPrefix_dropLast hw hb.2
    refine ⟨by rwa [← (look_createDirsFrom hd _).2 hke], fun q kept hq hne => ?_⟩
    by_cases hnil : base ++ q = []
    · obtain ⟨rfl, rfl⟩ := append_eq_nil_iff.mp hnil
      simp [hr]
    · refine createDirsFrom_free hd ?_
      rw [nil_append, between_nil, hdr]
      exact ⟨hnil, (prefix_append_right_inj base).mpr (isPrefix_dropLast hq hne)⟩
  · rintro ⟨hfr, hway⟩
    have htop : t.look [] = some .dir := by
      by_cases hba : base = []
      · rwa [hba] at hr
      · exact @look_eq_dir_of_append _ _ [] base (by simp [hr]) hba
    obtain ⟨s, hd⟩ := @createDirsFrom_isOk _ t [] ((base ++ path).dropLast) htop (by
      intro q kept hb hf
      rw [nil_append, between_nil, hdr] at hb
      rcases List.prefix_or_prefix_of_prefix hb.2 (prefix_append base path.dropLast) with hq | hq
      · obtain ⟨rest, rfl⟩ := hq
        by_cases hre : rest = []
        · rw [hre, append_nil, hf] at hr
          cases hr
        · rw [look_eq_dir_of_append (by rw [hr]; simp) hre] at hf
          cases hf
      · obtain ⟨rest, rfl⟩ := hq
        have hre := (prefix_append_right_inj base).mp hb.2
        refine hway rest kept (hre.trans (List.dropLast_prefix _)) (fun heq => ?_) hf
        exact not_isPrefix_dropLast hp (heq ▸ hre))
    have hl := look_createDirsFrom hd
    have hpa : s.look (base ++ path).dropLast = some .dir := by
      by_cases hnil : (base ++ path).dropLast = []
      · have hke := (hl (base ++ path).dropLast).2 (by rw [hnil]; simp [Between])
        rw [hke, hnil, htop]
      · exact (hl _).1 (by rw [nil_append, between_nil]; exact ⟨hnil, prefix_rfl⟩)
    have hse : s.look (base ++ path) ≠ some .dir := by
      rw [(hl _).2]
      · exact hfr
      · rw [nil_append, between_nil]
        exact fun hb => not_isPrefix_dropLast hw hb.2
    obtain ⟨t', hwr⟩ := write_isOk contents hw hpa hse
    exact ⟨t', bind_eq_ok_iff.mpr ⟨s, hd, hwr⟩⟩

namespace Laid

/-- A file can be added when its path is apart from those of the others. -/
theorem addFile_iff (h : Laid base files t) (hpa : path ≠ []) :
    (∃ t', FileTree.addFile (base ++ path) contents t = .ok t') ↔ ∀ a ∈ files, Apart a.1 path := by
  rw [addFile_eq_ok_iff h.root hpa]
  constructor
  · rintro ⟨hf, hway⟩ a ha
    constructor
    · intro hp
      by_contra hne
      obtain ⟨kept, hke⟩ := h.present a.1 a.2 ha
      exact hway a.1 kept hp hne hke
    · intro hp
      by_contra hne
      exact hf ((h.dir path hpa).mpr ⟨a, ha, hp, hne⟩)
  · intro hap
    constructor
    · intro hdir
      obtain ⟨a, ha, hp, hne⟩ := (h.dir path hpa).mp hdir
      exact hne ((hap a ha).2 hp)
    · intro q kept hp hne hke
      exact hne ((hap _ (h.file q kept hke)).1 hp)

/-- One more file. -/
theorem addFile (h : Laid base files t) (hp : path ≠ [])
    (hadd : FileTree.addFile (base ++ path) contents t = .ok t') :
    Laid base (files ++ [(path, contents)]) t' := by
  have hap := (h.addFile_iff hp).mp ⟨t', hadd⟩
  have hl : ∀ q, t'.look (base ++ q) = if q = path then some (.file contents)
      else if q ≠ [] ∧ q <+: path then some .dir else t.look (base ++ q) := by
    intro q
    rw [look_addFile hadd h.root]
    simp
  refine ⟨?_, ?_, ?_, ?_⟩
  · have hse := hl []
    rw [if_neg hp.symm, if_neg (by simp), append_nil] at hse
    exact hse.trans h.root
  · intro q kept hke
    rw [hl] at hke
    split at hke
    next heq =>
      cases hke
      simp [heq]
    · split at hke
      · cases hke
      · exact mem_append_left _ (h.file q kept hke)
  · intro q kept hke
    rw [mem_append, mem_singleton] at hke
    rw [hl]
    by_cases heq : q = path
    · exact ⟨contents, if_pos heq⟩
    · have hold : (q, kept) ∈ files := hke.resolve_right fun h => heq (congrArg Prod.fst h)
      have hnot : ¬ (q ≠ [] ∧ q <+: path) := fun hq => heq ((hap _ hold).1 hq.2)
      rw [if_neg heq, if_neg hnot]
      exact h.present q kept hold
  · intro q hq
    rw [hl]
    simp only [mem_append, or_and_right, exists_or]
    by_cases heq : q = path
    · subst heq
      simp only [if_true, mem_singleton, exists_eq_left, ne_eq, not_true_eq_false, and_false,
        or_false]
      constructor
      · intro hf
        cases hf
      · rintro ⟨a, ha, hpr, hne⟩
        exact absurd ((hap a ha).2 hpr) hne
    · by_cases hway : q <+: path
      · simp [heq, hq, hway]
      · simp [heq, hway, h.dir q hq]

/-- What stands below the directory is all that counts. -/
theorem congr (h : Laid base files t) {other : Path}
    (hsa : ∀ q, t'.look (other ++ q) = t.look (base ++ q)) : Laid other files t' := by
  have hr := hsa []
  rw [append_nil, append_nil, h.root] at hr
  refine ⟨hr, fun q contents hf => ?_, fun q contents hf => ?_, fun q hq => ?_⟩
  · exact h.file q contents (by rwa [← hsa])
  · rw [hsa]
    exact h.present q contents hf
  · rw [hsa]
    exact h.dir q hq

theorem rename {target : Path} (h : Laid base files t) (hne : base ≠ target)
    (hr : FileTree.rename base target t = .ok t') : Laid target files t' := by
  refine h.congr fun q => ?_
  rw [look_rename hr hne, if_pos (prefix_append ..), drop_left]

/-- When one path has one contents, exactly the files are there. -/
theorem look_iff (h : Laid base files t) (hc : Consistent files) (q : Path) (contents : α) :
    t.look (base ++ q) = some (.file contents) ↔ (q, contents) ∈ files := by
  constructor
  · exact h.file q contents
  · intro hmem
    obtain ⟨kept, hke⟩ := h.present q contents hmem
    have heq : kept = contents := hc _ (h.file q kept hke) _ hmem rfl
    rw [hke, heq]

/-- A file right below the directory. -/
theorem addFile_eq_write (h : Laid base files t) (name : String) :
    FileTree.addFile (base ++ [name]) contents t = write (base ++ [name]) contents t := by
  have hd : createDirAll (base ++ [name]).dropLast t = .ok t := by
    rw [dropLast_concat]
    exact createDirsFrom_of_look h.root
  rw [FileTree.addFile, hd]
  rfl

end Laid

theorem laid_createDir (h : createDir base t = .ok t') : Laid base ([] : List (Path × α)) t' := by
  have hfr : t.look base = none := by
    unfold createDir at h
    split at h
    · cases h
    · assumption
  have hl := look_createDir h
  have hb : ∀ q, q ≠ [] → t'.look (base ++ q) = none := by
    intro q hq
    rw [hl, if_neg (by simpa using hq), look_append_eq_none (by simp [hfr]) hq]
  have hr : t'.look base = some .dir := by rw [hl, if_pos rfl]
  refine ⟨hr, fun q contents hf => ?_, fun q contents hf => ?_, fun q hq => ?_⟩
  · by_cases hq : q = []
    · rw [hq, append_nil, hr] at hf
      cases hf
    · rw [hb q hq] at hf
      cases hf
  · cases hf
  · rw [hb q hq]
    simp

end Add

end FileTree
