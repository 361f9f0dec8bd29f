import Nivren.Library.Maps
import Nivren.Registry.Disk
import Nivren.Registry.Documents

/-! The lock file `niv.lock`.

`resolved_lockfile` prints the digests of all resolved packages; `locked_digests` reads them back block
by block. The two are inverse to each other for valid identities and hexadecimal digests.
-/

namespace Nivren

open Codec FileTree Text List

structure PackageId where
  name : String
  version : String
deriving DecidableEq

/-- Names come first in the order. -/
instance : Ord PackageId := ⟨compareLex (compareOn PackageId.name) (compareOn PackageId.version)⟩

instance : Std.TransOrd PackageId :=
  inferInstanceAs (Std.TransCmp (compareLex (compareOn PackageId.name) (compareOn PackageId.version)))

instance : Std.LawfulEqOrd PackageId where
  compare_self := Std.ReflCmp.compare_self
  eq_of_compare {a b} h := by
    have hb : (compareOn PackageId.name a b).then (compareOn PackageId.version a b) = .eq := h
    obtain ⟨hn, hv⟩ := Ordering.then_eq_eq.mp hb
    cases a
    cases b
    exact congrArg₂ PackageId.mk (Std.LawfulEqOrd.eq_of_compare hn)
      (Std.LawfulEqOrd.eq_of_compare hv)

abbrev PackageMap (α : Type) := Std.ExtTreeMap PackageId α

def lockfileName : String := "niv.lock"

namespace Manifest

def lockedBlock (id : PackageId) (sha256 : String) : String :=
  "\n[[dependency]]\nname = \"" ++ id.name ++ "\"\nversion = \"" ++ id.version ++
    "\"\nsha256 = \"" ++ sha256 ++ "\"\n"

def lockHead (manifest : Manifest) : String :=
  "# This file is generated by Nivren.\nformat = 1\n\n[[package]]\nname = \"" ++ manifest.name ++
    "\"\nversion = \"" ++ manifest.version ++ "\"\n"

/-- `resolved_lockfile`. -/
def resolvedLockfile (manifest : Manifest) (resolved : PackageMap String) : String :=
  (resolved.toList.map fun entry => lockedBlock entry.1 entry.2).foldl (· ++ ·) (lockHead manifest)

end Manifest

namespace LockFile

def separator : List Char := "[[dependency]]".toList

def lineField (key line : List Char) : Option String := do
  let rest ← (trim line).dropPrefix? key
  let value ← (trimStart rest).dropPrefix? ['=', ' ', Manifest.quoteMark]
  String.ofList <$> value.dropSuffix? [Manifest.quoteMark]

def field (key block : List Char) : Option String := (lines block).findSome? (lineField key)

def lockedEntry (block : List Char) : Option (PackageId × String) := do
  let name ← field "name".toList block
  let version ← field "version".toList block
  let sha256 ← field "sha256".toList block
  return (⟨name, version⟩, sha256)

def parse (text : String) : PackageMap String :=
  Maps.insertAll ((splitText separator text.toList).tail.filterMap lockedEntry) ∅

/-- `locked_digests`. -/
def lockedDigests (root : Path) : OnDisk (PackageMap String) := do
  match ← Disk.readToString (root ++ [lockfileName]) with
  | some text => return parse text
  | none => return ∅

/-- `check_locked_digest`. -/
def checkLockedDigest (root : Path) (name version digest : String) : OnDisk Unit := do
  match (← lockedDigests root)[(⟨name, version⟩ : PackageId)]? with
  | none => return
  | some expected =>
    if expected ≠ digest then
      throw (packageError (name ++ " " ++ version ++ " no longer matches niv.lock (locked " ++
        expected ++ ", fetched " ++ digest ++ "); remove its lock entry to accept the new archive"))

open Manifest (fieldLine lineStart quoteMark)

section Blocks

variable {c d : Char} {key other value rest : List Char}

theorem trim_fieldLine (hc : isWhiteSpace c = false) :
    trim (fieldLine (c :: key) value) = fieldLine (c :: key) value := by
  have hq : isWhiteSpace quoteMark = false := by decide
  have hl : fieldLine (c :: key) value =
      c :: ((key ++ [' ', '=', ' ', quoteMark] ++ value) ++ [quoteMark]) := by
    simp [fieldLine, lineStart]
  rw [hl, trim_cons hc, rdropWhile_append_cons hq]
  rfl

theorem lineField_fieldLine (hc : isWhiteSpace c = false) :
    lineField (c :: key) (fieldLine (c :: key) value) = some (String.ofList value) := by
  have hkey : (fieldLine (c :: key) value).dropPrefix? (c :: key) =
      some ([' ', '=', ' ', quoteMark] ++ (value ++ [quoteMark])) :=
    List.dropPrefix?_eq_some_iff.mpr ⟨c :: key, by simp [fieldLine, lineStart], by simp⟩
  have hst : trimStart ([' ', '=', ' ', quoteMark] ++ (value ++ [quoteMark])) =
      ['=', ' ', quoteMark] ++ (value ++ [quoteMark]) := rfl
  have hop : (['=', ' ', quoteMark] ++ (value ++ [quoteMark])).dropPrefix? ['=', ' ', quoteMark] =
      some (value ++ [quoteMark]) :=
    List.dropPrefix?_eq_some_iff.mpr ⟨['=', ' ', quoteMark], rfl, by decide⟩
  have hcl : (value ++ [quoteMark]).dropSuffix? [quoteMark] = some value :=
    List.dropSuffix?_eq_some_iff.mpr ⟨[quoteMark], rfl, by decide⟩
  rw [lineField, trim_fieldLine hc, hkey, Option.bind_eq_bind, Option.bind_some, hst, hop]
  simp [hcl]

theorem lineField_other (hc : isWhiteSpace c = false) (hd : d ≠ c) :
    lineField (d :: other) (fieldLine (c :: key) value) = none := by
  have hkey : (fieldLine (c :: key) value).dropPrefix? (d :: other) = none := by
    rw [fieldLine, lineStart, cons_append, cons_append, dropPrefix?]
    simp [hd.symm]
  rw [lineField, trim_fieldLine hc, hkey]
  rfl

end Blocks

def body (entry : PackageId × String) : List Char :=
  '\n' :: (fieldLine "name".toList entry.1.name.toList ++ '\n' ::
    (fieldLine "version".toList entry.1.version.toList ++ '\n' ::
      (fieldLine "sha256".toList entry.2.toList ++ ['\n'])))

/-- A dependency that can be printed and read back. -/
structure Printable (entry : PackageId × String) : Prop where
  name : Manifest.validName entry.1.name = true
  version : Manifest.validVersion entry.1.version = true
  digest : entry.2.toList.all Trust.isHexDigit = true

variable {entry : PackageId × String}

theorem Printable.notMem (h : Printable entry) {c : Char}
    (hn : (c.isLower || c.isDigit || c == '-' || c == '_') = false)
    (hv : (c.isDigit || c == '.') = false) (hd : Trust.isHexDigit c = false) :
    c ∉ entry.1.name.toList ∧ c ∉ entry.1.version.toList ∧ c ∉ entry.2.toList := by
  refine ⟨fun hc => ?_, fun hc => ?_, fun hc => ?_⟩
  · simp [Manifest.validName_mem h.name hc] at hn
  · simp [Manifest.validVersion_mem h.version hc] at hv
  · simp [all_eq_true.mp h.digest c hc] at hd

theorem lines_fieldLine {key value rest : List Char} (hkey : '\n' ∉ key) (hv : '\n' ∉ value) :
    lines (fieldLine key value ++ '\n' :: rest) = fieldLine key value :: lines rest := by
  have hte : fieldLine key value ++ '\n' :: rest =
      lineStart key ++ (value ++ quoteMark :: '\n' :: rest) := by
    simp [fieldLine]
  rw [hte, Manifest.lines_closed hkey hv]
  rfl

theorem lines_body (h : Printable entry) (more : List Char) :
    lines (body entry ++ more) = [] :: fieldLine "name".toList entry.1.name.toList ::
      fieldLine "version".toList entry.1.version.toList ::
      fieldLine "sha256".toList entry.2.toList :: lines more := by
  obtain ⟨hn, hv, hd⟩ := h.notMem (c := '\n') (by decide) (by decide) (by decide)
  have hte : body entry ++ more =
      [] ++ '\n' :: (fieldLine "name".toList entry.1.name.toList ++ '\n' ::
        (fieldLine "version".toList entry.1.version.toList ++ '\n' ::
          (fieldLine "sha256".toList entry.2.toList ++ '\n' :: more))) := by
    simp [body]
  rw [hte, lines_append_cons (by simp), lines_fieldLine (by decide) hn,
    lines_fieldLine (by decide) hv, lines_fieldLine (by decide) hd]
  rfl

theorem lockedEntry_body (h : Printable entry) (more : List Char) :
    lockedEntry (body entry ++ more) = some entry := by
  have hn : isWhiteSpace 'n' = false := by decide
  have hv : isWhiteSpace 'v' = false := by decide
  have hs : isWhiteSpace 's' = false := by decide
  have hke : "name".toList = ['n', 'a', 'm', 'e'] ∧
      "version".toList = ['v', 'e', 'r', 's', 'i', 'o', 'n'] ∧
      "sha256".toList = ['s', 'h', 'a', '2', '5', '6'] := by decide
  have hb : ∀ c key, lineField (c :: key) [] = none := fun _ _ => rfl
  simp only [lockedEntry, field, lines_body h, hke, List.findSome?_cons, hb]
  simp only [lineField_fieldLine hn, lineField_fieldLine hv, lineField_fieldLine hs,
    lineField_other hn (show 'v' ≠ 'n' by decide), lineField_other hn (show 's' ≠ 'n' by decide),
    lineField_other hv (show 's' ≠ 'v' by decide), String.ofList_toList]
  rfl

theorem clear_body (h : Printable entry) : clear separator (body entry) = true := by
  obtain ⟨hn, hv, hd⟩ := h.notMem (c := '[') (by decide) (by decide) (by decide)
  have hop : separator = '[' :: "[dependency]]".toList := by decide
  rw [hop]
  apply clear_of_notMem
  simp only [body, fieldLine, mem_cons, mem_append, not_or]
  refine ⟨by decide, ⟨by decide, hn, by decide⟩, by decide, ⟨by decide, hv, by decide⟩, by decide,
    ⟨by decide, hd, by decide⟩, by decide⟩

def bodies (entries : List (PackageId × String)) : List Char :=
  entries.flatMap fun entry => '\n' :: (separator ++ body entry)

theorem splitText_bodies {front : List Char} {entries : List (PackageId × String)}
    (hf : clear separator front = true) (h : ∀ entry ∈ entries, Printable entry) :
    ∃ more pieces, splitText separator (front ++ bodies entries) = (front ++ more) :: pieces ∧
      pieces.filterMap lockedEntry = entries := by
  have hop : separator = '[' :: "[dependency]]".toList := by decide
  have hn : clear separator ['\n'] = true := by decide
  induction entries generalizing front with
  | nil => exact ⟨[], [], by simp [bodies, splitText_last hf], rfl⟩
  | cons entry rest ih =>
    obtain ⟨hen, hr⟩ := forall_mem_cons.mp h
    obtain ⟨more, pieces, hsp, hp⟩ := ih (clear_body hen) hr
    have hte : front ++ bodies (entry :: rest) =
        (front ++ ['\n']) ++ (separator ++ (body entry ++ bodies rest)) := by
      simp [bodies]
    refine ⟨['\n'], (body entry ++ more) :: pieces, ?_, ?_⟩
    · rw [hte, hop, splitText_piece, ← hop, hsp]
      rw [← hop]
      exact clear_append hf hn
    · rw [filterMap_cons_some (lockedEntry_body hen more), hp]

theorem toList_lockedBlock (entry : PackageId × String) :
    (Manifest.lockedBlock entry.1 entry.2).toList = '\n' :: (separator ++ body entry) := by
  have hf : "\n[[dependency]]\nname = \"".toList =
      '\n' :: (separator ++ '\n' :: lineStart "name".toList) := by decide +kernel
  have hse : "\"\nversion = \"".toList = quoteMark :: '\n' :: lineStart "version".toList := by
    decide +kernel
  have hth : "\"\nsha256 = \"".toList = quoteMark :: '\n' :: lineStart "sha256".toList := by
    decide +kernel
  have hl : "\"\n".toList = [quoteMark, '\n'] := by decide
  change (_ ++ _ ++ _ ++ _ ++ _ ++ _ ++ _ : String).toList = _
  simp only [String.toList_append]
  rw [hf, hse, hth, hl]
  simp [body, fieldLine]

theorem toList_foldl_append (texts : List String) (front : String) :
    (texts.foldl (· ++ ·) front).toList = front.toList ++ texts.flatMap String.toList := by
  induction texts generalizing front with
  | nil => simp
  | cons text rest ih => simp [ih]

theorem toList_resolvedLockfile (manifest : Manifest) (resolved : PackageMap String) :
    (manifest.resolvedLockfile resolved).toList =
      (Manifest.lockHead manifest).toList ++ bodies resolved.toList := by
  rw [Manifest.resolvedLockfile, toList_foldl_append, flatMap_map]
  simp only [toList_lockedBlock]
  rfl

variable {manifest : Manifest}

theorem clear_lockHead (hna : Manifest.validName manifest.name = true)
    (hve : Manifest.validVersion manifest.version = true) :
    clear separator (Manifest.lockHead manifest).toList = true := by
  have hop : separator = '[' :: "[dependency]]".toList := by decide
  have hte : clear separator "# This file is generated by Nivren.\nformat = 1\n\n[[package]]\nname = \"".toList = true ∧
      clear separator "\"\nversion = \"".toList = true ∧ clear separator "\"\n".toList = true := by
    decide +kernel
  have hp : ∀ t : List Char, '[' ∉ t → clear separator t = true := by
    intro t ht
    rw [hop]
    exact clear_of_notMem ht
  have hn : '[' ∉ manifest.name.toList :=
    fun hc => absurd (Manifest.validName_mem hna hc) (by decide)
  have hv : '[' ∉ manifest.version.toList :=
    fun hc => absurd (Manifest.validVersion_mem hve hc) (by decide)
  change clear separator (_ ++ _ ++ _ ++ _ ++ _ : String).toList = _
  simp only [String.toList_append]
  exact clear_append (clear_append (clear_append (clear_append hte.1 (hp _ hn)) hte.2.1)
    (hp _ hv)) hte.2.2

theorem parse_resolvedLockfile {resolved : PackageMap String}
    (hn : Manifest.validName manifest.name = true)
    (hv : Manifest.validVersion manifest.version = true)
    (h : ∀ entry ∈ resolved.toList, Printable entry) :
    parse (manifest.resolvedLockfile resolved) = resolved := by
  obtain ⟨more, pieces, hsp, hp⟩ := splitText_bodies (clear_lockHead hn hv) h
  rw [parse, toList_resolvedLockfile, hsp, tail_cons, hp]
  exact Maps.insertAll_toList resolved

def Holds (root : Path) (d : Disk) (text : String) : Prop :=
  Disk.textAt (root ++ [lockfileName]) d.tree = some text

theorem exec_lockedDigests {root : Path} {d : Disk} {text : String} (h : Holds root d text) :
    Program.exec (lockedDigests root) d = (.ok (parse text), d.touch (root ++ [lockfileName])) := by
  have h : Disk.textAt (root ++ [lockfileName]) d.tree = some text := h
  rw [lockedDigests, Disk.readToString, Program.exec_bind, Disk.exec_inspect]
  simp only [h]
  rfl

theorem checkLockedDigest_fails_iff {root : Path} {name version digest : String} {d : Disk}
    {text : String} (h : Holds root d text) :
    (∃ e, (Program.exec (checkLockedDigest root name version digest) d).1 = .error e) ↔
      ∃ expected, (parse text)[(⟨name, version⟩ : PackageId)]? = some expected ∧ expected ≠ digest := by
  rw [checkLockedDigest, Program.exec_bind, exec_lockedDigests h]
  cases hl : (parse text)[(⟨name, version⟩ : PackageId)]? with
  | none => simp [hl]
  | some expected =>
    by_cases hsa : expected = digest
    · simp [hl, hsa]
    · simp only [hl, ne_eq, hsa, not_false_eq_true, if_true, Option.some.injEq, exists_eq_left',
        iff_true]
      exact ⟨_, rfl⟩

/-- Pinning is exact: a lock file written for resolved packages gives them back, and a digest is refused
exactly when it differs from the one locked. -/
theorem pinning_exact (source : String) (manifest : Manifest)
    (hmanifest : Manifest.parse source = .ok manifest) (resolved : PackageMap String)
    (hresolved : ∀ (id : PackageId) (digest : String), resolved[id]? = some digest →
      Manifest.validName id.name = true ∧ Manifest.validVersion id.version = true ∧
        digest.toList.all Trust.isHexDigit = true)
    (root : Path) (d : Disk) (hdisk : Holds root d (manifest.resolvedLockfile resolved)) :
    (Program.exec (lockedDigests root) d).1 = .ok resolved ∧
      ∀ name version digest,
        (∃ e, (Program.exec (checkLockedDigest root name version digest) d).1 = .error e) ↔
          ∃ expected, resolved[(⟨name, version⟩ : PackageId)]? = some expected ∧
            expected ≠ digest := by
  obtain ⟨hname, hversion⟩ := Manifest.parse_valid hmanifest
  have hprintable : ∀ entry ∈ resolved.toList, Printable entry := by
    rintro ⟨id, digest⟩ hentry
    obtain ⟨hn, hv, hd⟩ := hresolved id digest
      (Std.ExtTreeMap.mem_toList_iff_getElem?_eq_some.mp hentry)
    exact ⟨hn, hv, hd⟩
  have hparse := parse_resolvedLockfile hname hversion hprintable
  constructor
  · rw [exec_lockedDigests hdisk, hparse]
  · intro name version digest
    rw [checkLockedDigest_fails_iff hdisk, hparse]

def sampleManifest : Manifest := ⟨"app", "1.0.0", "main.niv", ∅, ∅, ∅, ∅, none, none, none, 4⟩

def sampleLocks : PackageMap String := (∅ : PackageMap String).insert ⟨"shapes", "1.2.0"⟩ "0f"

def sampleDisk : Disk :=
  ⟨.dir [(lockfileName, .file ⟨utf8 (sampleManifest.resolvedLockfile sampleLocks), true⟩)], []⟩

theorem pinning_exact_sample :
    (Program.exec (lockedDigests []) sampleDisk).1 = .ok sampleLocks ∧
      ∀ name version digest,
        (∃ e, (Program.exec (checkLockedDigest [] name version digest) sampleDisk).1 = .error e) ↔
          ∃ expected, sampleLocks[(⟨name, version⟩ : PackageId)]? = some expected ∧
            expected ≠ digest := by
  have hmanifest : Manifest.parse (Manifest.identitySource "app" "1.0.0") = .ok sampleManifest := by
    decide +kernel
  have hdisk : Holds [] sampleDisk (sampleManifest.resolvedLockfile sampleLocks) := by
    rw [Holds, Disk.textAt_eq_some]
    simp [sampleDisk, look_dir_cons, Node.entry]
  refine pinning_exact _ sampleManifest hmanifest sampleLocks (fun id digest h => ?_) _ _ hdisk
  rw [sampleLocks, Std.ExtTreeMap.getElem?_insert] at h
  split at h
  next heq =>
    cases h
    cases Std.LawfulEqOrd.eq_of_compare heq
    exact ⟨by decide, by decide, by decide⟩
  · rw [Std.ExtTreeMap.getElem?_empty] at h
    cases h

end LockFile

end Nivren
