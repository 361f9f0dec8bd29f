import Nivren.Registry.LockFile

/-! The authority lock `niv.authority.lock`.

The lock lists what every package is granted, section by section. A change is shown as the lines that
are in one of two locks only. Since a line does not tell the section it stands in, a change is seen when
it brings a line that was nowhere before.
-/

namespace Nivren

open Text List

def authorityLockfileName : String := "niv.authority.lock"

abbrev Packages := PackageMap (String × Manifest)

namespace Authority

/-- `lock_string`. -/
def lockString (value : String) : String := String.ofList (quote value.toList)

def renderGrant (id : PackageId) (grant : String × String) : String :=
  "\n[[grant]]\n" ++ ("package = " ++ lockString id.name ++ "\nversion = " ++ lockString id.version ++
    "\ncapability = " ++ lockString grant.1 ++ "\nscope = " ++ lockString grant.2 ++ "\n")

def renderUnsafe (id : PackageId) (module : String) : String :=
  "\n[[unsafe]]\n" ++ ("package = " ++ lockString id.name ++ "\nversion = " ++ lockString id.version ++
    "\nmodule = " ++ lockString module ++ "\n")

def renderPackage (id : PackageId) (source : String) (package : Manifest) : String :=
  let head := "\n[[package]]\n" ++ ("name = " ++ lockString id.name ++ "\nversion = " ++
    lockString id.version ++ "\nsource = " ++ lockString source ++ "\n")
  let grants := (package.grants.map (renderGrant id)).foldl (· ++ ·) head
  (package.unsafeModules.toList.map (renderUnsafe id)).foldl (· ++ ·) grants

/-- `render_authority_lock`. -/
def renderAuthorityLock (packages : Packages) : String :=
  (packages.toList.map fun entry => renderPackage entry.1 entry.2.1 entry.2.2).foldl (· ++ ·)
    "# This file is generated by Nivren. Review authority changes.\nformat = 1\n"

def missingLines (first second : List (List Char)) : List (List Char) :=
  first.filter fun line => !second.contains line

/-- `authority_diff`. -/
def authorityDiff (actual expected : String) : String :=
  let old := lines actual.toList
  let new := lines expected.toList
  let output := (missingLines old new).flatMap (fun line => "  - ".toList ++ line ++ ['\n']) ++
    (missingLines new old).flatMap fun line => "  + ".toList ++ line ++ ['\n']
  if output = [] then "  (formatting-only difference)\n" else String.ofList output

def keyLine (key value : String) : List Char := key.toList ++ " = ".toList ++ quote value.toList

def grantLines (id : PackageId) (grant : String × String) : List (List Char) :=
  [[], "[[grant]]".toList, keyLine "package" id.name, keyLine "version" id.version,
    keyLine "capability" grant.1, keyLine "scope" grant.2]

def unsafeLines (id : PackageId) (module : String) : List (List Char) :=
  [[], "[[unsafe]]".toList, keyLine "package" id.name, keyLine "version" id.version,
    keyLine "module" module]

def packageLines (id : PackageId) (source : String) (package : Manifest) : List (List Char) :=
  [[], "[[package]]".toList, keyLine "name" id.name, keyLine "version" id.version,
    keyLine "source" source] ++ package.grants.flatMap (grantLines id) ++
    package.unsafeModules.toList.flatMap (unsafeLines id)

def lockLines (packages : Packages) : List (List Char) :=
  ["# This file is generated by Nivren. Review authority changes.".toList, "format = 1".toList] ++
    packages.toList.flatMap fun entry => packageLines entry.1 entry.2.1 entry.2.2

theorem unlines_append (a b : List (List Char)) : unlines (a ++ b) = unlines a ++ unlines b :=
  flatMap_append

theorem toList_literals : "package = ".toList = "package".toList ++ " = ".toList ∧
      "name = ".toList = "name".toList ++ " = ".toList ∧
      "\nversion = ".toList = '\n' :: ("version".toList ++ " = ".toList) ∧
      "\nsource = ".toList = '\n' :: ("source".toList ++ " = ".toList) ∧
      "\ncapability = ".toList = '\n' :: ("capability".toList ++ " = ".toList) ∧
      "\nscope = ".toList = '\n' :: ("scope".toList ++ " = ".toList) ∧
      "\nmodule = ".toList = '\n' :: ("module".toList ++ " = ".toList) ∧ "\n".toList = ['\n'] := by
  decide +kernel

theorem toList_headings : "\n[[grant]]\n".toList = '\n' :: ("[[grant]]".toList ++ ['\n']) ∧
      "\n[[unsafe]]\n".toList = '\n' :: ("[[unsafe]]".toList ++ ['\n']) ∧
      "\n[[package]]\n".toList = '\n' :: ("[[package]]".toList ++ ['\n']) ∧
      "# This file is generated by Nivren. Review authority changes.\nformat = 1\n".toList =
        unlines ["# This file is generated by Nivren. Review authority changes.".toList,
          "format = 1".toList] := by
  decide +kernel

theorem toList_renderGrant (id : PackageId) (grant : String × String) :
    (renderGrant id grant).toList = unlines (grantLines id grant) := by
  obtain ⟨hp, -, hv, -, hc, hsc, -, hend⟩ := toList_literals
  change (_ ++ (_ ++ _ ++ _ ++ _ ++ _ ++ _ ++ _ ++ _ ++ _) : String).toList = _
  simp only [String.toList_append, lockString, String.toList_ofList]
  rw [toList_headings.1, hp, hv, hc, hsc, hend]
  simp [unlines, grantLines, keyLine]

theorem toList_renderUnsafe (id : PackageId) (module : String) :
    (renderUnsafe id module).toList = unlines (unsafeLines id module) := by
  obtain ⟨hp, -, hv, -, -, -, hm, hend⟩ := toList_literals
  change (_ ++ (_ ++ _ ++ _ ++ _ ++ _ ++ _ ++ _) : String).toList = _
  simp only [String.toList_append, lockString, String.toList_ofList]
  rw [toList_headings.2.1, hp, hv, hm, hend]
  simp [unlines, unsafeLines, keyLine]

theorem unlines_flatMap {α : Type} (f : α → List (List Char)) (items : List α) :
    unlines (items.flatMap f) = items.flatMap fun item => unlines (f item) := by
  simp [unlines, flatMap_assoc]

theorem toList_renderPackage (id : PackageId) (source : String) (package : Manifest) :
    (renderPackage id source package).toList = unlines (packageLines id source package) := by
  obtain ⟨-, hn, hv, hso, -, -, -, hend⟩ := toList_literals
  have hf : ("\n[[package]]\n" ++ ("name = " ++ lockString id.name ++ "\nversion = " ++
      lockString id.version ++ "\nsource = " ++ lockString source ++ "\n")).toList =
      unlines [[], "[[package]]".toList, keyLine "name" id.name, keyLine "version" id.version,
        keyLine "source" source] := by
    simp only [String.toList_append, lockString, String.toList_ofList]
    rw [toList_headings.2.2.1, hn, hv, hso, hend]
    simp [unlines, keyLine]
  simp only [renderPackage]
  rw [LockFile.toList_foldl_append, LockFile.toList_foldl_append, hf, packageLines,
    unlines_append, unlines_append, unlines_flatMap, unlines_flatMap, flatMap_map,
    flatMap_map]
  simp only [toList_renderGrant, toList_renderUnsafe]

theorem toList_renderAuthorityLock (packages : Packages) :
    (renderAuthorityLock packages).toList = unlines (lockLines packages) := by
  rw [renderAuthorityLock, LockFile.toList_foldl_append, toList_headings.2.2.2, lockLines,
    unlines_append, unlines_flatMap, flatMap_map]
  simp only [toList_renderPackage]

variable {line : List Char} {key : String}

theorem whole_keyLine (value : String) (hkey : '\n' ∉ key.toList) :
    Whole (keyLine key value) := by
  have hq : '\n' ∉ quote value.toList := notMem_quote _ (by decide)
  have hne : quote value.toList ≠ [] := by simp [quote]
  constructor
  · rw [keyLine, mem_append, mem_append, not_or, not_or]
    exact ⟨⟨hkey, by decide⟩, hq⟩
  · rw [keyLine, List.getLast?_append_of_ne_nil _ hne, quote, ← cons_append, List.getLast?_concat]
    decide

variable {packages : Packages}

theorem whole_lockLines : ∀ line ∈ lockLines packages, Whole line := by
  intro line h
  simp only [lockLines, packageLines, grantLines, unsafeLines, mem_append, mem_flatMap,
    mem_cons, not_mem_nil, or_false] at h
  rcases h with (rfl | rfl) | ⟨entry, -, ((rfl | rfl | rfl | rfl | rfl) |
    ⟨grant, -, rfl | rfl | rfl | rfl | rfl | rfl⟩) | ⟨module, -, rfl | rfl | rfl | rfl | rfl⟩⟩
  all_goals first | exact whole_keyLine _ (by decide) | decide

theorem lines_renderAuthorityLock (packages : Packages) :
    lines (renderAuthorityLock packages).toList = lockLines packages := by
  rw [toList_renderAuthorityLock]
  exact lines_unlines whole_lockLines

/-- The grants and unsafe modules of a package; a package that is not there has none. -/
def authority (packages : Packages) (id : PackageId) : List (String × String) × List String :=
  match packages[id]? with
  | some (_, package) => (package.grants, package.unsafeModules.toList)
  | none => ([], [])

def Granted (packages : Packages) (name : String) : Prop :=
  ∃ version, authority packages ⟨name, version⟩ ≠ ([], [])

def Changed (old new : Packages) (id : PackageId) : Prop := authority old id ≠ authority new id

variable {value : String}

theorem keyLine_inj {value' : String} : keyLine key value = keyLine key value' ↔ value = value' := by
  refine ⟨fun h => ?_, congrArg _⟩
  unfold keyLine at h
  exact String.toList_injective (flatMap_escapeChar_inj
    (append_cancel_right (cons.inj (append_cancel_left h)).2))

theorem takeWhile_keyLine (hk : ' ' ∉ key.toList) :
    (keyLine key value).takeWhile (· ≠ ' ') = key.toList := by
  have hsp : takeWhile (· ≠ ' ') (" = ".toList ++ quote value.toList) = [] := rfl
  rw [keyLine, append_assoc, takeWhile_append_of_pos, hsp, append_nil]
  intro c hc
  exact decide_eq_true fun h => hk (h ▸ hc)

variable {name : String}

theorem keyLine_ne (hk : ' ' ∉ key.toList) (h : line.takeWhile (· ≠ ' ') ≠ key.toList) :
    keyLine key value ≠ line := by
  rintro rfl
  exact h (takeWhile_keyLine hk)

theorem keyLine_ne_keyLine {other : String} (hk : ' ' ∉ key.toList) (ho : ' ' ∉ other.toList)
    (h : other.toList ≠ key.toList) : keyLine key value ≠ keyLine other name :=
  keyLine_ne hk (by rwa [takeWhile_keyLine ho])

variable {source : String} {id : PackageId} {package : Manifest}

theorem packageLine_mem_packageLines : keyLine "package" name ∈ packageLines id source package ↔
      id.name = name ∧ (package.grants, package.unsafeModules.toList) ≠ ([], []) := by
  have hg : ∀ grant, keyLine "package" name ∈ grantLines id grant ↔ name = id.name := by
    simp (disch := decide) [grantLines, keyLine_ne, keyLine_ne_keyLine, keyLine_inj]
  have hm : ∀ module, keyLine "package" name ∈ unsafeLines id module ↔ name = id.name := by
    simp (disch := decide) [unsafeLines, keyLine_ne, keyLine_ne_keyLine, keyLine_inj]
  have hf : keyLine "package" name ∉ [[], "[[package]]".toList, keyLine "name" id.name,
      keyLine "version" id.version, keyLine "source" source] := by
    simp (disch := decide) [keyLine_ne, keyLine_ne_keyLine]
  have hso : (package.grants, package.unsafeModules.toList) ≠ ([], []) ↔
      (∃ grant, grant ∈ package.grants) ∨ ∃ module, module ∈ package.unsafeModules.toList := by
    simp only [ne_eq, Prod.mk.injEq, not_and_or, eq_nil_iff_forall_not_mem, not_forall, not_not]
  rw [packageLines, mem_append, mem_append, mem_flatMap, mem_flatMap, hso]
  simp only [hg, hm, hf, false_or, exists_and_right]
  rw [← or_and_right, and_comm, eq_comm]

theorem keyLine_mem_lockLines (hk : ' ' ∉ key.toList)
    (h : key.toList ≠ ['#'] ∧ key.toList ≠ "format".toList) :
    keyLine key value ∈ lockLines packages ↔ ∃ (id : PackageId) (entry : String × Manifest),
      packages[id]? = some entry ∧ keyLine key value ∈ packageLines id entry.1 entry.2 := by
  have hh : keyLine key value ∉ ["# This file is generated by Nivren. Review authority changes.".toList,
      "format = 1".toList] := by
    simp only [mem_cons, not_mem_nil, or_false, not_or]
    exact ⟨keyLine_ne hk h.1.symm, keyLine_ne hk h.2.symm⟩
  simp only [lockLines, mem_append, hh, false_or, mem_flatMap, Prod.exists,
    Std.ExtTreeMap.mem_toList_iff_getElem?_eq_some]

theorem packageLine_mem : keyLine "package" name ∈ lockLines packages ↔ Granted packages name := by
  rw [keyLine_mem_lockLines (by decide) (by decide)]
  simp only [packageLine_mem_packageLines]
  constructor
  · rintro ⟨id, entry, hf, rfl, hg⟩
    exact ⟨id.version, by rwa [authority, hf]⟩
  · rintro ⟨version, hg⟩
    cases hf : packages[(⟨name, version⟩ : PackageId)]? with
    | none => simp [authority, hf] at hg
    | some entry =>
      rw [authority, hf] at hg
      exact ⟨⟨name, version⟩, entry, hf, rfl, hg⟩

theorem sourceLine_mem_packageLines {other : String} :
    keyLine "source" source ∈ packageLines id other package ↔ other = source := by
  have hg : ∀ grant, keyLine "source" source ∉ grantLines id grant := by
    simp (disch := decide) [grantLines, keyLine_ne, keyLine_ne_keyLine]
  have hm : ∀ module, keyLine "source" source ∉ unsafeLines id module := by
    simp (disch := decide) [unsafeLines, keyLine_ne, keyLine_ne_keyLine]
  have hf : keyLine "source" source ∈ [[], "[[package]]".toList, keyLine "name" id.name,
      keyLine "version" id.version, keyLine "source" other] ↔ source = other := by
    simp (disch := decide) [keyLine_ne, keyLine_ne_keyLine, keyLine_inj]
  rw [packageLines, mem_append, mem_append, mem_flatMap, mem_flatMap, hf, eq_comm]
  simp only [hg, hm, and_false, exists_false, or_false]

theorem sourceLine_mem : keyLine "source" source ∈ lockLines packages ↔
      ∃ (id : PackageId) (package : Manifest), packages[id]? = some (source, package) := by
  rw [keyLine_mem_lockLines (by decide) (by decide)]
  simp only [sourceLine_mem_packageLines]
  constructor
  · rintro ⟨id, ⟨_, package⟩, hf, rfl⟩
    exact ⟨id, package, hf⟩
  · rintro ⟨id, package, hf⟩
    exact ⟨id, _, hf, rfl⟩

def formattingOnly : String := "  (formatting-only difference)\n"

def Lists (output : String) (line : List Char) : Prop :=
  "  - ".toList ++ line ∈ lines output.toList ∨ "  + ".toList ++ line ∈ lines output.toList

theorem not_lists_formattingOnly (line : List Char) : ¬ Lists formattingOnly line := by
  have hl : lines formattingOnly.toList = ["  (formatting-only difference)".toList] := by
    decide +kernel
  have hth : ∀ front : List Char, front.length = 4 → front[2]? ≠ some '(' →
      front ++ line ≠ "  (formatting-only difference)".toList := by
    intro front hln hf heq
    have hget := congrArg (fun text => text[2]?) heq
    simp only [List.getElem?_append_left (show 2 < front.length by omega)] at hget
    exact hf (hget.trans (by decide +kernel))
  rw [Lists, hl, mem_singleton, mem_singleton]
  rintro (h | h)
  · exact hth _ (by decide) (by decide) h
  · exact hth _ (by decide) (by decide) h

theorem whole_mark {mark : List Char} (hm : Whole mark) (hl : Whole line) :
    Whole (mark ++ line) := by
  constructor
  · rw [mem_append, not_or]
    exact ⟨hm.1, hl.1⟩
  · by_cases hem : line = []
    · rw [hem, append_nil]
      exact hm.2
    · rw [List.getLast?_append_of_ne_nil _ hem]
      exact hl.2

def diffLines (old new : Packages) : List (List Char) :=
  (missingLines (lockLines old) (lockLines new)).map ("  - ".toList ++ ·) ++
    (missingLines (lockLines new) (lockLines old)).map ("  + ".toList ++ ·)

theorem mem_missingLines {first second : List (List Char)} :
    line ∈ missingLines first second ↔ line ∈ first ∧ line ∉ second := by
  simp [missingLines]

theorem authorityDiff_eq (old new : Packages) :
    authorityDiff (renderAuthorityLock old) (renderAuthorityLock new) =
      if diffLines old new = [] then formattingOnly
      else String.ofList (unlines (diffLines old new)) := by
  have hou : (missingLines (lockLines old) (lockLines new)).flatMap
      (fun line => "  - ".toList ++ line ++ ['\n']) ++
      (missingLines (lockLines new) (lockLines old)).flatMap
        (fun line => "  + ".toList ++ line ++ ['\n']) = unlines (diffLines old new) := by
    simp [unlines, diffLines, flatMap_map]
  have hem : unlines (diffLines old new) = [] ↔ diffLines old new = [] := by
    cases diffLines old new <;> simp [unlines]
  simp only [authorityDiff, lines_renderAuthorityLock]
  rw [hou]
  simp only [hem]
  rfl

theorem lines_diffLines (old new : Packages) :
    lines (unlines (diffLines old new)) = diffLines old new := by
  refine lines_unlines fun line hl => ?_
  rw [diffLines, mem_append, mem_map, mem_map] at hl
  rcases hl with ⟨inner, hin, rfl⟩ | ⟨inner, hin, rfl⟩
  · exact whole_mark (by decide) (whole_lockLines inner (mem_missingLines.mp hin).1)
  · exact whole_mark (by decide) (whole_lockLines inner (mem_missingLines.mp hin).1)

theorem lists_iff {old new : Packages} :
    Lists (authorityDiff (renderAuthorityLock old) (renderAuthorityLock new)) line ↔
      (line ∈ lockLines old ∧ line ∉ lockLines new) ∨ (line ∈ lockLines new ∧ line ∉ lockLines old) := by
  have hm : ∀ a b : List Char, "  - ".toList ++ a ≠ "  + ".toList ++ b := by
    intro a b h
    exact absurd (append_inj_left h (by decide)) (by decide)
  have hr : "  - ".toList ++ line ∈ diffLines old new ↔
      line ∈ missingLines (lockLines old) (lockLines new) := by
    rw [diffLines, mem_append, mem_map_of_injective (append_right_injective _), or_iff_left]
    exact fun h => have ⟨_, _, h⟩ := mem_map.mp h; hm _ _ h.symm
  have ha : "  + ".toList ++ line ∈ diffLines old new ↔
      line ∈ missingLines (lockLines new) (lockLines old) := by
    rw [diffLines, mem_append, mem_map_of_injective (append_right_injective _), or_iff_right]
    exact fun h => have ⟨_, _, h⟩ := mem_map.mp h; hm _ _ h
  rw [← mem_missingLines, ← mem_missingLines, ← hr, ← ha, authorityDiff_eq]
  by_cases hem : diffLines old new = []
  · rw [if_pos hem, hem]
    simp [not_lists_formattingOnly]
  · rw [if_neg hem, Lists, String.toList_ofList, lines_diffLines]

/-- What the difference of two locks should show: that something changed, and for which packages. -/
structure Shown (old new : Packages) : Prop where
  listed : ∃ line, Lists (authorityDiff (renderAuthorityLock old) (renderAuthorityLock new)) line
  substantial : authorityDiff (renderAuthorityLock old) (renderAuthorityLock new) ≠ formattingOnly
  named : ∀ name,
    Lists (authorityDiff (renderAuthorityLock old) (renderAuthorityLock new)) (keyLine "package" name) ↔
      ∃ version, Changed old new ⟨name, version⟩

theorem authority_of_not_granted (h : ¬ Granted packages id.name) : authority packages id = ([], []) :=
  by_contra fun hso => h ⟨id.version, hso⟩

theorem granted_of_changed {old new : Packages} (h : Changed old new id) :
    Granted old id.name ∨ Granted new id.name := by
  by_contra hn
  rw [not_or] at hn
  exact h ((authority_of_not_granted hn.1).trans (authority_of_not_granted hn.2).symm)

theorem changed_of_granted {first second : Packages} (hf : Granted first name)
    (hse : ¬ Granted second name) :
    ∃ version, authority first ⟨name, version⟩ ≠ authority second ⟨name, version⟩ := by
  obtain ⟨version, hg⟩ := hf
  exact ⟨version, by rwa [@authority_of_not_granted second ⟨name, version⟩ hse]⟩

def samplePackage (name capability : String) : Manifest :=
  ⟨name, "1.0.0", "main.niv", ∅, (∅ : TextSet).insert capability, ∅, ∅, none, none, none, 4⟩

def samplePackages (first second : String) : Packages :=
  ((∅ : Packages).insert ⟨"left", "1.0.0"⟩ ("dependency", samplePackage "left" first)).insert
    ⟨"right", "1.0.0"⟩ ("dependency", samplePackage "right" second)

end Authority

end Nivren
