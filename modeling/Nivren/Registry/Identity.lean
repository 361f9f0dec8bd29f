import Nivren.Library.Program
import Nivren.Registry.Manifest

/-! Package identities.

`validate_identity` writes a name and a version into a small manifest and parses it. A quotation mark
in one of them ends its value early, so that the rest is read as a comment or as lines of its own.
Without quotation marks the check accepts exactly the valid names and versions.
-/

namespace Nivren

open Text List

namespace Manifest

def identitySource (name version : String) : String :=
  "[package]\nname = \"" ++ name ++ "\"\nversion = \"" ++ version ++ "\"\nentry = \"main.niv\"\n"

/-- `validate_identity`. -/
def validateIdentity (name version : String) : Except NivError Unit :=
  discard (parse (identitySource name version))

def lineStart (key : List Char) : List Char := key ++ [' ', '=', ' ', quoteMark]

def fieldLine (key value : List Char) : List Char := lineStart key ++ (value ++ [quoteMark])

/-- A key as it is written in a manifest. -/
structure KeyText (key : List Char) : Prop where
  head : ∃ c rest, key = c :: rest ∧ isWhiteSpace c = false ∧ c ≠ '['
  uncommented : '#' ∉ key
  undivided : '=' ∉ key
  trimmed : trim (key ++ [' ']) = key

def allows (title key : String) : Prop :=
  sections.contains title = true ∧
    (title = "package" && !(["name", "version", "entry", "edition"].contains key)) = false

theorem keyText_name : KeyText "name".toList :=
  ⟨⟨'n', "ame".toList, by decide⟩, by decide, by decide, by decide⟩

theorem keyText_version : KeyText "version".toList :=
  ⟨⟨'v', "ersion".toList, by decide⟩, by decide, by decide, by decide⟩

def counted (u : List Char) : List Char := (u.takeWhile (· != '#')).rdropWhile isWhiteSpace

variable {key : List Char} {s : Reading}

theorem trim_lineStart (hkey : KeyText key) (u : List Char) :
    trim ((lineStart key ++ u).takeWhile (· != '#')) =
      key ++ ' ' :: '=' :: ' ' :: quoteMark :: counted u := by
  have hp : ∀ c ∈ [' ', '=', ' ', quoteMark], (c != '#') = true := all_eq_true.mp (by decide)
  have hcl : ∀ c ∈ lineStart key, (c != '#') = true := by
    intro c hc
    rcases mem_append.mp hc with hc | hc
    · exact bne_iff_ne.mpr fun heq => hkey.uncommented (heq ▸ hc)
    · exact hp c hc
  have hq : isWhiteSpace quoteMark = false := by decide
  obtain ⟨c, rest, rfl, hc, -⟩ := hkey.head
  rw [takeWhile_append_of_pos hcl, lineStart, append_assoc, cons_append, trim_cons hc]
  have hf : rest ++ ([' ', '=', ' ', quoteMark] ++ u.takeWhile (· != '#')) =
      (rest ++ [' ', '=', ' ']) ++ quoteMark :: u.takeWhile (· != '#') := by simp
  rw [hf, rdropWhile_append_cons hq, counted]
  simp

theorem readLine_lineStart (hs : allows s.section_ (String.ofList key)) (hkey : KeyText key)
    (u : List Char) (line : ℕ) :
    readLine s (lineStart key ++ u) line =
      match quoted (quoteMark :: counted u) with
      | none => .error (projectError ("'" ++ String.ofList key ++ "' must be a quoted string") line)
      | some value => sectionValue s (String.ofList key) value line := by
  have hd : splitOnce '=' (key ++ ' ' :: '=' :: ' ' :: quoteMark :: counted u) =
      some (key ++ [' '], ' ' :: quoteMark :: counted u) := by
    have hf : key ++ ' ' :: '=' :: ' ' :: quoteMark :: counted u =
        (key ++ [' ']) ++ '=' :: ' ' :: quoteMark :: counted u := by simp
    rw [hf]
    refine splitOnce_append_cons ?_
    simpa using hkey.undivided
  have hv : trim (' ' :: quoteMark :: counted u) = quoteMark :: counted u := by
    have hsp : trim (' ' :: quoteMark :: counted u) = trim (quoteMark :: counted u) := rfl
    rw [hsp, trim_cons (by decide), counted, rdropWhile_idempotent]
  have hke : keyLine s (key ++ ' ' :: '=' :: ' ' :: quoteMark :: counted u) line =
      match quoted (quoteMark :: counted u) with
      | none => .error (projectError ("'" ++ String.ofList key ++ "' must be a quoted string") line)
      | some value => sectionValue s (String.ofList key) value line := by
    simp only [keyLine, hs.1, hs.2, hd, hkey.trimmed, hv]
    rfl
  obtain ⟨c, rest, rfl, -, hc⟩ := hkey.head
  rw [readLine, trim_lineStart hkey, if_neg (by simp), if_neg (by simp [hc]), hke]

variable {u : List Char}

theorem quoted_eq_none (h : quoteMark ∉ u) : quoted (quoteMark :: u) = none := by
  have hsu : u.dropSuffix? [quoteMark] = none := by
    by_contra hso
    obtain ⟨front, hf⟩ := Option.ne_none_iff_exists'.mp hso
    obtain ⟨last, rfl, hl⟩ := List.dropSuffix?_eq_some_iff.mp hf
    rw [eq_of_beq hl] at h
    simp at h
  have hp : (quoteMark :: u).dropPrefix? [quoteMark] = some u :=
    List.dropPrefix?_eq_some_iff.mpr ⟨[quoteMark], rfl, by decide⟩
  rw [quoted, hp, Option.bind_some, hsu]

theorem quoted_eq_some {value : List Char} (h : quoteMark ∉ value) :
    quoted (quoteMark :: (value ++ [quoteMark])) = some (String.ofList value) := by
  have hsu : (value ++ [quoteMark]).dropSuffix? [quoteMark] = some value :=
    List.dropSuffix?_eq_some_iff.mpr ⟨[quoteMark], rfl, by decide⟩
  have hp : (quoteMark :: (value ++ [quoteMark])).dropPrefix? [quoteMark] =
      some (value ++ [quoteMark]) :=
    List.dropPrefix?_eq_some_iff.mpr ⟨[quoteMark], rfl, by decide⟩
  rw [quoted, hp, Option.bind_some, hsu]
  exact if_neg h

theorem lineStart_getLast? (key : List Char) : (lineStart key).getLast? = some quoteMark := by
  simp [lineStart]

theorem newline_notMem_lineStart (hkey : '\n' ∉ key) : '\n' ∉ lineStart key := by
  have hp : '\n' ∉ [' ', '=', ' ', quoteMark] := by decide
  exact fun h => (mem_append.mp h).elim hkey hp

variable {value rest : List Char} {line : ℕ}

theorem lines_closed (hend : '\n' ∉ key) (hn : '\n' ∉ value) :
    lines (lineStart key ++ (value ++ quoteMark :: '\n' :: rest)) =
      (lineStart key ++ (value ++ [quoteMark])) :: lines rest := by
  have hm : '\n' ∉ [quoteMark] := by decide
  have hl : '\n' ∉ lineStart key ++ (value ++ [quoteMark]) := by
    simp only [mem_append, not_or]
    exact ⟨newline_notMem_lineStart hend, hn, hm⟩
  have hte : lineStart key ++ (value ++ quoteMark :: '\n' :: rest) =
      (lineStart key ++ (value ++ [quoteMark])) ++ '\n' :: rest := by simp
  have hr : stripReturn (lineStart key ++ (value ++ [quoteMark])) =
      lineStart key ++ (value ++ [quoteMark]) := by
    apply stripReturn_eq_self
    simp [quoteMark]
  rw [hte, lines_append_cons hl, hr]

theorem readLine_fieldLine (hs : allows s.section_ (String.ofList key)) (hkey : KeyText key)
    (hq : quoteMark ∉ value) (hco : '#' ∉ value) :
    readLine s (fieldLine key value) line =
      sectionValue s (String.ofList key) (String.ofList value) line := by
  have hall : ∀ c ∈ value ++ [quoteMark], (c != '#') = true := by
    intro c hc
    rcases mem_append.mp hc with hc | hc
    · exact bne_iff_ne.mpr fun heq => hco (heq ▸ hc)
    · rw [mem_singleton.mp hc]
      decide
  have hcn : counted (value ++ [quoteMark]) = value ++ [quoteMark] := by
    rw [counted, takeWhile_eq_self_iff.mpr hall]
    exact @rdropWhile_append_cons _ value [] quoteMark (by decide)
  rw [fieldLine, readLine_lineStart hs hkey, hcn, quoted_eq_some hq]

theorem readLines_plain (hs : allows s.section_ (String.ofList key)) (hkey : KeyText key)
    (hend : '\n' ∉ key) (hq : quoteMark ∉ value) (hn : '\n' ∉ value) (hc : '#' ∉ value) :
    readLines (lines (lineStart key ++ (value ++ quoteMark :: '\n' :: rest))) line s = (do
      readLines (lines rest) (line + 1)
        (← sectionValue s (String.ofList key) (String.ofList value) line)) := by
  rw [lines_closed hend hn, readLines]
  exact congrArg (· >>= readLines (lines rest) (line + 1)) (readLine_fieldLine hs hkey hq hc)

theorem readLines_unclosed (hs : allows s.section_ (String.ofList key)) (hkey : KeyText key)
    (hq : quoteMark ∉ counted u) (more : List (List Char)) :
    ∃ e, readLines ((lineStart key ++ u) :: more) line s = .error e := by
  rw [readLines, readLine_lineStart hs hkey, quoted_eq_none hq]
  exact ⟨_, rfl⟩

theorem mem_of_mem_counted {c : Char} (h : c ∈ counted u) : c ∈ u :=
  (List.takeWhile_prefix _).subset (mem_of_mem_rdropWhile h)

theorem readLines_broken (hs : allows s.section_ (String.ofList key)) (hkey : KeyText key)
    (hend : '\n' ∉ key) (hq : quoteMark ∉ value) (hb : '\n' ∈ value ∨ '#' ∈ value) :
    ∃ e, readLines (lines (lineStart key ++ (value ++ quoteMark :: '\n' :: rest))) line s =
      .error e := by
  by_cases hn : '\n' ∈ value
  · obtain ⟨first, others, rfl, hf⟩ := eq_append_cons_of_mem hn
    have hte : lineStart key ++ (first ++ '\n' :: others ++ quoteMark :: '\n' :: rest) =
        (lineStart key ++ first) ++ '\n' :: (others ++ quoteMark :: '\n' :: rest) := by simp
    have hl : '\n' ∉ lineStart key ++ first := by
      simp only [mem_append, not_or]
      exact ⟨newline_notMem_lineStart hend, hf⟩
    have hcl : quoteMark ∉ first := fun h => hq (mem_append_left _ h)
    rw [hte, lines_append_cons hl]
    by_cases hem : first = []
    · have hr : stripReturn (lineStart key ++ first) = lineStart key ++ first := by
        apply stripReturn_eq_self
        rw [hem, append_nil, lineStart_getLast?]
        decide
      rw [hr]
      exact readLines_unclosed hs hkey (fun h => hcl (mem_of_mem_counted h)) _
    · rw [stripReturn_append hem]
      exact readLines_unclosed hs hkey
        (fun h => hcl ((stripReturn_isPrefix first).subset (mem_of_mem_counted h))) _
  · have hco : '#' ∈ value := hb.resolve_left hn
    have hcut : quoteMark ∉ counted (value ++ [quoteMark]) := by
      obtain ⟨first, others, rfl, hf⟩ := eq_append_cons_of_mem hco
      have hpos : ∀ c ∈ first, (c != '#') = true :=
        fun c hc => bne_iff_ne.mpr fun heq => hf (heq ▸ hc)
      intro h
      have hmem := mem_of_mem_rdropWhile h
      rw [append_assoc, takeWhile_append_of_pos hpos] at hmem
      simp at hmem
      exact hq (mem_append_left _ hmem)
    rw [lines_closed hend hn]
    exact readLines_unclosed hs hkey hcut _

theorem toList_identitySource (name version : String) : (identitySource name version).toList =
      "[package]".toList ++ '\n' :: (lineStart "name".toList ++ (name.toList ++ quoteMark :: '\n' ::
        (lineStart "version".toList ++ (version.toList ++ quoteMark :: '\n' ::
          "entry = \"main.niv\"\n".toList)))) := by
  have hf : "[package]\nname = \"".toList =
      "[package]".toList ++ '\n' :: lineStart "name".toList := by decide +kernel
  have hse : "\"\nversion = \"".toList =
      quoteMark :: '\n' :: lineStart "version".toList := by decide +kernel
  have hth : "\"\nentry = \"main.niv\"\n".toList =
      quoteMark :: '\n' :: "entry = \"main.niv\"\n".toList := by decide +kernel
  change (_ ++ _ ++ _ ++ _ ++ _ : String).toList = _
  simp only [String.toList_append]
  rw [hf, hse, hth]
  simp only [append_assoc, cons_append]

/-- The state behind the line `[package]`. -/
def Reading.inPackage (values : TextMap String) : Reading :=
  { Reading.start with section_ := "package", values := values }

variable {values : TextMap String}

theorem sectionValue_inPackage {key value : String} {line : ℕ} (h : values[key]? = none) :
    sectionValue (.inPackage values) key value line = .ok (.inPackage (values.insert key value)) := by
  have hnew : values.contains key = false := by
    rw [← Std.ExtTreeMap.isSome_getElem?_eq_contains, h]
    rfl
  change packageValue _ key value line = _
  rw [packageValue]
  exact if_neg (by simp [Reading.inPackage, hnew])

theorem readLines_entry {line : ℕ} (h : values["entry"]? = none) :
    readLines (lines "entry = \"main.niv\"\n".toList) line (.inPackage values) =
      .ok (.inPackage (values.insert "entry" "main.niv")) := by
  have hl : lines "entry = \"main.niv\"\n".toList = ["entry = \"main.niv\"".toList] := by decide
  have hli : readLine (.inPackage values) "entry = \"main.niv\"".toList line =
      sectionValue (.inPackage values) "entry" "main.niv" line := rfl
  rw [hl, readLines, hli, sectionValue_inPackage h]
  rfl

theorem parse_identitySource (name version : String) : parse (identitySource name version) = (do
      finish (← readLines (lines (lineStart "name".toList ++ (name.toList ++ quoteMark :: '\n' ::
        (lineStart "version".toList ++ (version.toList ++ quoteMark :: '\n' ::
          "entry = \"main.niv\"\n".toList))))) 2 (.inPackage ∅))) := by
  have hl : readLine .start "[package]".toList 1 = .ok (.inPackage ∅) := rfl
  have hr : stripReturn "[package]".toList = "[package]".toList := by decide
  rw [parse, toList_identitySource, lines_append_cons (by decide), hr, readLines, hl]
  rfl

def Contained (value : String) : Prop := '\n' ∉ value.toList ∧ '#' ∉ value.toList

def identityValues (name version : String) : TextMap String :=
  (((∅ : TextMap String).insert "name" name).insert "version" version).insert "entry" "main.niv"

variable {version name : String}

theorem parse_contained (hn : quoteMark ∉ name.toList)
    (hv : quoteMark ∉ version.toList) (hc : Contained name ∧ Contained version) :
    parse (identitySource name version) = finish (.inPackage (identityValues name version)) := by
  have hf : ((∅ : TextMap String).insert "name" name)["version"]? = none := by
    rw [Std.ExtTreeMap.getElem?_insert, if_neg (by decide)]
    exact Std.ExtTreeMap.getElem?_empty
  have hl : (((∅ : TextMap String).insert "name" name).insert "version" version)["entry"]? =
      none := by
    rw [Std.ExtTreeMap.getElem?_insert, if_neg (by decide), Std.ExtTreeMap.getElem?_insert,
      if_neg (by decide)]
    exact Std.ExtTreeMap.getElem?_empty
  rw [parse_identitySource, readLines_plain ⟨rfl, rfl⟩ keyText_name (by decide) hn hc.1.1 hc.1.2]
  simp only [String.ofList_toList, sectionValue_inPackage Std.ExtTreeMap.getElem?_empty]
  change (readLines _ 3 (.inPackage _)).bind finish = _
  rw [readLines_plain ⟨rfl, rfl⟩ keyText_version (by decide) hv hc.2.1 hc.2.2]
  simp only [String.ofList_toList, sectionValue_inPackage hf]
  change (readLines _ 4 (.inPackage _)).bind finish = _
  rw [readLines_entry hl]
  rfl

theorem parse_uncontained (hn : quoteMark ∉ name.toList)
    (hv : quoteMark ∉ version.toList) (h : ¬ (Contained name ∧ Contained version)) :
    ∃ e, parse (identitySource name version) = .error e := by
  rw [parse_identitySource]
  by_cases hf : Contained name
  · have hse : '\n' ∈ version.toList ∨ '#' ∈ version.toList := by
      by_contra hnot
      exact h ⟨hf, not_or.mp hnot⟩
    rw [readLines_plain ⟨rfl, rfl⟩ keyText_name (by decide) hn hf.1 hf.2]
    simp only [String.ofList_toList, sectionValue_inPackage Std.ExtTreeMap.getElem?_empty]
    change ∃ e, (readLines _ 3 (.inPackage _)).bind finish = _
    obtain ⟨e, he⟩ := readLines_broken (s := .inPackage _) ⟨rfl, rfl⟩ keyText_version (by decide) hv hse
    rw [he]
    exact ⟨e, rfl⟩
  · have hb : '\n' ∈ name.toList ∨ '#' ∈ name.toList := by
      by_contra hnot
      exact hf (not_or.mp hnot)
    obtain ⟨e, he⟩ := readLines_broken (s := .inPackage ∅) ⟨rfl, rfl⟩ keyText_name (by decide) hn hb
    rw [he]
    exact ⟨e, rfl⟩

theorem validName_mem (h : validName name = true) {c : Char} (hc : c ∈ name.toList) :
    (c.isLower || c.isDigit || c == '-' || c == '_') = true := by
  have hall : (name.toList.all fun c => c.isLower || c.isDigit || c == '-' || c == '_') = true :=
    (Bool.and_eq_true_iff.mp h).2
  exact all_eq_true.mp hall c hc

theorem validVersion_mem (h : validVersion version = true) {c : Char}
    (hc : c ∈ version.toList) : (c.isDigit || c == '.') = true := by
  have hp : ∀ part ∈ version.toList.splitOn '.', ∀ c ∈ part, c.isDigit = true := by
    intro part hpa c hc
    have hall := all_eq_true.mp (Bool.and_eq_true_iff.mp h).2 part hpa
    simp only [validVersionPart, Bool.and_eq_true] at hall
    exact all_eq_true.mp hall.1.2 c hc
  by_cases hdot : c = '.'
  · simp [hdot]
  · obtain ⟨part, hpa, hmem⟩ := exists_mem_splitOn hc hdot
    simp [hp part hpa c hmem]

theorem contained_of_validName (h : validName name = true) : Contained name :=
  ⟨fun hc => absurd (validName_mem h hc) (by decide), fun hc => absurd (validName_mem h hc) (by decide)⟩

theorem contained_of_validVersion (h : validVersion version = true) : Contained version :=
  ⟨fun hc => absurd (validVersion_mem h hc) (by decide),
    fun hc => absurd (validVersion_mem h hc) (by decide)⟩

theorem finish_identityValues (name version : String) :
    (∃ manifest, finish (.inPackage (identityValues name version)) = .ok manifest) ↔
      validName name = true ∧ validVersion version = true := by
  have hn : (identityValues name version)["name"]? = some name := by
    rfl
  have hv : (identityValues name version)["version"]? = some version := by
    rfl
  have hen : (identityValues name version)["entry"]? = some "main.niv" := by
    rfl
  have hed : (identityValues name version)["edition"]? = none := by
    simp only [identityValues, Std.ExtTreeMap.getElem?_insert]
    rfl
  have hes : escapingEntry "main.niv" = false := by decide
  have hse : (∅ : TextMap String).contains name = false := by simp
  have hu : (∅ : TextSet).isEmpty = true := by simp
  simp only [finish, Reading.inPackage, Reading.start, required, readEdition, hn, hv,
    hen, hed, hes, hse, hu, bind, Except.bind]
  cases validName name <;> cases validVersion version <;>
    simp [pure, Except.pure, throw, throwThe, MonadExceptOf.throw]

theorem validateIdentity_eq_ok (hn : quoteMark ∉ name.toList) (hve : quoteMark ∉ version.toList) :
    validateIdentity name version = .ok () ↔ validName name = true ∧ validVersion version = true := by
  have hp : validateIdentity name version = .ok () ↔
      ∃ manifest, parse (identitySource name version) = .ok manifest := by
    unfold validateIdentity
    cases parse (identitySource name version) with
    | error e => exact ⟨nofun, nofun⟩
    | ok manifest => exact ⟨fun _ => ⟨manifest, rfl⟩, fun _ => rfl⟩
  rw [hp]
  by_cases hc : Contained name ∧ Contained version
  · rw [parse_contained hn hve hc]
    exact finish_identityValues name version
  · obtain ⟨e, he⟩ := parse_uncontained hn hve hc
    rw [he]
    constructor
    · rintro ⟨manifest, ⟨⟩⟩
    · rintro ⟨hva, hv⟩
      exact absurd ⟨contained_of_validName hva, contained_of_validVersion hv⟩ hc

theorem parse_valid {source : String} {manifest : Manifest} (h : parse source = .ok manifest) :
    validName manifest.name = true ∧ validVersion manifest.version = true := by
  obtain ⟨s, -, h⟩ := bind_eq_ok_iff.mp h
  obtain ⟨name, -, h⟩ := bind_eq_ok_iff.mp h
  obtain ⟨hn, h⟩ := unless_eq_ok_iff.mp h
  obtain ⟨-, h⟩ := unless_eq_ok_iff.mp h
  obtain ⟨-, h⟩ := unless_eq_ok_iff.mp h
  obtain ⟨version, -, h⟩ := bind_eq_ok_iff.mp h
  obtain ⟨hv, h⟩ := unless_eq_ok_iff.mp h
  obtain ⟨edition, -, h⟩ := bind_eq_ok_iff.mp h
  obtain ⟨entry, -, h⟩ := bind_eq_ok_iff.mp h
  obtain ⟨-, ⟨⟩⟩ := unless_eq_ok_iff.mp h
  exact ⟨by simpa using hn, by simpa using hv⟩

end Manifest

end Nivren
