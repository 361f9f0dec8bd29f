import Nivren.Library.Maps
import Nivren.Registry.Identity

/-! Printed manifests.

`source` prints a manifest section by section, without sections that are empty. Every manifest that was
read keeps to the rules of its sections, and so does one with another dependency; what is printed of
such a manifest is read back as the same one.
-/

namespace Nivren

open Text List

namespace Manifest

def keyValue (key value : String) : String := key ++ " = \"" ++ value ++ "\"\n"

def printEntries : List (String × String) → String
  | [] => ""
  | entry :: rest => keyValue entry.1 entry.2 ++ printEntries rest

def printSection (title : String) (entries : List (String × String)) : String :=
  if entries.isEmpty then "" else "\n[" ++ title ++ "]\n" ++ printEntries entries

def packageEntries (m : Manifest) : List (String × String) :=
  [("name", m.name), ("version", m.version), ("entry", m.entry)] ++
    if 5 ≤ m.edition then [("edition", toString m.edition)] else []

def allowedModules (m : Manifest) : List (String × String) :=
  m.unsafeModules.toList.map fun module => (module, "allow")

def limitEntry (key : String) (limit : Option ℕ) : List (String × String) :=
  limit.toList.map fun value => (key, toString value)

def limits (m : Manifest) : List (String × String) :=
  limitEntry "instructions" m.instructionLimit ++ limitEntry "memory_bytes" m.memoryLimit ++
    limitEntry "payload_bytes" m.payloadLimit

/-- `Manifest::source`. -/
def source (m : Manifest) : String :=
  "[package]\n" ++ printEntries m.packageEntries ++
    printSection "dependencies" m.dependencies.toList ++ printSection "capabilities" m.grants ++
    printSection "unsafe" m.allowedModules ++ printSection "limits" m.limits

/-- `Manifest::add_dependency`. -/
def addDependency (m : Manifest) (name version : String) : Except NivError Manifest :=
  if !validDependencyName name then
    .error (projectError "dependency names must be valid Nivren identifiers" 1)
  else if name = m.name then .error (projectError "a package cannot depend on itself" 1)
  else if !validVersion version then
    .error (projectError
      ("dependency '" ++ name ++ "' must use an exact major.minor.patch version") 1)
  else .ok { m with dependencies := m.dependencies.insert name version }

/-- A value that stands between quotation marks on a line of its own. -/
structure Plain (value : String) : Prop where
  unquoted : quoteMark ∉ value.toList
  contained : Contained value

/-- What the lines of the sections behind the first are checked for. -/
structure Ruled (s : Reading) : Prop where
  dependencies : ∀ {key value : String}, s.dependencies[key]? = some value →
    validDependencyName key = true ∧ validVersion value = true
  capabilities : ∀ {key : String}, key ∈ s.capabilities → knownCapability key = true
  scopes : ∀ {key value : String}, s.capabilityScopes[key]? = some value →
    key ∈ s.capabilities ∧ validGrant key value = true ∧ value ≠ "allow" ∧ Plain value
  modules : ∀ {key : String}, key ∈ s.unsafeModules → unsafeModuleNames.contains key = true
  instructions : ∀ n ∈ s.instructionLimit, 0 < n ∧ n < 2 ^ 64
  memory : ∀ n ∈ s.memoryLimit, 0 < n ∧ n < 2 ^ 64
  payload : ∀ n ∈ s.payloadLimit, 1024 ≤ n ∧ n ≤ 268435456

structure Kept (s : Reading) : Prop extends Ruled s where
  values : ∀ {key value : String}, s.values[key]? = some value → Plain value

variable {s t : Reading} {key value : String} {line : ℕ} {text : List Char}

theorem plain_of_quoted (h : quoted text = some value)
    (hte : ∀ c ∈ text, c ≠ '\n' ∧ c ≠ '#') : Plain value := by
  unfold quoted at h
  split at h
  next inner hin =>
    split at h
    · cases h
    next hq =>
      cases h
      obtain ⟨rest, hst, hend⟩ := Option.bind_eq_some_iff.mp hin
      obtain ⟨_, rfl, -⟩ := List.dropPrefix?_eq_some_iff.mp hst
      obtain ⟨_, rfl, -⟩ := List.dropSuffix?_eq_some_iff.mp hend
      refine ⟨by simpa using hq, ?_, ?_⟩
      · exact fun hc => (hte '\n' (by simpa using .inr (.inl (by simpa using hc)))).1 rfl
      · exact fun hc => (hte '#' (by simpa using .inr (.inl (by simpa using hc)))).2 rfl
  · cases h

variable {c : Char}

theorem mem_of_mem_trim (h : c ∈ trim text) : c ∈ text :=
  (dropWhile_suffix _).subset (mem_of_mem_rdropWhile h)

theorem mem_of_splitOnce {separator : Char} {before after : List Char}
    (h : splitOnce separator text = some (before, after)) (hc : c ∈ after) : c ∈ text := by
  unfold splitOnce at h
  split at h
  · cases h
  next rest hd =>
    cases h
    refine (dropWhile_suffix (· != separator)).subset ?_
    rw [hd]
    exact mem_cons_of_mem _ hc

/-- A line leaves the values, or it gives one of them. -/
theorem readLine_cases {raw : List Char} (hraw : '\n' ∉ raw) (h : readLine s raw line = .ok t) :
    (∃ title, t = { s with section_ := title }) ∨
      ∃ key value, Plain value ∧ sectionValue s key value line = .ok t := by
  have hcl : ∀ c ∈ trim (raw.takeWhile (· != '#')), c ≠ '\n' ∧ c ≠ '#' := by
    intro c hc
    have hmem := mem_of_mem_trim hc
    refine ⟨fun heq => hraw (heq ▸ (List.takeWhile_prefix _).subset hmem), ?_⟩
    simpa using mem_takeWhile_imp hmem
  unfold readLine at h
  dsimp only at h
  split at h
  · cases h
    exact .inl ⟨s.section_, rfl⟩
  · split at h
    · unfold openSection at h
      split at h
      · exact .inl ⟨_, (Except.ok.inj h).symm⟩
      · cases h
    · unfold keyLine at h
      split at h
      · cases h
      · split at h
        · cases h
        next key rawValue hsp =>
          dsimp only at h
          split at h
          · cases h
          · split at h
            · cases h
            next value hv =>
              refine .inr ⟨_, value, plain_of_quoted hv fun c hc => hcl c ?_, h⟩
              exact mem_of_splitOnce hsp (mem_of_mem_trim hc)

theorem getElem?_insert_eq {α : Type} {m : TextMap α} {key other : String} {a b : α}
    (h : (m.insert key a)[other]? = some b) : other = key ∧ b = a ∨ m[other]? = some b := by
  rw [Std.ExtTreeMap.getElem?_insert] at h
  split at h
  next heq =>
    exact .inl ⟨(Std.LawfulEqOrd.eq_of_compare heq).symm, (Option.some.inj h).symm⟩
  · exact .inr h

theorem mem_insert_eq {m : TextSet} {key other : String} (h : other ∈ m.insert key) :
    other = key ∨ other ∈ m :=
  (Std.ExtTreeSet.mem_insert.mp h).imp (fun heq => (Std.LawfulEqOrd.eq_of_compare heq).symm) id

theorem guard_eq_ok {c : Prop} [Decidable c] {e : NivError} {r : Except NivError Reading} :
    (if c then .error e else r) = .ok t ↔ ¬ c ∧ r = .ok t := by
  split <;> simp [*]

theorem Kept.limitValue (hs : Kept s) (h : Manifest.limitValue s key value line = .ok t) : Kept t := by
  obtain ⟨hkn, h⟩ := guard_eq_ok.mp h
  split at h
  · cases h
  next parsed hpa =>
    obtain ⟨hr, hp⟩ := Option.filter_eq_some_iff.mp hpa
    have hb : 0 < parsed ∧ parsed < 2 ^ 64 :=
      ⟨by simpa using hp, by simpa using (Option.filter_eq_some_iff.mp hr).2⟩
    obtain ⟨hpy, h⟩ := guard_eq_ok.mp h
    obtain ⟨-, h⟩ := guard_eq_ok.mp h
    split at h
    · cases h
      exact { hs with instructions := fun n hn => Option.mem_some_iff.mp hn ▸ hb }
    · split at h
      · cases h
        exact { hs with memory := fun n hn => Option.mem_some_iff.mp hn ▸ hb }
      · cases h
        refine { hs with payload := fun n hn => ?_ }
        obtain rfl := Option.mem_some_iff.mp hn
        simp_all

theorem Kept.sectionValue (hs : Kept s) (hv : Plain value)
    (h : Manifest.sectionValue s key value line = .ok t) : Kept t := by
  unfold Manifest.sectionValue at h
  split at h
  · obtain ⟨-, h⟩ := guard_eq_ok.mp h
    cases h
    refine { hs with values := fun hget => ?_ }
    rcases getElem?_insert_eq hget with ⟨-, rfl⟩ | hget
    · exact hv
    · exact hs.values hget
  split at h
  · obtain ⟨hn, h⟩ := guard_eq_ok.mp h
    obtain ⟨hve, h⟩ := guard_eq_ok.mp h
    obtain ⟨-, h⟩ := guard_eq_ok.mp h
    cases h
    refine { hs with dependencies := fun hget => ?_ }
    rcases getElem?_insert_eq hget with ⟨rfl, rfl⟩ | hget
    · exact ⟨by simpa using hn, by simpa using hve⟩
    · exact hs.dependencies hget
  split at h
  · obtain ⟨hkn, h⟩ := guard_eq_ok.mp h
    obtain ⟨hg, h⟩ := guard_eq_ok.mp h
    obtain ⟨-, h⟩ := guard_eq_ok.mp h
    cases h
    have hold : ∀ {key' value' : String}, s.capabilityScopes[key']? = some value' →
        key' ∈ s.capabilities.insert key ∧ validGrant key' value' = true ∧ value' ≠ "allow" ∧
          Plain value' :=
      fun hget => (hs.scopes hget).imp_left fun hmem => Std.ExtTreeSet.mem_insert.mpr (.inr hmem)
    refine { hs with capabilities := fun hmem => ?_, scopes := fun hget => ?_ }
    · rcases mem_insert_eq hmem with rfl | hmem
      · simpa using hkn
      · exact hs.capabilities hmem
    · dsimp only at hget
      split at hget
      · exact hold hget
      next ha =>
        rcases getElem?_insert_eq hget with ⟨rfl, rfl⟩ | hget
        · exact ⟨Std.ExtTreeSet.mem_insert_self, by simpa using hg, ha, hv⟩
        · exact hold hget
  split at h
  · obtain ⟨hkn, h⟩ := guard_eq_ok.mp h
    obtain ⟨-, h⟩ := guard_eq_ok.mp h
    obtain ⟨-, h⟩ := guard_eq_ok.mp h
    cases h
    refine { hs with modules := fun hmem => ?_ }
    rcases mem_insert_eq hmem with rfl | hmem
    · simpa using hkn
    · exact hs.modules hmem
  · exact hs.limitValue h

variable {ls : List (List Char)}

theorem Kept.readLines (hs : Kept s) (hl : ∀ raw ∈ ls, '\n' ∉ raw)
    (h : Manifest.readLines ls line s = .ok t) : Kept t := by
  induction ls generalizing s line with
  | nil =>
    cases h
    exact hs
  | cons raw rest ih =>
    obtain ⟨hraw, hr⟩ := forall_mem_cons.mp hl
    obtain ⟨next, hli, h⟩ := bind_eq_ok_iff.mp h
    refine ih ?_ hr h
    rcases readLine_cases hraw hli with ⟨title, rfl⟩ | ⟨key, value, hv, hn⟩
    · exact { hs with }
    · exact hs.sectionValue hv hn

@[reducible] def reading (m : Manifest) : Reading :=
  ⟨"", Maps.insertAll m.packageEntries ∅, m.dependencies, m.capabilities, m.capabilityScopes,
    m.unsafeModules, m.instructionLimit, m.memoryLimit, m.payloadLimit⟩

structure Valid (m : Manifest) : Prop extends Ruled m.reading where
  name : validName m.name = true
  version : validVersion m.version = true
  entry : Plain m.entry
  inside : escapingEntry m.entry = false
  edition : m.edition = 4 ∨ m.edition = 5
  others : m.dependencies.contains m.name = false
  native : (!m.unsafeModules.isEmpty && !m.capabilities.contains "Native") = false

variable {m n : Manifest} {values : TextMap String}

theorem readEdition_eq_ok {edition : ℕ}
    (h : readEdition values = .ok edition) : edition = 4 ∨ edition = 5 := by
  unfold readEdition at h
  split at h
  · exact .inl (Except.ok.inj h).symm
  · split at h
    · exact .inl (Except.ok.inj h).symm
    · split at h
      · exact .inr (Except.ok.inj h).symm
      · cases h

theorem required_eq_ok (h : required values key = .ok value) : values[key]? = some value := by
  unfold required at h
  split at h
  next found hf =>
    cases h
    exact hf
  · cases h

theorem valid_of_parse {text : String} (h : parse text = .ok m) : m.Valid := by
  obtain ⟨s, hr, h⟩ := bind_eq_ok_iff.mp h
  have hke : Kept s := by
    refine Kept.readLines (s := .start) ⟨by constructor <;> simp [Reading.start],
      by simp [Reading.start]⟩ (fun raw hraw => ?_) hr
    rcases mem_append.mp hraw with hraw | hraw
    · obtain ⟨piece, hp, rfl⟩ := mem_map.mp hraw
      exact fun hmem => (mem_splitOn (dropLast_subset _ hp)).1
        ((stripReturn_isPrefix piece).subset hmem)
    · have hl := Option.mem_toList.mp (mem_filter.mp hraw).1
      exact (mem_splitOn (mem_of_getLast? hl)).1
  obtain ⟨name, -, h⟩ := bind_eq_ok_iff.mp h
  obtain ⟨hna, h⟩ := unless_eq_ok_iff.mp h
  obtain ⟨hot, h⟩ := unless_eq_ok_iff.mp h
  obtain ⟨hn, h⟩ := unless_eq_ok_iff.mp h
  obtain ⟨version, -, h⟩ := bind_eq_ok_iff.mp h
  obtain ⟨hv, h⟩ := unless_eq_ok_iff.mp h
  obtain ⟨edition, hed, h⟩ := bind_eq_ok_iff.mp h
  obtain ⟨entry, hen, h⟩ := bind_eq_ok_iff.mp h
  obtain ⟨hin, ⟨⟩⟩ := unless_eq_ok_iff.mp h
  exact { hke with
    name := by simpa using hna
    version := by simpa using hv
    entry := hke.values (required_eq_ok hen)
    inside := by simpa using hin
    edition := readEdition_eq_ok hed
    others := Bool.eq_false_iff.mpr hot
    native := by simpa using hn }

variable {version : String}

theorem Valid.addDependency (hm : m.Valid) (h : m.addDependency key version = .ok n) : n.Valid := by
  unfold Manifest.addDependency at h
  split at h
  · cases h
  next hn =>
    split at h
    · cases h
    next hoh =>
      split at h
      · cases h
      next hv =>
        cases h
        refine { hm with others := ?_, dependencies := fun hget => ?_ }
        · rcases getElem?_insert_eq hget with ⟨rfl, rfl⟩ | hget
          · exact ⟨by simpa using hn, by simpa using hv⟩
          · exact hm.dependencies hget
        · have hot : m.dependencies.contains m.name = false := hm.others
          simp [hot, hoh]

def entryLines (entries : List (String × String)) : List (List Char) :=
  entries.map fun entry => fieldLine entry.1.toList entry.2.toList

def sectionLines (title : String) (entries : List (String × String)) : List (List Char) :=
  if entries.isEmpty then [] else [] :: ('[' :: (title.toList ++ [']'])) :: entryLines entries

def sourceLines (m : Manifest) : List (List Char) :=
  "[package]".toList :: (entryLines m.packageEntries ++
    (sectionLines "dependencies" m.dependencies.toList ++ (sectionLines "capabilities" m.grants ++
      (sectionLines "unsafe" m.allowedModules ++ sectionLines "limits" m.limits))))

theorem toList_printEntries (entries : List (String × String)) :
    (printEntries entries).toList = unlines (entryLines entries) := by
  induction entries with
  | nil => rfl
  | cons entry rest ih =>
    have hm : " = \"".toList = [' ', '=', ' ', quoteMark] := by decide
    have hend : "\"\n".toList = [quoteMark, '\n'] := by decide
    rw [printEntries, String.toList_append, ih, keyValue]
    simp only [String.toList_append, hm, hend]
    simp [unlines, entryLines, fieldLine, lineStart]

theorem toList_printSection (title : String) (entries : List (String × String)) :
    (printSection title entries).toList = unlines (sectionLines title entries) := by
  unfold printSection sectionLines
  split
  · rfl
  · have hop : "\n[".toList = ['\n', '['] := by decide
    have hc : "]\n".toList = [']', '\n'] := by decide
    simp only [String.toList_append, toList_printEntries, hop, hc]
    simp [unlines]

theorem toList_source (m : Manifest) : m.source.toList = unlines m.sourceLines := by
  have hh : "[package]\n".toList = "[package]".toList ++ ['\n'] := by decide
  have hl : unlines m.sourceLines = "[package]".toList ++ ['\n'] ++
      unlines (entryLines m.packageEntries ++
        (sectionLines "dependencies" m.dependencies.toList ++ (sectionLines "capabilities" m.grants ++
          (sectionLines "unsafe" m.allowedModules ++ sectionLines "limits" m.limits)))) := rfl
  rw [hl, source]
  simp only [String.toList_append, toList_printEntries, toList_printSection, hh, unlines,
    flatMap_append, append_assoc]

structure Printable (title : String) (entry : String × String) : Prop where
  key : KeyText entry.1.toList
  line : '\n' ∉ entry.1.toList
  allowed : allows title entry.1
  value : Plain entry.2

theorem plain_allow : Plain "allow" := ⟨by decide, by decide, by decide⟩

theorem Valid.of_mem_grants (hm : m.Valid) {entry : String × String} (h : entry ∈ m.grants) :
    knownCapability entry.1 = true ∧ validGrant entry.1 entry.2 = true ∧ Plain entry.2 := by
  obtain ⟨capability, hmem, rfl⟩ := mem_map.mp h
  refine ⟨hm.capabilities (Std.ExtTreeSet.mem_toList.mp hmem), ?_⟩
  cases hsc : m.capabilityScopes[capability]? with
  | none => exact ⟨by simp [validGrant], plain_allow⟩
  | some scope => exact (hm.scopes hsc).2.imp_right And.right

def isWord (c : Char) : Bool := c.isAlphanum || c == '_'

theorem isWhiteSpace_of_isWord (h : isWord c = true) : isWhiteSpace c = false := by
  have hr : 48 ≤ c.toNat ∧ c.toNat < 123 := by
    simp [isWord, Char.isAlphanum, Char.isAlpha, Char.isUpper, Char.isLower, Char.isDigit,
      UInt32.le_iff_toNat_le] at h
    rcases h with ((h | h) | h) | rfl
    on_goal 4 => decide
    all_goals exact ⟨by simpa using le_trans (by decide) h.1,
      by simpa using lt_of_le_of_lt h.2 (by decide)⟩
  simp only [isWhiteSpace, Bool.or_eq_false_iff, Bool.and_eq_false_iff, decide_eq_false_iff_not,
    beq_eq_false_iff_ne]
  omega

/-- A key of letters, digits and underscores. -/
def Word (key : String) : Prop := key.toList ≠ [] ∧ key.toList.all isWord = true

variable {title : String}

instance (key : String) : Decidable (Word key) := inferInstanceAs (Decidable (_ ∧ _))

instance (key : String) : Decidable (allows title key) := inferInstanceAs (Decidable (_ ∧ _))

theorem printable_of_word {key value : String} (hw : Word key) (ha : allows title key)
    (hv : Plain value) : Printable title (key, value) := by
  have h := all_eq_true.mp hw.2
  obtain ⟨c, rest, hc⟩ := exists_cons_of_ne_nil hw.1
  have hf := h c (hc ▸ mem_cons_self)
  refine ⟨⟨⟨c, rest, hc, isWhiteSpace_of_isWord hf, ?_⟩, ?_, ?_, ?_⟩, ?_, ha, hv⟩
  · rintro rfl
    exact absurd hf (by decide)
  · exact fun hc => absurd (h _ hc) (by decide)
  · exact fun hc => absurd (h _ hc) (by decide)
  · exact trim_concat (fun c hc => isWhiteSpace_of_isWord (h c hc)) (by decide)
  · exact fun hc => absurd (h _ hc) (by decide)

theorem plain_of_validName {name : String} (h : validName name = true) : Plain name :=
  ⟨fun hc => absurd (validName_mem h hc) (by decide), contained_of_validName h⟩

theorem plain_of_validVersion (h : validVersion version = true) : Plain version :=
  ⟨fun hc => absurd (validVersion_mem h hc) (by decide), contained_of_validVersion h⟩

theorem plain_toString (n : ℕ) : Plain (toString n) :=
  ⟨fun hc => absurd (isDigit_of_mem_toString hc) (by decide),
    fun hc => absurd (isDigit_of_mem_toString hc) (by decide),
    fun hc => absurd (isDigit_of_mem_toString hc) (by decide)⟩

theorem printable_package (hm : m.Valid) : ∀ entry ∈ m.packageEntries, Printable "package" entry := by
  have hk : ∀ key ∈ ["name", "version", "entry", "edition"], Word key ∧ allows "package" key := by
    decide +kernel
  intro entry h
  rcases mem_append.mp h with h | h
  · simp only [mem_cons, not_mem_nil, or_false] at h
    rcases h with rfl | rfl | rfl
    · exact (hk _ (by decide)).elim printable_of_word (plain_of_validName hm.name)
    · exact (hk _ (by decide)).elim printable_of_word (plain_of_validVersion hm.version)
    · exact (hk _ (by decide)).elim printable_of_word hm.entry
  · split at h
    · rw [mem_singleton.mp h]
      exact (hk _ (by decide)).elim printable_of_word (plain_toString _)
    · cases h

theorem printable_dependencies (hm : m.Valid) :
    ∀ entry ∈ m.dependencies.toList, Printable "dependencies" entry := by
  rintro ⟨key, value⟩ hen
  obtain ⟨hn, hv⟩ := hm.dependencies (Std.ExtTreeMap.mem_toList_iff_getElem?_eq_some.mp hen)
  refine printable_of_word ?_ ⟨by decide, rfl⟩ (plain_of_validVersion hv)
  unfold validDependencyName at hn
  cases hkey : key.toList with
  | nil => simp [hkey] at hn
  | cons first rest =>
    simp only [hkey, Bool.and_eq_true, all_eq_true] at hn
    simp only [Word, hkey, all_cons, Bool.and_eq_true, all_eq_true]
    refine ⟨cons_ne_nil _ _, ?_, hn.2⟩
    rw [isWord, Char.isAlphanum, Bool.or_right_comm, hn.1, Bool.true_or]

theorem printable_capabilities (hm : m.Valid) :
    ∀ entry ∈ m.grants, Printable "capabilities" entry := by
  have hn : ∀ name ∈ ["FileRead", "FileWrite", "Environment", "Time", "Process", "Network", "Task",
      "Channel", "Log", "Random", "Native"], Word name := by
    decide +kernel
  intro entry hen
  obtain ⟨hkn, -, hv⟩ := hm.of_mem_grants hen
  exact printable_of_word (hn entry.1 (contains_iff_mem.mp hkn)) ⟨by decide, rfl⟩ hv

theorem printable_modules (hm : m.Valid) : ∀ entry ∈ m.allowedModules, Printable "unsafe" entry := by
  have hn : ∀ name ∈ unsafeModuleNames, Word name := by decide +kernel
  intro entry hen
  obtain ⟨module, hmem, rfl⟩ := mem_map.mp hen
  have hkn := hm.modules (Std.ExtTreeSet.mem_toList.mp hmem)
  exact printable_of_word (hn module (contains_iff_mem.mp hkn)) ⟨by decide, rfl⟩ plain_allow

theorem printable_limit {limit : Option ℕ} (hw : Word key) :
    ∀ entry ∈ limitEntry key limit, Printable "limits" entry := by
  intro entry hen
  obtain ⟨n, -, rfl⟩ := mem_map.mp hen
  exact printable_of_word hw ⟨by decide, rfl⟩ (plain_toString n)

def Takes (s : Reading) (ls : List (List Char)) (t : Reading) : Prop :=
  ∀ rest line, ∃ next, readLines (ls ++ rest) line s = readLines rest next t

theorem Takes.refl : Takes s [] s := fun _ line => ⟨line, rfl⟩

variable {more : List (List Char)}

theorem Takes.append {u : Reading} (h : Takes s ls t)
    (hm : Takes t more u) : Takes s (ls ++ more) u := by
  intro rest line
  obtain ⟨next, hn⟩ := h (more ++ rest) line
  obtain ⟨last, hl⟩ := hm rest next
  exact ⟨last, by rw [append_assoc, hn, hl]⟩

theorem Takes.cons {u : Reading} {raw : List Char} {ls : List (List Char)}
    (h : ∀ line, readLine s raw line = .ok t) (hr : Takes t ls u) : Takes s (raw :: ls) u := by
  intro rest line
  obtain ⟨next, hn⟩ := hr rest (line + 1)
  refine ⟨next, ?_⟩
  rw [cons_append, readLines, h]
  exact hn

theorem Takes.entry {u : Reading} {entry : String × String} {rest : List (String × String)}
    (hs : s.section_ = title) (hp : Printable title entry)
    (h : ∀ line, sectionValue s entry.1 entry.2 line = .ok t) (hr : Takes t (entryLines rest) u) :
    Takes s (entryLines (entry :: rest)) u := by
  have ha : allows s.section_ (String.ofList entry.1.toList) := by
    rw [hs, String.ofList_toList]
    exact hp.allowed
  refine .cons (fun line => ?_) hr
  rw [readLine_fieldLine ha hp.key hp.value.unquoted hp.value.contained.2]
  simp only [String.ofList_toList]
  exact h line

/-- The entries of a section are taken one by one, when no key stands there twice. -/
theorem takes_entries {title : String} {put : Reading → String × String → Reading}
    {ready : Reading → String × String → Prop}
    (hst : ∀ {s entry line}, s.section_ = title → ready s entry →
      sectionValue s entry.1 entry.2 line = .ok (put s entry) ∧ (put s entry).section_ = title)
    (hr : ∀ {s entry other}, ready s entry → entry.1 ≠ other.1 → ready (put s other) entry)
    {entries : List (String × String)} (hd : (entries.map Prod.fst).Nodup)
    (hp : ∀ entry ∈ entries, Printable title entry) (hs : s.section_ = title)
    (hen : ∀ entry ∈ entries, ready s entry) :
    Takes s (entryLines entries) (entries.foldl put s) := by
  induction entries generalizing s with
  | nil => exact .refl
  | cons entry rest ih =>
    rw [map_cons, nodup_cons] at hd
    obtain ⟨hf, hre⟩ := forall_mem_cons.mp hp
    obtain ⟨hnow, hl⟩ := forall_mem_cons.mp hen
    refine .entry hs hf (fun _ => (hst hs hnow).1) (ih hd.2 hre (@hst _ _ 0 hs hnow).2 ?_)
    intro other hot
    refine hr (hl other hot) fun heq => hd.1 ?_
    exact mem_map.mpr ⟨other, hot, heq⟩

/-- The lines of a section and what they add, in whichever section they are read. -/
def Gives (s : Reading) (ls : List (List Char)) (t : Reading) : Prop :=
  (∀ raw ∈ ls, Whole raw) ∧
    ∀ title, ∃ last, Takes { s with section_ := title } ls { t with section_ := last }

theorem Gives.append {u : Reading} (h : Gives s ls t)
    (hm : Gives t more u) : Gives s (ls ++ more) u := by
  refine ⟨forall_mem_append.mpr ⟨h.1, hm.1⟩, fun title => ?_⟩
  obtain ⟨next, hn⟩ := h.2 title
  obtain ⟨last, hl⟩ := hm.2 next
  exact ⟨last, hn.append hl⟩

variable {entries : List (String × String)}

theorem whole_entries
    (h : ∀ entry ∈ entries, Printable title entry) : ∀ raw ∈ entryLines entries, Whole raw := by
  intro raw hraw
  obtain ⟨entry, hen, rfl⟩ := mem_map.mp hraw
  have hm : '\n' ∉ [quoteMark] := by decide
  constructor
  · simp only [fieldLine, mem_append, not_or]
    exact ⟨newline_notMem_lineStart (h entry hen).line, (h entry hen).value.contained.1, hm⟩
  · simp [fieldLine, quoteMark]

theorem gives_section
    (hop : ∀ (s : Reading) line, readLine s ('[' :: (title.toList ++ [']'])) line =
      .ok { s with section_ := title })
    (hti : '\n' ∉ title.toList) (hp : ∀ entry ∈ entries, Printable title entry)
    (h : Takes { s with section_ := title } (entryLines entries) { t with section_ := title })
    (hem : entries = [] → t = s) : Gives s (sectionLines title entries) t := by
  unfold sectionLines
  split
  next hn =>
    rw [hem (isEmpty_iff.mp hn)]
    exact ⟨nofun, fun before => ⟨before, .refl⟩⟩
  · refine ⟨?_, fun _ => ⟨title, .cons (fun line => rfl) (.cons (hop _) h)⟩⟩
    simp only [forall_mem_cons]
    refine ⟨⟨by decide, by decide⟩, ⟨by simpa using hti, ?_⟩, whole_entries hp⟩
    rw [← cons_append, List.getLast?_concat]
    decide

theorem takes_package (hp : ∀ entry ∈ m.packageEntries, Printable "package" entry) :
    Takes (.inPackage ∅) (entryLines m.packageEntries)
      (.inPackage (Maps.insertAll m.packageEntries ∅)) := by
  have hf : m.packageEntries.foldl
      (fun s entry => { s with values := s.values.insert entry.1 entry.2 }) (Reading.inPackage ∅) =
      Reading.inPackage (Maps.insertAll m.packageEntries ∅) :=
    foldl_hom Reading.inPackage fun _ _ => rfl
  rw [← hf]
  refine @takes_entries _ "package" _ (fun s entry => s.values.contains entry.1 = false)
    (fun hs hr => ?_) (fun hr hne => ?_) _ ?_ hp rfl ?_
  · rw [sectionValue, if_pos hs, packageValue, if_neg (by simp [hr])]
    exact ⟨rfl, hs⟩
  · rw [Std.ExtTreeMap.contains_insert, hr]
    simpa using hne.symm
  · unfold packageEntries
    split
    · exact (by decide : ["name", "version", "entry", "edition"].Nodup)
    · exact (by decide : ["name", "version", "entry"].Nodup)
  · exact fun entry _ => by simp [Reading.inPackage]

theorem gives_entries {title : String} {put : Reading → String × String → Reading}
    {ready : Reading → String × String → Prop}
    (hop : ∀ (s : Reading) line, readLine s ('[' :: (title.toList ++ [']'])) line =
      .ok { s with section_ := title }) (hti : '\n' ∉ title.toList)
    (hput : ∀ s entry, put { s with section_ := title } entry =
      { put s entry with section_ := title })
    (hst : ∀ {s entry line}, s.section_ = title → ready s entry →
      sectionValue s entry.1 entry.2 line = .ok (put s entry))
    (hre : ∀ {s entry other}, ready s entry → entry.1 ≠ other.1 → ready (put s other) entry)
    {entries : List (String × String)} (hd : (entries.map Prod.fst).Nodup)
    (hp : ∀ entry ∈ entries, Printable title entry)
    (hen : ∀ entry ∈ entries, ready { s with section_ := title } entry) :
    Gives s (sectionLines title entries) (entries.foldl put s) := by
  refine gives_section hop hti hp ?_ fun hn => by rw [hn, foldl_nil]
  have hf : entries.foldl put { s with section_ := title } =
      { entries.foldl put s with section_ := title } :=
    foldl_hom (fun s : Reading => { s with section_ := title }) hput
  rw [← hf]
  refine takes_entries (fun {s entry line} hs hr => ⟨hst hs hr, ?_⟩) hre hd hp rfl hen
  have hsa : s = { s with section_ := title } := by rw [← hs]
  rw [hsa, hput]

theorem gives_dependencies (hm : m.Valid) (hs : s.dependencies = ∅) :
    Gives s (sectionLines "dependencies" m.dependencies.toList)
      { s with dependencies := m.dependencies } := by
  have hta : m.dependencies.toList.foldl
      (fun s entry => { s with dependencies := s.dependencies.insert entry.1 entry.2 }) s =
      { s with dependencies := Maps.insertAll m.dependencies.toList s.dependencies } :=
    foldl_hom (fun found => { s with dependencies := found }) fun _ _ => rfl
  rw [hs, Maps.insertAll_toList] at hta
  rw [← hta]
  refine @gives_entries _ _ _ (fun s entry => (validDependencyName entry.1 = true ∧
    validVersion entry.2 = true) ∧ s.dependencies.contains entry.1 = false) (fun _ _ => rfl)
    (by decide) (fun _ _ => rfl) (fun hs hr => ?_) (fun hr hne => ⟨hr.1, ?_⟩) _ (Maps.nodup_keys _)
    (printable_dependencies hm) fun entry hen => ⟨hm.dependencies ?_, by simp [hs]⟩
  · simp [sectionValue, hs, dependencyValue, hr.1.1, hr.1.2, hr.2]
  · rw [Std.ExtTreeMap.contains_insert, hr.2]
    simpa using hne.symm
  · exact Std.ExtTreeMap.mem_toList_iff_getElem?_eq_some.mp hen

theorem Valid.grants_scopes (hm : m.Valid) :
    Maps.insertAll (m.grants.filter (·.2 ≠ "allow")) ∅ = m.capabilityScopes := by
  refine Std.ExtTreeMap.ext_getElem? fun key => ?_
  have hd : (m.grants.filter (·.2 ≠ "allow")).Pairwise fun a b => ¬ compare a.1 b.1 = .eq :=
    (pairwise_map.mpr m.capabilities.distinct_toList).filter _
  obtain ⟨hin, hout⟩ := Maps.getElem?_insertAll ∅ hd key
  cases hkey : m.capabilityScopes[key]? with
  | some value =>
    obtain ⟨hmem, -, hne, -⟩ := hm.scopes hkey
    refine hin value (mem_filter.mpr ⟨mem_map.mpr ⟨key, ?_, ?_⟩, by simpa using hne⟩)
    · exact Std.ExtTreeSet.mem_toList.mpr hmem
    · simp [hkey]
  | none =>
    refine (hout fun value hv => ?_).trans Std.ExtTreeMap.getElem?_empty
    obtain ⟨hmem, hne⟩ := mem_filter.mp hv
    obtain ⟨capability, -, heq⟩ := mem_map.mp hmem
    cases heq
    simp [hkey] at hne

theorem gives_capabilities (hm : m.Valid)
    (hc : s.capabilities = ∅) (hsc : s.capabilityScopes = ∅) :
    Gives s (sectionLines "capabilities" m.grants)
      { s with capabilities := m.capabilities, capabilityScopes := m.capabilityScopes } := by
  have hf : ∀ (entries : List (String × String)) (s : Reading),
      entries.foldl (fun s entry => { s with
        capabilities := s.capabilities.insert entry.1
        capabilityScopes := if entry.2 = "allow" then s.capabilityScopes
          else s.capabilityScopes.insert entry.1 entry.2 }) s =
        { s with
          capabilities := (entries.map Prod.fst).foldl (·.insert ·) s.capabilities
          capabilityScopes := Maps.insertAll (entries.filter (·.2 ≠ "allow")) s.capabilityScopes } := by
    intro entries
    induction entries with
    | nil => exact fun _ => rfl
    | cons entry rest ih =>
      intro s
      rw [foldl_cons, ih]
      by_cases ha : entry.2 = "allow"
      · simp [ha]
      · simp [ha, Maps.insertAll]
  have hke : m.grants.map Prod.fst = m.capabilities.toList := by
    simp [grants, map_map, Function.comp_def]
  have hta := hf m.grants s
  rw [hc, hsc, hke, Maps.foldl_insert_toList, hm.grants_scopes] at hta
  rw [← hta]
  refine @gives_entries _ _ _ (fun s entry => (knownCapability entry.1 = true ∧
    validGrant entry.1 entry.2 = true) ∧ s.capabilities.contains entry.1 = false) (fun _ _ => rfl)
    (by decide) (fun _ _ => rfl) (fun hs hr => ?_) (fun hr hne => ⟨hr.1, ?_⟩) _ ?_
    (printable_capabilities hm) fun entry hen => ⟨?_, by simp [hc]⟩
  · simp [sectionValue, hs, capabilityValue, hr.1.1, hr.1.2, hr.2]
  · rw [Std.ExtTreeSet.contains_insert, hr.2]
    simpa using hne.symm
  · rw [hke]
    exact Maps.nodup_toList _
  · exact (hm.of_mem_grants hen).imp_right And.left

theorem gives_modules (hm : m.Valid) (hs : s.unsafeModules = ∅) :
    Gives s (sectionLines "unsafe" m.allowedModules) { s with unsafeModules := m.unsafeModules } := by
  have hke : m.allowedModules.map Prod.fst = m.unsafeModules.toList := by
    simp [allowedModules, map_map, Function.comp_def]
  have hta : m.allowedModules.foldl
      (fun s entry => { s with unsafeModules := s.unsafeModules.insert entry.1 }) s =
      { s with unsafeModules := m.allowedModules.foldl (·.insert ·.1) s.unsafeModules } :=
    foldl_hom (fun found => { s with unsafeModules := found }) fun _ _ => rfl
  have hse : m.allowedModules.foldl (·.insert ·.1) (∅ : TextSet) = m.unsafeModules := by
    rw [allowedModules, foldl_map]
    exact Maps.foldl_insert_toList _
  rw [hs, hse] at hta
  rw [← hta]
  refine @gives_entries _ _ _ (fun s entry => (unsafeModuleNames.contains entry.1 = true ∧
    entry.2 = "allow") ∧ s.unsafeModules.contains entry.1 = false) (fun _ _ => rfl)
    (by decide) (fun _ _ => rfl) (fun hs hr => ?_) (fun hr hne => ⟨hr.1, ?_⟩) _ ?_
    (printable_modules hm) fun entry hen => ⟨?_, by simp [hs]⟩
  · have hkn : _ ∈ unsafeModuleNames := contains_iff_mem.mp hr.1.1
    simp [sectionValue, hs, unsafeValue, hkn, hr.1.2, hr.2]
  · rw [Std.ExtTreeSet.contains_insert, hr.2]
    simpa using hne.symm
  · rw [hke]
    exact Maps.nodup_toList _
  · obtain ⟨module, hmem, rfl⟩ := mem_map.mp hen
    exact ⟨hm.modules (Std.ExtTreeSet.mem_toList.mp hmem), rfl⟩

theorem takes_limit {set : Reading → Option ℕ → Reading} {limit : Option ℕ}
    (hs : s.section_ = "limits") (hn : set s none = s) (hw : Word key)
    (hst : ∀ n ∈ limit, ∀ line, limitValue s key (toString n) line = .ok (set s (some n))) :
    Takes s (entryLines (limitEntry key limit)) (set s limit) := by
  cases limit with
  | none =>
    rw [hn]
    exact .refl
  | some n =>
    have hp : ∀ entry ∈ limitEntry key (some n), Printable "limits" entry := printable_limit hw
    refine .entry hs (hp _ mem_cons_self) (fun line => ?_) .refl
    simp only [sectionValue, hs]
    exact hst n rfl line

theorem parsed_toString {n : ℕ} (h : 0 < n ∧ n < 2 ^ 64) :
    (parseU64 (toString n).toList).filter (0 < ·) = some n := by
  have hp : parseU64 (toString n).toList = some n := by
    rw [parseU64, decimal_toString]
    exact Option.filter_some_pos (by simpa using h.2)
  rw [hp]
  exact Option.filter_some_pos (by simpa using h.1)

theorem gives_limits (hm : m.Valid)
    (hin : s.instructionLimit = none) (hme : s.memoryLimit = none)
    (hpa : s.payloadLimit = none) :
    Gives s (sectionLines "limits" m.limits) { s with
      instructionLimit := m.instructionLimit
      memoryLimit := m.memoryLimit
      payloadLimit := m.payloadLimit } := by
  have hw : Word "instructions" ∧ Word "memory_bytes" ∧ Word "payload_bytes" := by decide +kernel
  let opened : Reading := { s with section_ := "limits" }
  have hone := @takes_limit opened "instructions" (fun s limit => { s with instructionLimit := limit })
    m.instructionLimit rfl (by simp [opened, hin]) hw.1 fun n hn line => by
      simp only [limitValue, parsed_toString (hm.instructions n hn)]
      simp [opened, hin]
  have htwo := @takes_limit { opened with instructionLimit := m.instructionLimit } "memory_bytes"
    (fun s limit => { s with memoryLimit := limit }) m.memoryLimit rfl (by simp [opened, hme])
    hw.2.1 fun n hn line => by
      simp only [limitValue, parsed_toString (hm.memory n hn)]
      simp [opened, hme]
  have htr := @takes_limit
    { opened with instructionLimit := m.instructionLimit, memoryLimit := m.memoryLimit }
    "payload_bytes" (fun s limit => { s with payloadLimit := limit }) m.payloadLimit rfl
    (by simp [opened, hpa]) hw.2.2 fun n hn line => by
      have hr := hm.payload n hn
      have hpr := @parsed_toString n ⟨by omega, by omega⟩
      simp only [limitValue, hpr]
      simp [opened, hpa, hr.1, hr.2]
  refine gives_section (fun _ _ => rfl) (by decide) ?_ ?_ fun hno => ?_
  · simp only [limits, forall_mem_append]
    exact ⟨⟨printable_limit hw.1, printable_limit hw.2.1⟩, printable_limit hw.2.2⟩
  · have hl : entryLines m.limits = entryLines (limitEntry "instructions" m.instructionLimit) ++
        entryLines (limitEntry "memory_bytes" m.memoryLimit) ++
        entryLines (limitEntry "payload_bytes" m.payloadLimit) := by
      rw [limits, entryLines, map_append, map_append]
      rfl
    rw [hl]
    exact (hone.append htwo).append htr
  · have hem : ∀ {key : String} {limit : Option ℕ}, limitEntry key limit = [] → limit = none := by
      intro key limit h
      cases limit with
      | none => rfl
      | some n => cases h
    obtain ⟨hfr, hla⟩ := append_eq_nil_iff.mp hno
    obtain ⟨hst, hmi⟩ := append_eq_nil_iff.mp hfr
    rw [hem hst, hem hmi, hem hla]
    cases s
    simp_all only

theorem finish_reading (hm : m.Valid) (title : String) :
    finish { m.reading with section_ := title } = .ok m := by
  have hget : ∀ {key value : String}, (key, value) ∈ m.packageEntries →
      (Maps.insertAll m.packageEntries ∅ : TextMap String)[key]? = some value := by
    refine fun {key value} => (Maps.getElem?_insertAll ∅ ?_ key).1 value
    rw [packageEntries]
    split <;> simp
  have hed : readEdition (Maps.insertAll m.packageEntries ∅) = .ok m.edition := by
    unfold readEdition
    rcases hm.edition with h | h
    · have hno : (Maps.insertAll m.packageEntries ∅ : TextMap String)["edition"]? = none := by
        simp [packageEntries, h, Maps.insertAll]
      rw [hno, h]
    · have hf : ("edition", "5") ∈ m.packageEntries := by
        rw [packageEntries, h]
        exact mem_append_right _ (by decide)
      rw [hget hf, h]
      rfl
  have hn := hget (by simp [packageEntries] : ("name", m.name) ∈ m.packageEntries)
  have hv := hget (by simp [packageEntries] : ("version", m.version) ∈ m.packageEntries)
  have hen := hget (by simp [packageEntries] : ("entry", m.entry) ∈ m.packageEntries)
  simp only [finish, required, hn, hv, hen, hed, hm.name, hm.version, hm.inside,
    hm.others, hm.native, bind, Except.bind]
  rfl

theorem parse_source (hm : m.Valid) : parse m.source = .ok m := by
  obtain ⟨hse, hg⟩ := (gives_dependencies (s := .inPackage (Maps.insertAll m.packageEntries ∅)) hm
    rfl).append ((gives_capabilities hm rfl rfl).append ((gives_modules hm rfl).append
      (gives_limits hm rfl rfl rfl)))
  have hw : ∀ raw ∈ m.sourceLines, Whole raw := by
    simp only [sourceLines, forall_mem_cons, forall_mem_append] at hse ⊢
    exact ⟨by decide, whole_entries (printable_package hm), hse⟩
  obtain ⟨last, hl⟩ := hg "package"
  have hop : ∀ line, readLine .start "[package]".toList line = .ok (.inPackage ∅) := fun _ => rfl
  have hta := Takes.cons hop ((takes_package (printable_package hm)).append hl)
  obtain ⟨next, hn⟩ := hta [] 1
  rw [parse, toList_source, lines_unlines hw]
  rw [append_nil] at hn
  exact (congrArg (· >>= finish) hn).trans (finish_reading hm last)

/-- The manifests that are read from a text, and those with dependencies added to them. -/
inductive Obtained : Manifest → Prop
  | parsed {text : String} {m : Manifest} : parse text = .ok m → Obtained m
  | added {m n : Manifest} {name version : String} :
    Obtained m → m.addDependency name version = .ok n → Obtained n

/-- Every such manifest is read back from what is printed of it. -/
theorem source_roundtrip {m : Manifest} (h : Obtained m) : parse m.source = .ok m := by
  apply parse_source
  induction h with
  | parsed h => exact valid_of_parse h
  | added _ h ih => exact ih.addDependency h

def sampleText : String :=
  "[package]\nname = \"app\"\nversion = \"1.0.0\"\nentry = \"main.niv\"\nedition = \"5\"\n" ++
    "[capabilities]\nTime = \"allow\"\nNative = \"path:./native\"\n[unsafe]\nffi = \"allow\"\n" ++
    "[limits]\ninstructions = \"100\"\npayload_bytes = \"4096\"\n"

def sampleParsed : Manifest :=
  ⟨"app", "1.0.0", "main.niv", ∅, ((∅ : TextSet).insert "Time").insert "Native",
    (∅ : TextMap String).insert "Native" "path:./native", (∅ : TextSet).insert "ffi", some 100, none,
    some 4096, 5⟩

def sampleExtended : Manifest :=
  { sampleParsed with dependencies := (∅ : TextMap String).insert "shapes" "1.2.0" }

theorem sample_source_roundtrip :
    sampleParsed.addDependency "shapes" "1.2.0" = .ok sampleExtended ∧
      parse sampleExtended.source = .ok sampleExtended := by
  have hparse : parse sampleText = .ok sampleParsed := by decide +kernel
  have hadd : sampleParsed.addDependency "shapes" "1.2.0" = .ok sampleExtended := by decide +kernel
  exact ⟨hadd, source_roundtrip (.added (.parsed hparse) hadd)⟩

end Manifest

end Nivren
