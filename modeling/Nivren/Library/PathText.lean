import Nivren.Library.FileTree
import Nivren.Library.Text

/-! Paths written as texts.

A text names a place in a tree once a working directory is given: its parts are taken one after the
other, `..` goes up, empty parts and `.` do nothing. Texts are put together as a standard library does
it, an absolute text replacing what stands before it.
-/

namespace FileTree

open List

def segments (text : String) : List String :=
  ((text.toList.splitOn '/').map String.ofList).filter fun part => part != "" && part != "."

def isAbsolute (text : String) : Bool := text.toList.head? == some '/'

def step (place : Path) (part : String) : Path :=
  if part = ".." then place.dropLast else place ++ [part]

def resolve (cwd : Path) (text : String) : Path :=
  (segments text).foldl step (if isAbsolute text then [] else cwd)

def join (base text : String) : String :=
  if isAbsolute text then text
  else if base = "" ∨ base.toList.getLast? = some '/' then base ++ text
  else base ++ "/" ++ text

/-- A name without what follows its last dot; a dot in front does not count. -/
def stem (name : List Char) : List Char :=
  match name.rdropWhile (· != '.') with
  | [] | [_] => name
  | front => front.dropLast

def extension (name : List Char) : Option (List Char) :=
  match name.rdropWhile (· != '.') with
  | [] | [_] => none
  | front => some (name.drop front.length)

structure IsName (text : String) : Prop where
  nonempty : text ≠ ""
  notHere : text ≠ "."
  notUp : text ≠ ".."
  whole : '/' ∉ text.toList

variable {text : String}

theorem isName_of_mem {c : Char} (hc : c ∈ text.toList) (hdot : c ≠ '.')
    (hw : '/' ∉ text.toList) : IsName text := by
  have hne : ∀ other : String, (∀ d ∈ other.toList, d = '.') → text ≠ other :=
    fun other hot heq => hdot (hot c (heq ▸ hc))
  exact ⟨hne "" (by simp), hne "." (by simp), hne ".." (by simp), hw⟩

theorem segments_append (a b : String) : segments (a ++ "/" ++ b) = segments a ++ segments b := by
  have hte : (a ++ "/" ++ b).toList = a.toList ++ '/' :: b.toList := by
    simp [String.toList_append]
  rw [segments, hte, splitOn_append_cons_self, map_append, filter_append]
  rfl

variable {name : String}

theorem segments_eq_singleton (h : IsName name) : segments name = [name] := by
  have hp : name.toList.splitOn '/' = [name.toList] := splitOn_eq_singleton h.whole
  simp [segments, hp, h.nonempty, h.notHere]

theorem isName_of_mem_segments {part : String} (h : part ∈ segments text) (hup : part ≠ "..") :
    IsName part := by
  obtain ⟨hpa, hc⟩ := mem_filter.mp h
  obtain ⟨piece, hp, rfl⟩ := mem_map.mp hpa
  obtain ⟨hem, hh⟩ := Bool.and_eq_true_iff.mp hc
  refine ⟨bne_iff_ne.mp hem, bne_iff_ne.mp hh, hup, ?_⟩
  rw [String.toList_ofList]
  exact (Text.mem_splitOn hp).1

/-- A text with a known ending is cut at its last slash; what follows is one name. -/
theorem exists_last_segment {ending : String} (hsl : '/' ∈ text.toList)
    (hen : ending.toList <:+ text.toList) (hw : '/' ∉ ending.toList) {c : Char}
    (hc : c ∈ ending.toList) (hdot : c ≠ '.') :
    ∃ front last, text = front ++ "/" ++ last ∧ segments text = segments front ++ [last] := by
  obtain ⟨after, before, hr, hl⟩ := eq_append_cons_of_mem (mem_reverse.mpr hsl)
  have hte : text.toList = before.reverse ++ '/' :: after.reverse := by
    rw [← reverse_reverse text.toList, hr]
    simp
  have hcut : text = String.ofList before.reverse ++ "/" ++ String.ofList after.reverse := by
    apply String.toList_injective
    simp [hte]
  have hsu : ending.toList <:+ after.reverse := by
    rcases suffix_or_suffix_of_suffix hen (hte ▸ suffix_append before.reverse _)
      with hsr | hlo
    · rcases suffix_cons_iff.mp hsr with heq | hsh
      · exact absurd (heq ▸ mem_cons_self) hw
      · exact hsh
    · exact absurd (hlo.subset mem_cons_self) hw
  have hn : IsName (String.ofList after.reverse) := by
    refine isName_of_mem (c := c) ?_ hdot ?_
    · simpa using hsu.subset hc
    · simpa using hl
  refine ⟨_, _, hcut, ?_⟩
  rw [hcut, segments_append, segments_eq_singleton hn]

theorem isAbsolute_eq_false (h : '/' ∉ name.toList) : isAbsolute name = false := by
  cases hn : name.toList with
  | nil => simp [isAbsolute, hn]
  | cons c rest =>
    have hc : c ≠ '/' := fun heq => h (by simp [hn, heq])
    simp [isAbsolute, hn, hc]

theorem isAbsolute_append {a b : String} (h : a ≠ "") : isAbsolute (a ++ b) = isAbsolute a := by
  have ha : a.toList ≠ [] := by simpa using h
  rw [isAbsolute, isAbsolute, String.toList_append, List.head?_append_of_ne_nil _ ha]

/-- Names are written down as an absolute text. -/
theorem exists_segments_eq (path : Path) (h : ∀ name ∈ path, IsName name) :
    ∃ text, isAbsolute text = true ∧ segments text = path := by
  induction path using reverseRecOn with
  | nil => exact ⟨"/", by decide, by decide⟩
  | append_singleton front last ih =>
    obtain ⟨text, ha, hse⟩ := ih fun name hn => h name (by simp [hn])
    have hne : text ≠ "" := by
      rintro rfl
      simp [isAbsolute] at ha
    refine ⟨text ++ "/" ++ last, ?_, ?_⟩
    · rw [String.append_assoc, isAbsolute_append hne, ha]
    · rw [segments_append, hse, segments_eq_singleton (h last (by simp))]

variable {base : String} {cwd : Path}

/-- A text joined to another is read from the place of the other on. -/
theorem resolve_join (h : isAbsolute text = false) :
    resolve cwd (join base text) = (segments text).foldl step (resolve cwd base) := by
  unfold join
  rw [h, if_neg (by simp)]
  by_cases hem : base = ""
  · have hh : resolve cwd base = cwd := by
      rw [hem]
      rfl
    rw [if_pos (.inl hem), hh, hem, String.empty_append, resolve, h]
    simp
  by_cases hsl : base.toList.getLast? = some '/'
  · obtain ⟨front, hf⟩ := List.getLast?_eq_some_iff.mp hsl
    have hb : base = String.ofList front ++ "/" := by
      apply String.toList_injective
      simp [hf]
    have hse : segments (base ++ text) = segments base ++ segments text := by
      have hsf : segments base = segments (String.ofList front) := by
        have ha := segments_append (String.ofList front) ""
        rw [String.append_empty, ← hb] at ha
        rw [ha]
        exact append_nil _
      rw [hsf, hb, segments_append]
    rw [if_pos (.inr hsl), resolve, isAbsolute_append hem, hse, foldl_append]
    rfl
  · rw [if_neg (not_or.mpr ⟨hem, hsl⟩), resolve, String.append_assoc,
      isAbsolute_append hem, ← String.append_assoc, segments_append, foldl_append]
    rfl

theorem resolve_join_name (h : IsName name) :
    resolve cwd (join base name) = resolve cwd base ++ [name] := by
  rw [resolve_join (isAbsolute_eq_false h.whole), segments_eq_singleton h]
  exact if_neg h.notUp

theorem foldl_step {parts : List String} (h : ".." ∉ parts) (place : Path) :
    parts.foldl step place = place ++ parts := by
  induction parts generalizing place with
  | nil => simp
  | cons part rest ih =>
    have hp : part ≠ ".." := fun heq => h (heq ▸ mem_cons_self)
    rw [foldl_cons, ih fun hr => h (mem_cons_of_mem part hr), step, if_neg hp]
    simp

theorem resolve_join_names (hr : isAbsolute text = false) (h : ".." ∉ segments text) :
    resolve cwd (join base text) = resolve cwd base ++ segments text := by
  rw [resolve_join hr, foldl_step h]

end FileTree
