import Mathlib

/-! Texts as lists of characters: lines, trimmed texts, pieces between separators.

The functions are those of a standard library for strings. A text is read line by line, each line
being the text up to a line feed; the last line may go without one.
-/

namespace Text

open List

/-- The characters `trim` takes off. -/
def isWhiteSpace (c : Char) : Bool :=
  let n := c.toNat
  (0x9 ≤ n && n ≤ 0xD) || n == 0x20 || n == 0x85 || n == 0xA0 || n == 0x1680 ||
    (0x2000 ≤ n && n ≤ 0x200A) || n == 0x2028 || n == 0x2029 || n == 0x202F || n == 0x205F ||
    n == 0x3000

def trimStart (t : List Char) : List Char := t.dropWhile isWhiteSpace

def trim (t : List Char) : List Char := (trimStart t).rdropWhile isWhiteSpace

def splitWhitespace (t : List Char) : List (List Char) := (t.splitOnP isWhiteSpace).filter (· ≠ [])

def splitOnce (separator : Char) (t : List Char) : Option (List Char × List Char) :=
  match t.dropWhile (· != separator) with
  | [] => none
  | _ :: rest => some (t.takeWhile (· != separator), rest)

def rsplitOnce (separator : Char) (t : List Char) : Option (List Char × List Char) :=
  (splitOnce separator t.reverse).map fun (after, before) => (before.reverse, after.reverse)

def stripReturn (line : List Char) : List Char :=
  if line.getLast? = some '\r' then line.dropLast else line

def lines (t : List Char) : List (List Char) :=
  let pieces := t.splitOn '\n'
  pieces.dropLast.map stripReturn ++ pieces.getLast?.toList.filter (· ≠ [])

/-- The number a text of decimal digits stands for; a sign may stand in front. -/
def decimal (t : List Char) : Option ℕ :=
  let digits := (t.dropPrefix? ['+']).getD t
  if digits ≠ [] ∧ digits.all Char.isDigit then
    some (digits.foldl (fun n c => 10 * n + (c.toNat - '0'.toNat)) 0)
  else none

/-- The pieces between the places where a text stands in another; the first number of characters is
passed over. -/
def splitFrom (separator : List Char) : ℕ → List Char → List (List Char)
  | _, [] => [[]]
  | skip + 1, _ :: rest => splitFrom separator skip rest
  | 0, c :: rest =>
    if separator.isPrefixOf (c :: rest) then [] :: splitFrom separator (separator.length - 1) rest
    else (splitFrom separator 0 rest).modifyHead (c :: ·)

def splitText (separator t : List Char) : List (List Char) := splitFrom separator 0 t

def hexDigit (n : ℕ) : Char := Char.ofNat (if n < 10 then 48 + n else 87 + n)

/-- A character as it stands in a quoted text. -/
def escapeChar (c : Char) : List Char :=
  if c = '\x22' then ['\\', '\x22']
  else if c = '\\' then ['\\', '\\']
  else if c = '\x08' then ['\\', 'b']
  else if c = '\x0C' then ['\\', 'f']
  else if c = '\n' then ['\\', 'n']
  else if c = '\r' then ['\\', 'r']
  else if c = '\t' then ['\\', 't']
  else if c.toNat < 32 then
    ['\\', 'u', '0', '0', hexDigit (c.toNat / 16), hexDigit (c.toNat % 16)]
  else [c]

def quote (t : List Char) : List Char := '\x22' :: (t.flatMap escapeChar ++ ['\x22'])

def unlines (ls : List (List Char)) : List Char := ls.flatMap (· ++ ['\n'])

variable {a rest : List Char}

variable {t : List Char}

/-- A piece holds no separator and only characters of the text. -/
theorem mem_splitOn {piece : List Char} {separator : Char} (h : piece ∈ t.splitOn separator) :
    separator ∉ piece ∧ piece ⊆ t := by
  induction t generalizing piece with
  | nil =>
    rw [splitOn_nil, mem_singleton] at h
    simp [h]
  | cons c rest ih =>
    rw [splitOn_cons_eq_if_modifyHead] at h
    split at h
    · rcases mem_cons.mp h with rfl | h
      · simp
      · exact ⟨(ih h).1, subset_cons_of_subset c (ih h).2⟩
    next hc =>
      obtain ⟨first, others, hp⟩ := exists_cons_of_ne_nil (splitOn_ne_nil separator rest)
      rw [hp] at ih h
      rcases mem_cons.mp h with rfl | h
      · have hf := ih (mem_cons_self ..)
        have hne : separator ≠ c := by
          rintro rfl
          simp at hc
        exact ⟨by simp [hne, hf.1], cons_subset_cons c hf.2⟩
      · have hot := ih (mem_cons_of_mem _ h)
        exact ⟨hot.1, subset_cons_of_subset c hot.2⟩

theorem dropPrefix?_eq_some {start : List Char} :
    t.dropPrefix? start = some rest ↔ t = start ++ rest := by
  rw [List.dropPrefix?_eq_some_iff]
  constructor
  · rintro ⟨first, ht, hf⟩
    rw [ht, eq_of_beq hf]
  · rintro rfl
    exact ⟨start, rfl, beq_self_eq_true _⟩
variable {c : Char}

/-- Every character but the separators stands in one of the pieces. -/
theorem exists_mem_splitOn {separator : Char} (hc : c ∈ t) (hne : c ≠ separator) :
    ∃ piece ∈ t.splitOn separator, c ∈ piece := by
  have hj : ∀ pieces : List (List Char), c ∈ [separator].intercalate pieces →
      ∃ piece ∈ pieces, c ∈ piece := by
    intro pieces hmem
    induction pieces with
    | nil => simp at hmem
    | cons piece rest ih =>
      cases rest with
      | nil => exact ⟨piece, by simp, by simpa using hmem⟩
      | cons second rest =>
        rw [intercalate_cons_cons, mem_append, mem_append, mem_singleton] at hmem
        rcases hmem with (hmem | hmem) | hmem
        · exact ⟨piece, mem_cons_self, hmem⟩
        · exact absurd hmem hne
        · obtain ⟨found, hf, hin⟩ := ih hmem
          exact ⟨found, mem_cons_of_mem _ hf, hin⟩
  apply hj
  rwa [intercalate_splitOn]

theorem lines_append_cons (h : '\n' ∉ a) :
    lines (a ++ '\n' :: rest) = stripReturn a :: lines rest := by
  obtain ⟨piece, pieces, hp⟩ := exists_cons_of_ne_nil (splitOn_ne_nil '\n' rest)
  simp only [lines, splitOn_append_cons_self_of_not_mem h, hp, dropLast_cons_cons, map_cons,
    cons_append, List.getLast?_cons_cons]

theorem stripReturn_eq_self {line : List Char} (h : line.getLast? ≠ some '\r') :
    stripReturn line = line :=
  if_neg h

theorem stripReturn_isPrefix (line : List Char) : stripReturn line <+: line := by
  unfold stripReturn
  split
  · exact List.dropLast_prefix line
  · exact prefix_rfl

variable {b : List Char}

theorem stripReturn_append (hb : b ≠ []) : stripReturn (a ++ b) = a ++ stripReturn b := by
  unfold stripReturn
  rw [List.getLast?_append_of_ne_nil a hb]
  split
  · exact dropLast_append_of_ne_nil hb
  · rfl

/-- A line that is read back as it was written. -/
def Whole (line : List Char) : Prop := '\n' ∉ line ∧ line.getLast? ≠ some '\r'

instance {line : List Char} : Decidable (Whole line) := inferInstanceAs (Decidable (_ ∧ _))

theorem lines_unlines {ls : List (List Char)} (h : ∀ line ∈ ls, Whole line) :
    lines (unlines ls) = ls := by
  induction ls with
  | nil => rfl
  | cons line rest ih =>
    obtain ⟨⟨hl, hend⟩, hre⟩ := forall_mem_cons.mp h
    have hte : unlines (line :: rest) = line ++ '\n' :: unlines rest := by simp [unlines]
    rw [hte, lines_append_cons hl, stripReturn_eq_self hend, ih hre]

/-- White space is taken off the end only as far as the last other character. -/
theorem rdropWhile_append_cons {p : Char → Bool} {a b : List Char} {c : Char} (hc : p c = false) :
    (a ++ c :: b).rdropWhile p = a ++ c :: b.rdropWhile p := by
  induction b using reverseRecOn with
  | nil =>
    rw [rdropWhile_concat_neg p a c (by simp [hc])]
    rfl
  | append_singleton b d ih =>
    rw [← cons_append, ← append_assoc]
    cases hd : p d with
    | false =>
      rw [rdropWhile_concat_neg p _ d (by simp [hd]), rdropWhile_concat_neg p _ d (by simp [hd])]
      simp
    | true =>
      rw [rdropWhile_concat_pos p _ d hd, rdropWhile_concat_pos p _ d hd, ih]

theorem mem_of_mem_rdropWhile {p : Char → Bool} (h : c ∈ t.rdropWhile p) : c ∈ t :=
  (List.rdropWhile_prefix p t).subset h

theorem trim_cons (hc : isWhiteSpace c = false) :
    trim (c :: t) = c :: t.rdropWhile isWhiteSpace := by
  have hst : trimStart (c :: t) = c :: t := dropWhile_cons_of_neg (by simp [hc])
  rw [trim, hst]
  exact @rdropWhile_append_cons _ [] t c hc

/-- Visible characters, with one that is not at the end. -/
theorem trim_concat (h : ∀ c ∈ t, isWhiteSpace c = false)
    (hend : isWhiteSpace c = true) : trim (t ++ [c]) = t := by
  cases t with
  | nil => simp [trim, trimStart, hend]
  | cons first rest =>
    rw [cons_append, trim_cons (h first (by simp)), rdropWhile_concat_pos _ _ _ hend]
    congr 1
    cases hl : rest.reverse with
    | nil => simp [reverse_eq_nil_iff.mp hl]
    | cons last front =>
      have hr : rest = front.reverse ++ [last] := by
        rw [← reverse_reverse rest, hl, reverse_cons]
      have hv : isWhiteSpace last = false := h last (by simp [hr])
      rw [hr, rdropWhile_concat_neg _ _ _ (by simp [hv])]

theorem splitOnce_append_cons {separator : Char} (h : separator ∉ a) :
    splitOnce separator (a ++ separator :: b) = some (a, b) := by
  have hpos : ∀ c ∈ a, (c != separator) = true := fun c hc => bne_iff_ne.mpr fun heq => h (heq ▸ hc)
  unfold splitOnce
  rw [dropWhile_append_of_pos hpos, takeWhile_append_of_pos hpos]
  simp

def clear (separator : List Char) : List Char → Bool
  | [] => true
  | c :: rest =>
    !separator.isPrefixOf (c :: rest) && !(c :: rest).isPrefixOf separator && clear separator rest

variable {separator : List Char}

theorem clear_cons :
    clear separator (c :: rest) = true ↔ ¬ separator <+: c :: rest ∧ ¬ c :: rest <+: separator ∧
      clear separator rest = true := by
  rw [clear]
  simp only [Bool.and_eq_true, Bool.not_eq_true', ← Bool.not_eq_true, List.isPrefixOf_iff_prefix,
    and_assoc]

theorem clear_of_notMem (h : c ∉ t) : clear (c :: separator) t = true := by
  induction t with
  | nil => rfl
  | cons d rest ih =>
    have hcd : c ≠ d := fun heq => h (heq ▸ mem_cons_self)
    rw [clear_cons, cons_prefix_cons, cons_prefix_cons]
    exact ⟨fun hp => hcd hp.1, fun hp => hcd hp.1.symm, ih fun hc => h (mem_cons_of_mem d hc)⟩

/-- What the separator does not begin in, it does not begin in with something behind either. -/
theorem not_prefix_append (hin : ¬ separator <+: a)
    (hb : ¬ a <+: separator) : ¬ separator <+: a ++ b := fun hp =>
  (List.prefix_or_prefix_of_prefix hp (prefix_append a b)).elim hin hb

theorem clear_append (ha : clear separator a = true)
    (hb : clear separator b = true) : clear separator (a ++ b) = true := by
  induction a with
  | nil => exact hb
  | cons c a ih =>
    obtain ⟨hin, hbe, hr⟩ := clear_cons.mp ha
    rw [cons_append, clear_cons]
    exact ⟨not_prefix_append hin hbe, fun hp => hbe ((prefix_append (c :: a) b).trans hp), ih hr⟩

theorem splitText_append {separator a rest : List Char} (h : clear separator a = true) :
    splitText separator (a ++ rest) = (splitText separator rest).modifyHead (a ++ ·) := by
  induction a with
  | nil =>
    change _ = (splitText separator rest).modifyHead id
    rw [modifyHead_id]
    rfl
  | cons c a ih =>
    obtain ⟨hin, hb, hta⟩ := clear_cons.mp h
    have hnot : separator.isPrefixOf (c :: (a ++ rest)) = false := by
      rw [← Bool.not_eq_true, List.isPrefixOf_iff_prefix]
      exact not_prefix_append hin hb
    have hr := ih hta
    unfold splitText at hr ⊢
    rw [cons_append, splitFrom, hnot, hr]
    simp only [Bool.false_eq_true, if_false, modifyHead_modifyHead]
    rfl

theorem splitFrom_length (separator a rest : List Char) :
    splitFrom separator a.length (a ++ rest) = splitFrom separator 0 rest := by
  induction a with
  | nil => rfl
  | cons c a ih => exact ih

/-- A piece without the separator, and what follows. -/
theorem splitText_piece (h : clear (c :: separator) a = true) :
    splitText (c :: separator) (a ++ (c :: separator ++ rest)) =
      a :: splitText (c :: separator) rest := by
  have hp : (c :: separator).isPrefixOf (c :: (separator ++ rest)) = true := by
    rw [List.isPrefixOf_iff_prefix]
    exact ⟨rest, rfl⟩
  have hse : splitText (c :: separator) (c :: separator ++ rest) =
      [] :: splitText (c :: separator) rest := by
    unfold splitText
    rw [cons_append, splitFrom, if_pos hp]
    exact congrArg _ (splitFrom_length _ separator rest)
  rw [splitText_append h, hse]
  simp

theorem splitText_last (h : clear separator a = true) : splitText separator a = [a] := by
  have hend := @splitText_append separator a [] h
  rw [append_nil] at hend
  rw [hend]
  simp [splitText, splitFrom]

def digitValue (c : Char) : ℕ := if c.toNat < 58 then c.toNat - 48 else c.toNat - 87

/-- The first character of an escaped text, and the rest. -/
def unescapeOne : List Char → Option (Char × List Char)
  | '\\' :: 'b' :: rest => some ('\x08', rest)
  | '\\' :: 'f' :: rest => some ('\x0C', rest)
  | '\\' :: 'n' :: rest => some ('\n', rest)
  | '\\' :: 'r' :: rest => some ('\r', rest)
  | '\\' :: 't' :: rest => some ('\t', rest)
  | '\\' :: 'u' :: _ :: _ :: a :: b :: rest =>
    some (Char.ofNat (16 * digitValue a + digitValue b), rest)
  | '\\' :: c :: rest => some (c, rest)
  | c :: rest => some (c, rest)
  | [] => none

theorem unescapeOne_control {n : ℕ} (hn : n < 32) (rest : List Char) :
    unescapeOne ('\\' :: 'u' :: '0' :: '0' :: hexDigit (n / 16) :: hexDigit (n % 16) :: rest) =
      some (Char.ofNat n, rest) := by
  have hv : ∀ n < 32, 16 * digitValue (hexDigit (n / 16)) + digitValue (hexDigit (n % 16)) = n := by
    decide
  rw [unescapeOne, hv n hn]

theorem unescapeOne_escapeChar (c : Char) (rest : List Char) :
    unescapeOne (escapeChar c ++ rest) = some (c, rest) := by
  unfold escapeChar
  split_ifs with hq hsl hb hf hn hr ht hc
  · subst hq; rfl
  · subst hsl; rfl
  · subst hb; rfl
  · subst hf; rfl
  · subst hn; rfl
  · subst hr; rfl
  · subst ht; rfl
  · have h := unescapeOne_control hc rest
    rwa [Char.ofNat_toNat] at h
  · rw [singleton_append]
    unfold unescapeOne
    split <;> simp_all

variable {d : Char}

theorem escapeChar_cancel {r s : List Char} (h : escapeChar c ++ r = escapeChar d ++ s) :
    c = d ∧ r = s := by
  have hone := unescapeOne_escapeChar c r
  rw [h, unescapeOne_escapeChar, Option.some.injEq, Prod.mk.injEq] at hone
  exact ⟨hone.1.symm, hone.2.symm⟩

theorem escapeChar_ne_nil (c : Char) (r : List Char) : escapeChar c ++ r ≠ [] := by
  intro h
  have hone := unescapeOne_escapeChar c r
  rw [h] at hone
  cases hone

theorem flatMap_escapeChar_inj (h : a.flatMap escapeChar = b.flatMap escapeChar) : a = b := by
  induction a generalizing b with
  | nil =>
    cases b with
    | nil => rfl
    | cons d b => exact absurd h.symm (escapeChar_ne_nil d _)
  | cons c a ih =>
    cases b with
    | nil => exact absurd h (escapeChar_ne_nil c _)
    | cons d b =>
      obtain ⟨rfl, hr⟩ := escapeChar_cancel h
      rw [ih hr]

theorem le_of_mem_escapeChar (h : c ∈ escapeChar d) : 32 ≤ c.toNat := by
  have hd : ∀ k < 16, 32 ≤ (hexDigit k).toNat := by decide
  have hp : ∀ e : Char, 32 ≤ e.toNat → c ∈ ['\\', e] → 32 ≤ c.toNat := by
    intro e he hmem
    rcases mem_pair.mp hmem with rfl | rfl
    · decide
    · exact he
  unfold escapeChar at h
  split_ifs at h with hq hsl hb hf hn hr ht hc
  any_goals exact hp _ (by decide) h
  · have hl : d.toNat / 16 < 16 := by omega
    have hsm : d.toNat % 16 < 16 := by omega
    simp only [mem_cons, not_mem_nil, or_false] at h
    rcases h with rfl | rfl | rfl | rfl | rfl | rfl
    on_goal 6 => exact hd _ hsm
    on_goal 5 => exact hd _ hl
    all_goals decide
  · rw [mem_singleton] at h
    subst h
    omega

/-- Control characters do not stand in quoted texts. -/
theorem notMem_quote (t : List Char) (hc : c.toNat < 32) : c ∉ quote t := by
  have hm : c ≠ '\x22' := by
    rintro rfl
    exact absurd hc (by decide)
  rw [quote, mem_cons, mem_append, mem_singleton, mem_flatMap]
  rintro (h | ⟨d, -, h⟩ | h)
  · exact hm h
  · have := le_of_mem_escapeChar h
    omega
  · exact hm h

theorem splitWhitespace_word {word : List Char} (hne : word ≠ [])
    (hw : ∀ x ∈ word, isWhiteSpace x = false) (hc : isWhiteSpace c = true) (rest : List Char) :
    splitWhitespace (word ++ c :: rest) = word :: splitWhitespace rest := by
  unfold splitWhitespace
  rw [splitOnP_append_cons_of_forall_mem hw c hc, filter_cons_of_pos (by simpa using hne)]

theorem isWhiteSpace_of_isDigit (h : c.isDigit = true) : isWhiteSpace c = false := by
  have hr : 48 ≤ c.toNat ∧ c.toNat ≤ 57 := Char.isDigit_iff_toNat.mp h
  simp only [isWhiteSpace, Bool.or_eq_false_iff, Bool.and_eq_false_iff, decide_eq_false_iff_not,
    beq_eq_false_iff_ne]
  omega

theorem isDigit_of_mem_toString {n : ℕ} (h : c ∈ (toString n).toList) : c.isDigit = true := by
  rw [Nat.toString_eq_repr, Nat.toList_repr] at h
  exact Nat.isDigit_of_mem_toDigits (by decide) (by decide) h

/-- A number that has been written is read back. -/
theorem decimal_toString (n : ℕ) : decimal (toString n).toList = some n := by
  have hd : ∀ c ∈ (toString n).toList, c.isDigit = true := fun c => isDigit_of_mem_toString
  have hc : (toString n).toList = Nat.toDigits 10 n := by
    rw [Nat.toString_eq_repr, Nat.toList_repr]
  have hne : (toString n).toList ≠ [] := by
    rw [hc]
    exact Nat.toDigits_ne_nil
  obtain ⟨first, rest, hco⟩ := exists_cons_of_ne_nil hne
  have hsi : (toString n).toList.dropPrefix? ['+'] = none := by
    have hf := hd first (by rw [hco]; exact mem_cons_self)
    have hp : (first == '+') = false := by
      rw [beq_eq_false_iff_ne]
      rintro rfl
      exact absurd hf (by decide)
    rw [hco, dropPrefix?, hp]
    rfl
  rw [decimal, hsi, Option.getD_none, if_pos ⟨hne, all_eq_true.mpr hd⟩, hc]
  exact congrArg some (Nat.ofDigitChars_toDigits (by decide) (by decide))

/-- Only small letters come from other characters. -/
theorem eq_of_toLower_eq (h : c.toLower = d) (hd : d.isLower = false) : c = d := by
  unfold Char.toLower at h
  split at h
  next hc =>
    exfalso
    rw [← h] at hd
    simp [Char.isLower, UInt32.le_iff_toNat_le] at hd hc
    omega
  · exact h

theorem toLower_toLower (c : Char) : c.toLower.toLower = c.toLower := by
  generalize hd : c.toLower = d
  unfold Char.toLower at hd ⊢
  split
  next hu =>
    exfalso
    split at hd
    next hc =>
      rw [← hd] at hu
      simp [UInt32.le_iff_toNat_le] at hu hc
      omega
    next hc =>
      rw [hd] at hc
      exact hc hu
  · rfl

end Text
