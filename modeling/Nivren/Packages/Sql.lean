import Nivren.Packages.Builtins

/-! Building SQL statements.

A query grows by a `select` and any number of `where_equal`. Its text is made of checked names and
fixed words only; the values go to the parameters.
-/

namespace Nivren.Packages.Sql

structure Query where
  text : String
  parameters : List String
  filtered : Bool
deriving DecidableEq

def letter (character : Char) : Bool :=
  "abcdefghijklmnopqrstuvwxyzABCDEFGHIJKLMNOPQRSTUVWXYZ".toList.any (character == ·)

def digit (character : Char) : Bool := "0123456789".toList.any (character == ·)

def problem (message : String) : Problem := ⟨"sql", message⟩

def identifier (value : String) : Except Problem String := do
  if value.length = 0 then throw (problem "SQL identifier cannot be empty")
  scan 0 value.toList
  return value
where
  scan : ℕ → List Char → Except Problem Unit
    | _, [] => return
    | index, character :: rest => do
      if !(letter character || digit character || character == '_') then
        throw (problem "SQL identifier contains an unsafe character")
      if index == 0 && digit character then
        throw (problem "SQL identifier cannot start with a digit")
      scan (index + 1) rest

def select (table : String) (columns : List String) : Except Problem Query := do
  let table ← identifier table
  if columns.length = 0 then throw (problem "SELECT requires at least one column")
  let names ← join "" 0 columns
  let start ← concat "SELECT " names
  let from_ ← concat start " FROM "
  let statement ← concat from_ table
  return ⟨statement, [], false⟩
where
  join (names : String) : ℕ → List String → Except Problem String
    | _, [] => return names
    | index, column :: rest => do
      let column ← identifier column
      let names ← if index > 0 then concat names ", " else pure names
      join (← concat names column) (index + 1) rest

def whereEqual (query : Query) (column value : String) : Except Problem Query := do
  let column ← identifier column
  let joiner := if query.filtered then " AND " else " WHERE "
  let start ← concat query.text joiner
  let field ← concat start column
  let statement ← concat field " = ?"
  return ⟨statement, query.parameters ++ [value], true⟩

/-- Any number of `where_equal` calls, each with its column and value. -/
def extend (query : Query) : List (String × String) → Except Problem Query
  | [] => return query
  | (column, value) :: rest => do extend (← whereEqual query column value) rest

def build (table : String) (columns : List String) (filters : List (String × String)) :
    Except Problem Query := do
  extend (← select table columns) filters

/-- The conditions of a statement; the first one follows `WHERE`, unless there is one already. -/
def clauses (filtered : Bool) : List String → String
  | [] => ""
  | name :: rest =>
    (if filtered then " AND " else " WHERE ") ++ name ++ " = ?" ++ clauses true rest

def SafeName (name : String) : Prop :=
  name ≠ "" ∧ (∀ c ∈ name.toList, c.isAlphanum ∨ c = '_') ∧
    ∀ c ∈ name.toList.head?, c.isDigit = false

variable {c : Char} {name name' table : String} {columns : List String} {query result : Query}
  {filters others : List (String × String)}

theorem isAlpha_of_letter (h : letter c = true) : c.isAlpha = true := by
  simp only [letter, List.any_eq_true, beq_iff_eq] at h
  obtain ⟨_, hd, rfl⟩ := h
  have hall : ∀ d ∈ "abcdefghijklmnopqrstuvwxyzABCDEFGHIJKLMNOPQRSTUVWXYZ".toList,
      d.isAlpha = true := by simp
  exact hall c hd

theorem digit_eq : digit c = c.isDigit := by
  rw [Bool.eq_iff_iff]
  constructor
  · simp only [digit, List.any_eq_true, beq_iff_eq]
    rintro ⟨_, hd, rfl⟩
    have hall : ∀ d ∈ "0123456789".toList, d.isDigit = true := by simp
    exact hall c hd
  · intro h
    have hr : 48 ≤ c.toNat ∧ c.toNat ≤ 57 := Char.isDigit_iff_toNat.mp h
    have hall : ∀ n < 58, 48 ≤ n → digit (Char.ofNat n) = true := by decide
    simpa using hall c.toNat (by omega) hr.1

theorem scan_eq_ok {index : ℕ} {text : List Char} (h : identifier.scan index text = .ok ()) :
    (∀ c ∈ text, c.isAlphanum ∨ c = '_') ∧
      (index = 0 → ∀ c ∈ text.head?, c.isDigit = false) := by
  induction text generalizing index with
  | nil => simp
  | cons first rest ih =>
    simp only [identifier.scan, unless_eq_ok_iff, digit_eq] at h
    obtain ⟨ha, hd, h⟩ := h
    have hf : first.isAlphanum ∨ first = '_' := by
      simp only [Bool.not_eq_true', Bool.not_eq_false, Bool.or_eq_true, beq_iff_eq] at ha
      rcases ha with (ha | ha) | ha
      · simp [Char.isAlphanum, isAlpha_of_letter ha]
      · simp [Char.isAlphanum, ha]
      · exact .inr ha
    refine ⟨List.forall_mem_cons.mpr ⟨hf, (ih h).1⟩, fun h0 => ?_⟩
    simpa [h0] using hd

theorem identifier_eq_ok (h : identifier name = .ok name') : name' = name ∧ SafeName name := by
  simp only [identifier, unless_eq_ok_iff, bind_eq_ok_iff] at h
  obtain ⟨hl, _, hs, h⟩ := h
  cases h
  obtain ⟨ha, hd⟩ := scan_eq_ok hs
  exact ⟨rfl, fun hn => hl (by simp [hn]), ha, hd rfl⟩

theorem whereEqual_eq_ok {value : String} (h : whereEqual query name value = .ok result) :
    SafeName name ∧ result = ⟨query.text ++ (if query.filtered then " AND " else " WHERE ") ++
      name ++ " = ?", query.parameters ++ [value], true⟩ := by
  simp only [whereEqual, bind_eq_ok_iff, concat_eq_ok] at h
  obtain ⟨safe, hi, h⟩ := h
  obtain ⟨rfl, hs⟩ := identifier_eq_ok hi
  obtain ⟨_, ⟨rfl, -⟩, _, ⟨rfl, -⟩, _, ⟨rfl, -⟩, h⟩ := h
  cases h
  exact ⟨hs, rfl⟩

theorem join_eq_ok {index : ℕ} {names text : String}
    (h : select.join names (index + 1) columns = .ok text) :
    (∀ column ∈ columns, SafeName column) ∧ text = ", ".intercalate (names :: columns) := by
  induction columns generalizing names index with
  | nil =>
    cases h
    simp
  | cons column rest ih =>
    simp only [select.join, bind_eq_ok_iff, Nat.succ_pos, if_true, concat_eq_ok] at h
    obtain ⟨safe, hi, _, ⟨rfl, -⟩, _, ⟨rfl, -⟩, h⟩ := h
    obtain ⟨rfl, hs⟩ := identifier_eq_ok hi
    obtain ⟨hr, rfl⟩ := ih h
    exact ⟨List.forall_mem_cons.mpr ⟨hs, hr⟩, by
      rw [String.intercalate_cons_append, String.intercalate_cons_cons]⟩

theorem select_eq_ok (h : select table columns = .ok query) :
    (∀ name ∈ table :: columns, SafeName name) ∧
      query = ⟨"SELECT " ++ ", ".intercalate columns ++ " FROM " ++ table, [], false⟩ := by
  simp only [select, bind_eq_ok_iff, unless_eq_ok_iff, concat_eq_ok] at h
  obtain ⟨safe, hi, hl, names, hj, _, ⟨rfl, -⟩, _, ⟨rfl, -⟩, _, ⟨rfl, -⟩, h⟩ := h
  obtain ⟨rfl, hs⟩ := identifier_eq_ok hi
  cases h
  cases columns with
  | nil => simp at hl
  | cons column rest =>
    simp only [select.join, bind_eq_ok_iff, Nat.lt_irrefl, if_false, concat_eq_ok] at hj
    obtain ⟨safe, hi, _, hn, _, ⟨rfl, -⟩, hj⟩ := hj
    obtain ⟨rfl, hc⟩ := identifier_eq_ok hi
    cases hn
    obtain ⟨hr, rfl⟩ := join_eq_ok hj
    exact ⟨List.forall_mem_cons.mpr ⟨hs, List.forall_mem_cons.mpr ⟨hc, hr⟩⟩, by simp⟩

/-- The conditions are the same whatever the values. -/
theorem whereEqual_other {other : Query} {value value' : String}
    (h : whereEqual query name value = .ok result) (ht : other.text = query.text)
    (hf : other.filtered = query.filtered) : ∃ changed, whereEqual other name value' = .ok changed ∧
      changed.text = result.text ∧ changed.filtered = result.filtered := by
  simp only [whereEqual, bind_eq_ok_iff, ht, hf] at h ⊢
  obtain ⟨safe, hi, _, h₁, _, h₂, _, h₃, h⟩ := h
  cases h
  exact ⟨_, ⟨safe, hi, _, h₁, _, h₂, _, h₃, rfl⟩, rfl, rfl⟩

theorem extend_eq_ok (h : extend query filters = .ok result) :
    (∀ name ∈ filters.map Prod.fst, SafeName name) ∧
      result.text = query.text ++ clauses query.filtered (filters.map Prod.fst) ∧
      result.parameters = query.parameters ++ filters.map Prod.snd := by
  induction filters generalizing query with
  | nil =>
    cases h
    simp [clauses]
  | cons filter rest ih =>
    obtain ⟨next, hw, hr⟩ := bind_eq_ok_iff.mp h
    obtain ⟨hs, rfl⟩ := whereEqual_eq_ok hw
    obtain ⟨ha, ht, hp⟩ := ih hr
    refine ⟨List.forall_mem_cons.mpr ⟨hs, ha⟩, ?_, by simp [hp]⟩
    rw [ht]
    simp [clauses, String.append_assoc]

theorem extend_other {other : Query} (h : extend query filters = .ok result)
    (hn : others.map Prod.fst = filters.map Prod.fst) (ht : other.text = query.text)
    (hf : other.filtered = query.filtered) :
    ∃ changed, extend other others = .ok changed ∧ changed.text = result.text := by
  induction filters generalizing query other others with
  | nil =>
    cases h
    cases List.map_eq_nil_iff.mp hn
    exact ⟨other, rfl, ht⟩
  | cons filter rest ih =>
    obtain ⟨⟨_, value⟩, tail, rfl, rfl, hta⟩ := List.map_eq_cons_iff.mp hn
    obtain ⟨next, hw, hr⟩ := bind_eq_ok_iff.mp h
    obtain ⟨next', hw', ht', hf'⟩ := @whereEqual_other _ _ _ other _ value hw ht hf
    obtain ⟨changed, hc, heq⟩ := ih hr hta ht' hf'
    exact ⟨changed, bind_eq_ok_iff.mpr ⟨next', hw', hc⟩, heq⟩

theorem SafeName.count (h : SafeName name) : name.toList.count '?' = 0 := by
  rw [List.count_eq_zero]
  intro hq
  exact absurd (h.2.1 _ hq) (by decide)

theorem count_columns (h : ∀ column ∈ columns, SafeName column) :
    (", ".intercalate columns).toList.count '?' = 0 := by
  induction columns with
  | nil => rfl
  | cons column rest ih =>
    have hc := (h column List.mem_cons_self).count
    have hr := ih fun c hc => h c (List.mem_cons_of_mem _ hc)
    cases rest with
    | nil => simpa using hc
    | cons second rest =>
      rw [String.intercalate_cons_cons]
      simpa [hc] using hr

theorem count_clauses {names : List String} {filtered : Bool} (h : ∀ name ∈ names, SafeName name) :
    (clauses filtered names).toList.count '?' = names.length := by
  induction names generalizing filtered with
  | nil => rfl
  | cons name rest ih =>
    have hc := (h name List.mem_cons_self).count
    have hr := @ih true fun c hc => h c (List.mem_cons_of_mem _ hc)
    cases filtered <;> simp [clauses, hc, hr]

/-- The text of a query is made of safe names and fixed words, with one mark for each value; another
choice of values gives the same text. -/
theorem build_statement (h : build table columns filters = .ok query) :
    query.text = "SELECT " ++ ", ".intercalate columns ++ " FROM " ++ table ++
        clauses false (filters.map Prod.fst) ∧
      (∀ name ∈ table :: columns ++ filters.map Prod.fst, SafeName name) ∧
      query.text.toList.count '?' = query.parameters.length ∧
      query.parameters = filters.map Prod.snd ∧
      ∀ others, others.map Prod.fst = filters.map Prod.fst →
        ∃ other, build table columns others = .ok other ∧ other.text = query.text := by
  obtain ⟨start, hs, he⟩ := bind_eq_ok_iff.mp h
  obtain ⟨hn, rfl⟩ := select_eq_ok hs
  obtain ⟨hf, ht, hp⟩ := extend_eq_ok he
  have hta := hn table List.mem_cons_self
  have hc := fun column h => hn column (List.mem_cons_of_mem _ h)
  refine ⟨ht, ?_, ?_, hp, fun others ho => ?_⟩
  · exact List.forall_mem_append.mpr ⟨hn, hf⟩
  · rw [ht, hp]
    simp only [String.toList_append, List.count_append, hta.count, count_columns hc,
      count_clauses hf]
    simp
  · obtain ⟨other, hb, heq⟩ := extend_other he ho rfl rfl
    exact ⟨other, bind_eq_ok_iff.mpr ⟨_, hs, hb⟩, heq⟩

theorem build_statement_users :
    ∃ other, build "users" ["id"] [("name", "?")] = .ok other ∧
      other.text = "SELECT id FROM users WHERE name = ?" := by
  have h : build "users" ["id"] [("name", "Ada")] =
      .ok ⟨"SELECT id FROM users WHERE name = ?", ["Ada"], true⟩ := by decide +kernel
  exact (build_statement h).2.2.2.2 [("name", "?")] rfl

end Nivren.Packages.Sql
