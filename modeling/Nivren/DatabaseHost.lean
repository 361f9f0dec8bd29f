import Nivren.Library.Program

/-! Pages of query results.

The host turns the rows a driver produces into objects keyed by column name and cuts the page at
`maximum_rows`. The cursor of every page is null.
-/

namespace Nivren.DatabaseHost

variable {β : Type}

abbrev Object (β : Type) := String → Option β

/-- The answer to a query; its text holds the text of each object. -/
structure Page (β : Type) where
  rows : List (Object β)
  nextCursor : Option String

/-- The texts `serde_json` writes for an object and for a page. -/
structure Serializer (β : Type) where
  object : Object β → String
  page : Page β → String

def maximumResponseBytes : ℕ := 16 * 1024 * 1024

variable (json : Serializer β)

/-- `encode_rows`; the sum of the lengths is checked before it could overflow. -/
def encodeRows (rows : List (Except String (Object β))) (maximumRows : ℕ) :
    Except String (Page β) := do
  let page := ⟨← loop [] 32 rows, none⟩
  if (json.page page).utf8ByteSize > maximumResponseBytes then
    throw "database query response exceeds 16 MiB"
  return page
where
  loop (encoded : List (Object β)) (responseBytes : ℕ) :
      List (Except String (Object β)) → Except String (List (Object β))
    | [] => return encoded
    | row :: rest =>
      if encoded.length ≥ maximumRows then return encoded
      else do
        let object ← row
        let responseBytes := responseBytes + (json.object object).utf8ByteSize
        if responseBytes > maximumResponseBytes then
          throw "database query response exceeds 16 MiB"
        loop (encoded ++ [object]) responseBytes rest

abbrev Row (β : Type) := List (String × β)

def Object.insert (object : Object β) (column : String × β) : Object β :=
  Function.update object column.1 (some column.2)

def rowObject (row : Row β) : Object β := row.foldl Object.insert fun _ => none

/-- `sqlite_query`, for the rows the statement yields, each with the names and values of the
columns; reading a row may fail. -/
def sqliteQuery (rows : List (Except String (Row β))) (maximumRows : ℕ) :
    Except String (Page β) := do
  encodeRows json ((← decode [] rows).map .ok) maximumRows
where
  decode (decoded : List (Object β)) :
      List (Except String (Row β)) → Except String (List (Object β))
    | [] => return decoded
    | row :: rest =>
      if decoded.length < maximumRows then do decode (decoded ++ [rowObject (← row)]) rest
      else return decoded

def Carries (object : Object β) (row : Row β) : Prop :=
  ∀ column ∈ row, object column.1 = some column.2

/-- Columns of one name hold one value. -/
def Consistent (row : Row β) : Prop := ∀ a ∈ row, ∀ b ∈ row, a.1 = b.1 → a.2 = b.2

/-- The page has every row in order, and each object the value of every column. -/
def Complete (rows : List (Except String (Row β))) (page : Page β) : Prop :=
  rows.Forall₂ (fun row object => ∃ found, row = .ok found ∧ Carries object found) page.rows

variable {json} {rows : List (Except String (Row β))} {maximumRows : ℕ} {page : Page β}

theorem carries_rowObject_iff {row : Row β} : Carries (rowObject row) row ↔ Consistent row := by
  constructor
  · intro h a ha b hb hn
    have hv := h a ha
    rw [hn, h b hb] at hv
    exact (Option.some.inj hv).symm
  · intro h a ha
    -- what the object holds under a name after any part of the row
    have hfold : ∀ (part : Row β) (object : Object β), part ⊆ row →
        a ∈ part ∨ object a.1 = some a.2 →
        part.foldl Object.insert object a.1 = some a.2 := by
      intro part
      induction part with
      | nil => simp
      | cons b rest ih =>
        intro object hs hk
        obtain ⟨hb, hr⟩ := List.cons_subset.mp hs
        refine ih _ hr ?_
        unfold Object.insert
        by_cases hn : a.1 = b.1
        · exact .inr (by rw [hn, Function.update_self, h a ha b hb hn])
        · rw [Function.update_of_ne hn]
          exact hk.imp_left fun hm => (List.mem_cons.mp hm).resolve_left fun hab => hn (by rw [hab])
    exact hfold row _ (List.Subset.refl _) (.inl ha)

theorem decode_eq_ok {decoded objects : List (Object β)}
    (h : sqliteQuery.decode maximumRows decoded rows = .ok objects) :
    ∃ found : List (Row β), rows.take (maximumRows - decoded.length) = found.map .ok ∧
      objects = decoded ++ found.map rowObject := by
  induction rows generalizing decoded with
  | nil =>
    cases h
    exact ⟨[], by simp⟩
  | cons row rest ih =>
    rw [sqliteQuery.decode] at h
    split at h
    next hl =>
      obtain ⟨value, rfl, h⟩ := bind_eq_ok_iff.mp h
      obtain ⟨found, ht, rfl⟩ := ih h
      obtain ⟨k, hk⟩ := Nat.exists_eq_add_of_lt hl
      have hd : maximumRows - decoded.length = k + 1 := by omega
      have hd' : maximumRows - (decoded ++ [rowObject value]).length = k := by simp; omega
      rw [hd'] at ht
      exact ⟨value :: found, by rw [hd, List.take_succ_cons, ht, List.map_cons], by simp⟩
    next hl =>
      cases h
      exact ⟨[], by simp [Nat.sub_eq_zero_of_le (Nat.not_lt.mp hl)]⟩

theorem loop_eq_ok {bytes : ℕ} {encoded objects out : List (Object β)}
    (hl : encoded.length + objects.length ≤ maximumRows)
    (h : encodeRows.loop json maximumRows encoded bytes (objects.map .ok) = .ok out) :
    out = encoded ++ objects := by
  induction objects generalizing encoded bytes with
  | nil =>
    cases h
    simp
  | cons object rest ih =>
    rw [List.length_cons] at hl
    rw [List.map_cons, encodeRows.loop, if_neg (by omega)] at h
    obtain ⟨_, hr, h⟩ := bind_eq_ok_iff.mp h
    cases hr
    rw [ih (by simp; omega) (unless_eq_ok_iff.mp h).2]
    simp

def countRows : Serializer ℕ where
  object _ := ""
  page _ := ""

end Nivren.DatabaseHost
