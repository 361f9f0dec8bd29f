import Mathlib

/-! Values of the JSON library.

An object is a sorted map: its fields are kept in the order of their names.
-/

namespace Nivren

inductive Json
  | null
  | bool (value : Bool)
  | integer (value : ℤ)
  | float (bits : UInt64)
  | string (value : String)
  | array (items : List Json)
  | object (fields : List (String × Json))

namespace Json

/-- `value[key]`. -/
def index (key : String) : Json → Json
  | .object fields => (fields.lookup key).getD .null
  | _ => .null

/-- The fields with another value under a key; the keys stay in order. -/
def insertField (key : String) (value : Json) : List (String × Json) → List (String × Json)
  | [] => [(key, value)]
  | (other, old) :: rest =>
    if key = other then (key, value) :: rest
    else if key < other then (key, value) :: (other, old) :: rest
    else (other, old) :: insertField key value rest

/-- `document[key] = new`, for an object. -/
def setIndex (document : Json) (key : String) (new : Json) : Json :=
  match document with
  | .object fields => .object (insertField key new fields)
  | other => other

def asBool : Json → Option Bool
  | .bool value => some value
  | _ => none

def asStr : Json → Option String
  | .string value => some value
  | _ => none

def asU64 : Json → Option ℕ
  | .integer value => if 0 ≤ value then some value.toNat else none
  | _ => none

def isInteger (n : ℤ) : Json → Bool
  | .integer value => value == n
  | _ => false

variable {key other : String} {value : Json}

theorem lookup_insertField (h : other ≠ key) (fields : List (String × Json)) :
    (insertField key value fields).lookup other = fields.lookup other := by
  have hf : (other == key) = false := beq_eq_false_iff_ne.mpr h
  induction fields with
  | nil => simp [insertField, List.lookup, hf]
  | cons field rest ih =>
    unfold insertField
    split
    · rename_i heq
      subst heq
      simp [List.lookup, hf]
    · split
      · simp [List.lookup, hf]
      · simp only [List.lookup, ih]

theorem insertField_insertField (fields : List (String × Json)) :
    insertField key value (insertField key value fields) = insertField key value fields := by
  induction fields with
  | nil => simp [insertField]
  | cons field rest ih =>
    obtain ⟨name, old⟩ := field
    by_cases heq : key = name
    · simp [insertField, heq]
    · by_cases hlt : key < name
      · simp [insertField, heq, hlt]
      · simp [insertField, heq, hlt, ih]

theorem index_setIndex_of_ne (h : other ≠ key) (document : Json) :
    (document.setIndex key value).index other = document.index other := by
  cases document <;> simp [setIndex, index, lookup_insertField h]

example : (object [("yanked", .bool false)]).setIndex "yanked" (.bool true) =
    object [("yanked", .bool true)] := rfl

theorem setIndex_setIndex (document : Json) :
    (document.setIndex key value).setIndex key value = document.setIndex key value := by
  cases document <;> simp [setIndex, insertField_insertField]

end Json

end Nivren
