import Nivren.Plans

/-! The values of a decoded plan.

A value belongs to a declared type when it has the type's form at every depth. What a plan decodes
to has the declared types exactly when the documents of its fields are written for them: the decoder
looks at the markers in the plan alone.
-/

namespace Nivren

open Codec

variable {β : Type}

/-- The shapes and choices a type can name: the fields of a shape, and what a case carries. -/
structure Declared where
  shape : String → List Ty → Option (List (String × Ty))
  case : String → List Ty → String → Option (Option Ty)

namespace Ty

def bare : Ty → Ty
  | .nullable inner => inner.bare
  | ty => ty

def takesNone : Ty → Bool
  | .nullable _ | .null => true
  | _ => false

def element : Ty → Option Ty
  | .array element => some element
  | _ => none

def setElement : Ty → Option Ty
  | .set element => some element
  | _ => none

def entries : Ty → Option (Ty × Ty)
  | .map key value => some (key, value)
  | _ => none

def results : Ty → Option (Ty × Ty)
  | .result ok error => some (ok, error)
  | _ => none

def fields (known : Declared) (found : String) : Ty → Option (List (String × Ty))
  | .record name arguments => if found = name then known.shape name arguments else none
  | _ => none

def payload (known : Declared) (found case : String) : Ty → Option (Option Ty)
  | .enum name arguments => if found = name then known.case name arguments case else none
  | _ => none

end Ty

variable (known : Declared)

mutual

/-- Whether a value is one of a type, at every depth. Values with live state are none of data. -/
def Value.isOf : Value β → Ty → Bool
  | value, ty => ty.bare.isUnknown ||
    match value with
    | .null => ty.takesNone
    | .bool _ => ty.bare.same .bool
    | .int _ => ty.bare.same .int
    | .uint _ => ty.bare.same .uint
    | .u128 _ => ty.bare.same .u128
    | .float _ => ty.bare.same .float
    | .string _ => ty.bare.same .string
    | .bytes _ => ty.bare.same .bytes
    | .dateTime _ => ty.bare.same .dateTime
    | .bigInt _ => ty.bare.same .bigInt
    | .decimal _ => ty.bare.same .decimal
    | .fixedInt number => ty.bare.same (.fixed number.kind)
    | .array values => ty.bare.element.any (valuesOf values)
    | .set values => ty.bare.setElement.any (valuesOf values)
    | .map entries => ty.bare.entries.any (entriesOf entries)
    | .ok inner => ty.bare.results.any fun types => inner.isOf types.1
    | .err inner => ty.bare.results.any fun types => inner.isOf types.2
    | .record name fields => (ty.bare.fields known name).any fun declared =>
      fields.length == declared.length && fieldsOf fields declared
    | .enum name case payload => (ty.bare.payload known name case).any (payloadOf payload)
    | _ => false

def valuesOf : List (Value β) → Ty → Bool
  | [], _ => true
  | value :: rest, ty => value.isOf ty && valuesOf rest ty

def entriesOf : List (Value β × Value β) → Ty × Ty → Bool
  | [], _ => true
  | (key, value) :: rest, types =>
    key.isOf types.1 && value.isOf types.2 && entriesOf rest types

def fieldsOf : List (String × Value β) → List (String × Ty) → Bool
  | [], _ => true
  | (name, value) :: rest, declared =>
    (declared.lookup name).any (value.isOf ·) && fieldsOf rest declared

def payloadOf : Option (Value β) → Option Ty → Bool
  | none, ty => ty.isNone
  | some value, ty => ty.any (value.isOf ·)

end

mutual

/-- Whether a document is written for a type. -/
def Json.isFor : Json → Ty → Bool
  | json, ty => ty.bare.isUnknown ||
    match json with
    | .null => ty.takesNone
    | .bool _ => ty.bare.same .bool
    | .integer number =>
      if (Width.i64.fit number).isSome then ty.bare.same .int else ty.bare.same .float
    | .float _ => ty.bare.same .float
    | .string _ => ty.bare.same .string
    | .array items => ty.bare.element.any (itemsFor items)
    | .object object =>
      have _hbelow := TraceObject.below_of object
      match _h : TraceObject.of object with
      | .ok inner => ty.bare.results.any fun types => inner.isFor types.1
      | .err inner => ty.bare.results.any fun types => inner.isFor types.2
      | .bytes _ => ty.bare.same .bytes
      | .dateTime _ => ty.bare.same .dateTime
      | .map pairs => ty.bare.entries.any (pairsFor pairs)
      | .shape name fields => (ty.bare.fields known name).any fun declared =>
        fields.length == declared.length && fieldsFor fields declared
      | .choice name case none => (ty.bare.payload known name case).any (·.isNone)
      | .choice name case (some payload) =>
        (ty.bare.payload known name case).any (·.any fun ty => payload.isFor ty)
      | .unknown => false
termination_by json => sizeOf json
decreasing_by
  all_goals simp_all [TraceObject.Below] <;> omega

def itemsFor : List Json → Ty → Bool
  | [], _ => true
  | item :: rest, ty => item.isFor ty && itemsFor rest ty
termination_by items => sizeOf items

def pairsFor : List Json → Ty × Ty → Bool
  | [], _ => true
  | .array [key, entry] :: rest, types =>
    key.isFor types.1 && entry.isFor types.2 && pairsFor rest types
  | _ :: _, _ => false
termination_by pairs => sizeOf pairs

def fieldsFor : List (String × Json) → List (String × Ty) → Bool
  | [], _ => true
  | (name, field) :: rest, declared =>
    (declared.lookup name).any (field.isFor ·) && fieldsFor rest declared
termination_by fields => sizeOf fields

end

variable {known} {traces : TraceLibrary} {span : Span}

theorem exists_of_map_eq_ok {α γ : Type} {f : α → γ} {r : Result α} {c : γ}
    (h : r.map f = .ok c) : ∃ a, r = .ok a ∧ c = f a := by
  cases r with
  | error failure => cases h
  | ok a => exact ⟨a, rfl, (Except.ok.inj h).symm⟩

mutual

theorem isOf_eq_isFor (json : Json) : ∀ {value : Value β},
    effectJsonToValue traces span json = .ok value → value.isOf known = json.isFor known := by
  intro value h
  funext ty
  match json with
  | .null | .bool _ | .float _ | .string _ =>
    rw [effectJsonToValue] at h
    cases h
    rw [Value.isOf, Json.isFor]
  | .integer number =>
    rw [effectJsonToValue] at h
    split at h
    all_goals
      next hn =>
        cases h
        simp [Value.isOf, Json.isFor, hn]
  | .array items =>
    rw [effectJsonToValue] at h
    obtain ⟨values, hv, rfl⟩ := exists_of_map_eq_ok (f := Value.array) h
    simp only [Value.isOf, Json.isFor, valuesOf_eq_itemsFor items hv]
  | .object object =>
    rw [effectJsonToValue_object] at h
    rw [Json.isFor]
    split
    case h_1 | h_2 =>
      rename_i inner ho
      rw [ho] at h
      obtain ⟨value, hi, rfl⟩ := exists_of_map_eq_ok h
      simp only [Value.isOf, isOf_eq_isFor inner hi]
    case h_3 hex ho =>
      rw [ho] at h
      dsimp only at h
      split at h
      · cases h
      · obtain ⟨bytes, -, rfl⟩ := exists_of_map_eq_ok h
        rw [Value.isOf]
    case h_4 text ho =>
      rw [ho] at h
      dsimp only at h
      split at h
      · cases h
        rw [Value.isOf]
      · cases h
    case h_5 pairs ho =>
      rw [ho] at h
      obtain ⟨entries, he, rfl⟩ := exists_of_map_eq_ok h
      simp only [Value.isOf, entriesOf_eq_pairsFor pairs he]
    case h_6 name fields ho =>
      rw [ho] at h
      obtain ⟨values, hv, rfl⟩ := exists_of_map_eq_ok h
      obtain ⟨hl, hv⟩ := fieldsOf_eq_fieldsFor fields hv
      simp only [Value.isOf, hl, hv]
    case h_7 name case ho =>
      rw [ho] at h
      cases h
      simp only [Value.isOf, payloadOf]
    case h_8 name case payload ho =>
      rw [ho] at h
      obtain ⟨value, hp, rfl⟩ := exists_of_map_eq_ok h
      simp only [Value.isOf, payloadOf, isOf_eq_isFor payload hp]
    case h_9 ho =>
      rw [ho] at h
      cases h
termination_by sizeOf json
decreasing_by
  · simp
  all_goals
    have hb := TraceObject.below_of object
    rw [‹TraceObject.of object = _›] at hb
    simp only [TraceObject.Below, Json.array.sizeOf_spec, Json.object.sizeOf_spec] at hb ⊢
    omega

theorem valuesOf_eq_itemsFor (items : List Json) : ∀ {values : List (Value β)},
    effectJsonToValues traces span items = .ok values →
      valuesOf known values = itemsFor known items := by
  intro values h
  match items with
  | [] =>
    rw [effectJsonToValues] at h
    cases h
    funext ty
    rw [valuesOf, itemsFor]
  | item :: rest =>
    rw [effectJsonToValues] at h
    obtain ⟨value, hv, h⟩ := bind_eq_ok_iff.mp h
    obtain ⟨others, ho, rfl⟩ := exists_of_map_eq_ok h
    funext ty
    rw [valuesOf, itemsFor, isOf_eq_isFor _ hv, valuesOf_eq_itemsFor _ ho]
termination_by sizeOf items

theorem entriesOf_eq_pairsFor (pairs : List Json) : ∀ {entries : List (Value β × Value β)},
    effectJsonToEntries traces span pairs = .ok entries →
      entriesOf known entries = pairsFor known pairs := by
  intro entries h
  unfold effectJsonToEntries at h
  split at h
  · cases h
    funext types
    rw [entriesOf, pairsFor]
  next key entry rest =>
    obtain ⟨first, hk, h⟩ := bind_eq_ok_iff.mp h
    obtain ⟨second, he, h⟩ := bind_eq_ok_iff.mp h
    obtain ⟨others, ho, rfl⟩ := exists_of_map_eq_ok h
    funext types
    rw [entriesOf, pairsFor, isOf_eq_isFor _ hk, isOf_eq_isFor _ he, entriesOf_eq_pairsFor _ ho]
  · cases h
termination_by sizeOf pairs

theorem fieldsOf_eq_fieldsFor (object : List (String × Json)) :
    ∀ {fields : List (String × Value β)}, effectJsonToFields traces span object = .ok fields →
      fields.length = object.length ∧ fieldsOf known fields = fieldsFor known object := by
  intro fields h
  match object with
  | [] =>
    rw [effectJsonToFields] at h
    cases h
    refine ⟨rfl, ?_⟩
    funext declared
    rw [fieldsOf, fieldsFor]
  | (name, field) :: rest =>
    rw [effectJsonToFields] at h
    obtain ⟨value, hv, h⟩ := bind_eq_ok_iff.mp h
    obtain ⟨others, ho, rfl⟩ := exists_of_map_eq_ok h
    obtain ⟨hl, ho⟩ := fieldsOf_eq_fieldsFor _ ho
    refine ⟨by simp [hl], ?_⟩
    funext declared
    rw [fieldsOf, fieldsFor, isOf_eq_isFor _ hv, ho]
termination_by sizeOf object

end

variable {values : List (String × Value β)} {texts : List (String × String)}
  {fields : List (String × Json)}

theorem planValues_eq_ok (h : planValues traces span fields texts = .ok (.ok values)) :
    List.Forall₂ (fun text value => value.1 = text.1 ∧ ∃ json, fields.lookup text.1 = some json ∧
      effectJsonToValue traces span json = .ok value.2) texts values := by
  induction texts generalizing values with
  | nil =>
    obtain rfl := Except.ok.inj (Except.ok.inj h)
    exact .nil
  | cons text rest ih =>
    rw [planValues] at h
    split at h
    · cases h
    next json hj =>
      split at h
      next value hv =>
        obtain ⟨result, hr, h⟩ := exists_of_map_eq_ok h
        cases result with
        | error message => cases h
        | ok others =>
          cases h
          exact .cons ⟨rfl, json, hj, hv⟩ (ih hr)
      · cases h
      · cases h

variable (known) in
/-- A record of a shape with a value of the declared type in every field. -/
def HasShape (name : String) (declared : List (String × Ty)) (value : Value β) : Prop :=
  ∃ values, value = .record name values ∧
    List.Forall₂ (fun value field => value.1 = field.1 ∧ value.2.isOf known field.2 = true)
      values declared

theorem typed_iff {declared : List (String × Ty)}
    (h : planValues traces span fields texts = .ok (.ok values))
    (hd : declared.map Prod.fst = texts.map Prod.fst) :
    List.Forall₂ (fun value field => value.1 = field.1 ∧ value.2.isOf known field.2 = true)
        values declared ↔
      ∀ field ∈ declared, ∃ json, fields.lookup field.1 = some json ∧
        json.isFor known field.2 = true := by
  have hv := planValues_eq_ok h
  clear h
  induction hv generalizing declared with
  | nil => simp [List.map_eq_nil_iff.mp hd]
  | @cons text value texts values hf _ ih =>
    obtain ⟨field, rest, rfl, hn, hd⟩ := List.map_eq_cons_iff.mp hd
    obtain ⟨hv, json, hj, hr⟩ := hf
    rw [List.forall₂_cons, List.forall_mem_cons, hn, hj, isOf_eq_isFor json hr]
    exact and_congr (by simp [hv]) (ih hd)

end Nivren
