import Nivren.EffectTrace
import Nivren.Types

/-! Portable plans.

`std.plans.decode` reads the fields of a plan with the reader of traces. It panics when the first
part of a plan that cannot be read is a byte text with a character that a pair of bytes cuts, and it
compares no value with the type its field is declared with.
-/

namespace Nivren

open Codec

variable {β : Type}

/-- `value.get(key)`. -/
def Json.get (key : String) : Json → Option Json
  | .object fields => fields.lookup key
  | _ => none

def resultError (message : String) : Value β := .err (.string message)

/-- The header of a plan for a shape, and the fields behind it. -/
def planFields (shape : RecordType) (parsed : Json) : Except String (List (String × Json)) :=
  let carried := (parsed.get "shape").bind Json.asStr
  if (parsed.get "schema").bind Json.asStr ≠ some "org.nivren.portable-plan.v1" then
    .error "these bytes carry an unknown plan format version"
  else if carried ≠ some shape.name then
    .error ("this plan carries shape '" ++ carried.getD "<missing>" ++ "', expected '" ++
      shape.name ++ "'")
  else match parsed.get "fields" with
  | some (.object fields) =>
    if fields.length ≠ shape.fields.length then
      .error ("this plan carries " ++ toString fields.length ++ " field(s), '" ++ shape.name ++
        "' declares " ++ toString shape.fields.length)
    else .ok fields
  | _ => .error "this plan is missing its fields"

section Decode

variable (parse : Bytes → Option Json) (traces : TraceLibrary) (span : Span)

/-- The fields that some bytes carry for a shape. -/
def planBytes (shape : RecordType) (bytes : Bytes) : Except String (List (String × Json)) :=
  if 16 * 1024 * 1024 < bytes.length then
    .error "std.plans.decode exceeds the 16777216 byte limit"
  else match parse bytes with
  | none => .error "these bytes are not a portable plan"
  | some parsed => planFields shape parsed

/-- The values of the declared fields, or the message of the first that cannot be read. -/
def planValues (fields : List (String × Json)) :
    List (String × String) → Result (Except String (List (String × Value β)))
  | [] => .ok (.ok [])
  | (name, _) :: rest =>
    match fields.lookup name with
    | none => .ok (.error ("this plan is missing field '" ++ name ++ "'"))
    | some field =>
      match effectJsonToValue traces span field with
      | .ok value => (planValues fields rest).map (·.map ((name, value) :: ·))
      | .error (.error e) => .ok (.error e.message)
      | .error .panic => .error .panic

/-- `native_plans_decode`. -/
def plansDecode (first second : Value β) : Result (Value β) :=
  match first with
  | .recordType shape =>
    match second with
    | .bytes bytes =>
      match planBytes parse shape bytes with
      | .error message => .ok (resultError message)
      | .ok fields =>
        (planValues traces span fields shape.fields).map fun
          | .ok values => .ok (.record shape.name values)
          | .error message => resultError message
    | other => fail ("std.plans.decode expects plan Bytes, found " ++ other.typeName) span
  | other =>
    fail ("std.plans.decode expects a plan shape constructor, found " ++ other.typeName) span

end Decode

/-- What the reader makes of one part of a document. -/
inductive Part
  | fine | refused | cut
deriving DecidableEq

namespace Part

/-- The first part that is not fine. -/
def first (parts : List Part) : Part := (parts.find? (· ≠ .fine)).getD .fine

theorem first_append (a b : List Part) :
    first (a ++ b) = if first a = .fine then first b else first a := by
  unfold first
  rw [List.find?_append]
  cases h : a.find? (· ≠ .fine) with
  | none => rfl
  | some part =>
    have hp : part ≠ .fine := by simpa using List.find?_some h
    simp [hp]

def ofResult {α : Type} : Result α → Part
  | .ok _ => .fine
  | .error (.error _) => .refused
  | .error .panic => .cut

variable {α γ : Type}

@[simp] theorem ofResult_map (f : α → γ) (r : Result α) : ofResult (r.map f) = ofResult r := by
  obtain (_ | _) | _ := r <;> rfl

theorem ofResult_bind (r : Result α) (f : α → Result γ) (part : Part)
    (h : ∀ a, ofResult (f a) = part) :
    ofResult (r >>= f) = if ofResult r = .fine then part else ofResult r := by
  obtain (_ | _) | a := r
  · rfl
  · rfl
  · exact h a

theorem ofResult_eq_cut {r : Result α} : ofResult r = .cut ↔ r = .error .panic := by
  obtain (_ | _) | _ := r <;> simp [ofResult]

/-- A byte text, pair by pair: a pair of bytes is to be two characters that spell a byte. -/
def ofPairs : List Char → Part
  | [] => .fine
  | [first] => if first.utf8Size = 2 then .refused else .cut
  | first :: second :: rest =>
    if first.utf8Size = 2 then .refused
    else if first.utf8Size = 1 ∧ second.utf8Size = 1 then
      if (Trust.hexByte first second).isSome then ofPairs rest else .refused
    else .cut

theorem ofResult_tracedBytes (e : NivError) (chars : List Char) :
    ofResult (tracedBytes (.error e) chars) = ofPairs chars := by
  fun_induction ofPairs chars with
  | case1 => rfl
  | case2 first hs => simp [tracedBytes, hs, ofResult]
  | case3 first hs =>
    unfold tracedBytes
    split <;> simp [ofResult]
  | case4 first second rest hs => simp [tracedBytes, hs, ofResult]
  | case5 first second rest hs hone hb ih =>
    obtain ⟨byte, hb⟩ := Option.isSome_iff_exists.mp hb
    simp [tracedBytes, hone.1, hone.2, hb, ih]
  | case6 first second rest hs hone hb =>
    simp [tracedBytes, hone.1, hone.2, Option.not_isSome_iff_eq_none.mp hb, ofResult]
  | case7 first second rest hs hone =>
    unfold tracedBytes
    split
    · rename_i h
      simp [h] at hone
      simp [hone, ofResult]
    · simp [ofResult]

def ofHex (hex : String) : Part :=
  if hex.utf8ByteSize % 2 ≠ 0 then .refused else ofPairs hex.toList

end Part

section Visits

variable (traces : TraceLibrary)

mutual

/-- The parts of a document in the order they are read. -/
def visits : Json → List Part
  | .array items => visitsAll items
  | .object object =>
    have _hbelow := TraceObject.below_of object
    match _h : TraceObject.of object with
    | .ok inner | .err inner | .choice _ _ (some inner) => visits inner
    | .bytes hex => [.ofHex hex]
    | .dateTime text => [if (traces.parseZoned text).isSome then .fine else .refused]
    | .map pairs => visitsPairs pairs
    | .shape _ fields => visitsFields fields
    | .choice _ _ none => []
    | .unknown => [.refused]
  | _ => []
termination_by json => sizeOf json
decreasing_by
  all_goals simp_all [TraceObject.Below] <;> omega

def visitsAll : List Json → List Part
  | [] => []
  | value :: rest => visits value ++ visitsAll rest
termination_by values => sizeOf values

def visitsPairs : List Json → List Part
  | [] => []
  | .array [key, entry] :: rest => visits key ++ visits entry ++ visitsPairs rest
  | _ :: _ => [.refused]
termination_by pairs => sizeOf pairs

def visitsFields : List (String × Json) → List Part
  | [] => []
  | (_, field) :: rest => visits field ++ visitsFields rest
termination_by fields => sizeOf fields

end

variable {traces}

mutual

/-- A document is read as far as its first bad part. -/
theorem first_visits (span : Span) (json : Json) :
    Part.ofResult (effectJsonToValue traces span json : Result (Value β)) =
      Part.first (visits traces json) := by
  match json with
  | .null | .bool _ | .float _ | .string _ =>
    simp [effectJsonToValue, visits, Part.ofResult, Part.first]
  | .integer number =>
    simp only [effectJsonToValue, visits]
    split <;> rfl
  | .array items =>
    rw [effectJsonToValue, visits, ← first_visitsAll span items]
    exact Part.ofResult_map Value.array _
  | .object object =>
    rw [visits]
    split
    case h_1 | h_2 | h_3 =>
      rename_i ho
      rw [effectJsonToValue_object, ho]
      simpa only [Part.ofResult_map] using first_visits span _
    all_goals
      rename_i ho
      rw [effectJsonToValue_object, ho]
      dsimp only
    case h_4 hex =>
      rw [Part.ofHex]
      split
      · rfl
      · rw [Part.ofResult_map, invalidEntry, Part.ofResult_tracedBytes]
        cases Part.ofPairs hex.toList <;> rfl
    case h_5 text => cases traces.parseZoned text <;> rfl
    case h_6 pairs => rw [Part.ofResult_map, first_visitsPairs span pairs]
    case h_7 name fields => rw [Part.ofResult_map, first_visitsFields span fields]
    case h_8 | h_9 => rfl
termination_by sizeOf json
decreasing_by
  · simp
  all_goals
    have hb := TraceObject.below_of object
    rw [‹TraceObject.of object = _›] at hb
    simp only [TraceObject.Below, Json.array.sizeOf_spec, Json.object.sizeOf_spec] at hb ⊢
    omega

theorem first_visitsAll (span : Span) (items : List Json) :
    Part.ofResult (effectJsonToValues traces span items : Result (List (Value β))) =
      Part.first (visitsAll traces items) := by
  match items with
  | [] => simp [effectJsonToValues, visitsAll, Part.ofResult, Part.first]
  | item :: rest =>
    rw [effectJsonToValues, visitsAll, Part.first_append, ← first_visits span item,
      ← first_visitsAll span rest]
    exact Part.ofResult_bind _ _ _ fun value => Part.ofResult_map _ _
termination_by sizeOf items

theorem first_visitsPairs (span : Span) (pairs : List Json) :
    Part.ofResult (effectJsonToEntries traces span pairs : Result (List (Value β × Value β))) =
      Part.first (visitsPairs traces pairs) := by
  match pairs with
  | [] => simp [effectJsonToEntries, visitsPairs, Part.ofResult, Part.first]
  | pair :: rest =>
    by_cases h : ∃ key entry, pair = .array [key, entry]
    · obtain ⟨key, entry, rfl⟩ := h
      rw [effectJsonToEntries, visitsPairs, List.append_assoc, Part.first_append,
        Part.first_append, ← first_visits span key, ← first_visits span entry,
        ← first_visitsPairs span rest]
      exact Part.ofResult_bind _ _ _ fun key => Part.ofResult_bind _ _ _ fun entry =>
        Part.ofResult_map _ _
    · rw [effectJsonToEntries, visitsPairs]
      · rfl
      all_goals exact fun key entry he => h ⟨key, entry, he⟩
termination_by sizeOf pairs

theorem first_visitsFields (span : Span) (fields : List (String × Json)) :
    Part.ofResult (effectJsonToFields traces span fields : Result (List (String × Value β))) =
      Part.first (visitsFields traces fields) := by
  match fields with
  | [] => simp [effectJsonToFields, visitsFields, Part.ofResult, Part.first]
  | (name, field) :: rest =>
    rw [effectJsonToFields, visitsFields, Part.first_append, ← first_visits span field,
      ← first_visitsFields span rest]
    exact Part.ofResult_bind _ _ _ fun value => Part.ofResult_map _ _
termination_by sizeOf fields

end

variable (traces) in
/-- The parts of a declared field of a plan. -/
def fieldParts (fields : List (String × Json)) (field : String × String) : List Part :=
  match fields.lookup field.1 with
  | none => [.refused]
  | some json => visits traces json

theorem planValues_eq_panic {span : Span} {fields : List (String × Json)}
    {declared : List (String × String)} :
    (planValues traces span fields declared : Result (Except String (List (String × Value β)))) =
        .error .panic ↔ Part.first (declared.flatMap (fieldParts traces fields)) = .cut := by
  induction declared with
  | nil => simp [planValues, Part.first]
  | cons field rest ih =>
    obtain ⟨name, text⟩ := field
    rw [List.flatMap_cons, Part.first_append, planValues, fieldParts]
    cases fields.lookup name with
    | none => simp [Part.first]
    | some json =>
      dsimp only
      rw [← first_visits (β := β) span json]
      cases effectJsonToValue traces span json with
      | error failure => cases failure <;> simp [Part.ofResult]
      | ok value =>
        simp only [Part.ofResult, if_true, ← ih]
        cases planValues traces span fields rest <;> simp [Except.map]

/-- Reading a trace entry or a plan panics exactly when the first bad part is a byte text that a
pair of bytes cuts inside a character. -/
theorem reading_panics_iff (parse : Bytes → Option Json) (traces : TraceLibrary) (span : Span) :
    (∀ json, (effectJsonToValue traces span json : Result (Value β)) = .error .panic ↔
      Part.first (visits traces json) = .cut) ∧
    ∀ first second : Value β, plansDecode parse traces span first second = .error .panic ↔
      ∃ shape bytes fields, first = .recordType shape ∧ second = .bytes bytes ∧
        planBytes parse shape bytes = .ok fields ∧
        Part.first (shape.fields.flatMap (fieldParts traces fields)) = .cut := by
  refine ⟨fun json => by rw [← first_visits (β := β) span, Part.ofResult_eq_cut],
    fun first second => ⟨fun h => ?_, ?_⟩⟩
  · unfold plansDecode at h
    split at h
    next shape =>
      split at h
      next bytes =>
        split at h
        · cases h
        next fields hf =>
          refine ⟨shape, bytes, fields, rfl, rfl, hf, ?_⟩
          rw [← Part.ofResult_eq_cut, Part.ofResult_map, Part.ofResult_eq_cut] at h
          exact planValues_eq_panic.mp h
      · cases h
    · cases h
  · rintro ⟨shape, bytes, fields, rfl, rfl, hf, hc⟩
    simp only [plansDecode, hf, planValues_eq_panic.mpr hc]
    rfl

/-- The first pair of bytes of `aé0` ends inside a character. -/
theorem reading_cut_panics :
    let traces : TraceLibrary := ⟨fun _ => 0, fun _ => none⟩
    let field : Json := .object [("$bytes", .string "aé0")]
    let plan : Json := .object [("fields", .object [("key", field)]),
      ("schema", .string "org.nivren.portable-plan.v1"), ("shape", .string "Order")]
    (effectJsonToValue traces ⟨1, 1⟩ field : Result (Value Unit)) = .error .panic ∧
      plansDecode (fun _ => some plan) traces ⟨1, 1⟩
        (.recordType ⟨0, "Order", [("key", "Bytes")], [], [], []⟩)
        (.bytes [] : Value Unit) = .error .panic := by
  intro traces field plan
  have hf : (effectJsonToValue traces ⟨1, 1⟩ field : Result (Value Unit)) = .error .panic := by
    rw [← Part.ofResult_eq_cut, first_visits, visits]
    simp [TraceObject.of, List.lookup]
    decide +kernel
  refine ⟨hf, ?_⟩
  simp [plansDecode, planBytes, planFields, planValues, plan, Json.get, Json.asStr, List.lookup, hf]
  rfl

end Visits

end Nivren
