import Nivren.Value
import Nivren.Json
import Nivren.Registry.Documents

/-! Effect results in a trace.

A recorded effect result is written as a JSON value and read back at replay. Bytes, dates, maps,
shapes and choices are objects with a marker; a value with live state is refused. A result is read
back as it was recorded unless it holds a choice that carries `none` or a shape whose fields are not
declared in the order of their names.
-/

namespace Nivren

open Codec

variable {β : Type}

structure TraceLibrary where
  /-- `Number::as_f64` of an integer above the range of `i64`. -/
  floatOfInteger : ℤ → UInt64
  /-- The text of the `Zoned` that a text is parsed as. -/
  parseZoned : String → Option String

/-- An object with the given fields, as the `json!` macro builds it. -/
def Json.ofFields (fields : List (String × Json)) : Json :=
  .object (fields.foldl (fun object field => Json.insertField field.1 field.2 object) [])

mutual

def effectValueToJson (lib : RustLibrary) : Value β → Except String Json
  | .null => .ok .null
  | .bool inner => .ok (.bool inner)
  | .int inner => .ok (.integer inner)
  | .float inner =>
    if lib.floatIsFinite inner then .ok (.float inner)
    else .error "a non-finite float has no trace form"
  | .string inner => .ok (.string inner)
  | .bytes bytes => .ok (.ofFields [("$bytes", .string (Trust.encodeHex bytes))])
  | .dateTime zoned => .ok (.ofFields [("$datetime", .string zoned)])
  | .ok inner => do return .ofFields [("$ok", ← effectValueToJson lib inner)]
  | .err inner => do return .ofFields [("$err", ← effectValueToJson lib inner)]
  | .array values => do return .array (← effectValuesToJson lib values)
  | .map entries => do return .ofFields [("$map", .array (← effectEntriesToJson lib entries))]
  | .record typeName fields => do
    return .ofFields
      [("$shape", .string typeName), ("$fields", .ofFields (← effectFieldsToJson lib fields))]
  | .enum typeName variant payload => do
    let payload ← effectPayloadToJson lib payload
    return .ofFields
      [("$choice", .string typeName), ("$case", .string variant), ("$payload", payload)]
  | other => .error (other.typeName ++ " values hold live state a trace cannot carry")

def effectValuesToJson (lib : RustLibrary) : List (Value β) → Except String (List Json)
  | [] => .ok []
  | value :: rest => do
    return (← effectValueToJson lib value) :: (← effectValuesToJson lib rest)

def effectEntriesToJson (lib : RustLibrary) : List (Value β × Value β) → Except String (List Json)
  | [] => .ok []
  | (key, entry) :: rest => do
    let pair := [← effectValueToJson lib key, ← effectValueToJson lib entry]
    return .array pair :: (← effectEntriesToJson lib rest)

def effectFieldsToJson (lib : RustLibrary) :
    List (String × Value β) → Except String (List (String × Json))
  | [] => .ok []
  | (name, field) :: rest => do
    return (name, ← effectValueToJson lib field) :: (← effectFieldsToJson lib rest)

/-- A missing payload is written as `null`. -/
def effectPayloadToJson (lib : RustLibrary) : Option (Value β) → Except String Json
  | none => .ok .null
  | some payload => effectValueToJson lib payload

end

/-- A text in pairs of bytes, each pair a byte. Cutting a character of several bytes panics. -/
def tracedBytes (invalid : Failure) : List Char → Result Bytes
  | [] => .ok []
  | first :: rest =>
    if first.utf8Size = 1 then
      match rest with
      | [] => .error .panic
      | second :: rest =>
        if second.utf8Size = 1 then
          match Trust.hexByte first second with
          | none => .error invalid
          | some byte => (tracedBytes invalid rest).map (byte :: ·)
        else .error .panic
    else if first.utf8Size = 2 then .error invalid
    else .error .panic

theorem Json.sizeOf_lookup {key : String} {fields : List (String × Json)} {value : Json}
    (h : fields.lookup key = some value) : sizeOf value < sizeOf (Json.object fields) := by
  induction fields with
  | nil => simp at h
  | cons field rest ih =>
    obtain ⟨name, first⟩ := field
    rw [List.lookup_cons] at h
    split at h
    · cases h
      simp only [Json.object.sizeOf_spec, List.cons.sizeOf_spec, Prod.mk.sizeOf_spec]
      omega
    · have hr := ih h
      simp only [Json.object.sizeOf_spec, List.cons.sizeOf_spec] at hr ⊢
      omega

/-- What the markers of an object say it is. -/
inductive TraceObject
  | ok (inner : Json)
  | err (inner : Json)
  | bytes (hex : String)
  | dateTime (text : String)
  | map (pairs : List Json)
  | shape (name : String) (fields : List (String × Json))
  | choice (name case : String) (payload : Option Json)
  | unknown

/-- The branch of `effect_json_to_value` that an object takes: the first marker decides. -/
def TraceObject.of (object : List (String × Json)) : TraceObject :=
  if let some inner := object.lookup "$ok" then .ok inner
  else if let some inner := object.lookup "$err" then .err inner
  else if let some (.string hex) := object.lookup "$bytes" then .bytes hex
  else if let some (.string text) := object.lookup "$datetime" then .dateTime text
  else if let some (.array pairs) := object.lookup "$map" then .map pairs
  else if let (some (.string name), some (.object fields)) :=
    (object.lookup "$shape", object.lookup "$fields") then .shape name fields
  else if let (some (.string name), some (.string case)) :=
    (object.lookup "$choice", object.lookup "$case") then
    match object.lookup "$payload" with
    | none | some .null => .choice name case none
    | some payload => .choice name case (some payload)
  else .unknown

def TraceObject.Below (size : ℕ) : TraceObject → Prop
  | .ok inner | .err inner | .choice _ _ (some inner) => sizeOf inner < size
  | .map pairs => sizeOf (Json.array pairs) < size
  | .shape _ fields => sizeOf (Json.object fields) < size
  | _ => True

theorem TraceObject.below_of (object : List (String × Json)) :
    (TraceObject.of object).Below (sizeOf (Json.object object)) := by
  unfold TraceObject.of
  split
  · exact Json.sizeOf_lookup ‹_›
  split
  · exact Json.sizeOf_lookup ‹_›
  split
  · trivial
  split
  · trivial
  split
  · exact Json.sizeOf_lookup ‹_›
  split
  · rename_i heq
    exact Json.sizeOf_lookup (Prod.mk.inj heq).2
  split
  · split
    · trivial
    · trivial
    · exact Json.sizeOf_lookup ‹_›
  · trivial

section Read

variable (traces : TraceLibrary) (span : Span)

def invalidEntry (reason : String) : Failure :=
  .error (errorAt ("invalid trace entry: " ++ reason) span)

mutual

def effectJsonToValue : Json → Result (Value β)
  | .null => .ok .null
  | .bool inner => .ok (.bool inner)
  | .integer number =>
    match Width.i64.fit number with
    | some integer => .ok (.int integer)
    | none => .ok (.float (traces.floatOfInteger number))
  | .float bits => .ok (.float bits)
  | .string inner => .ok (.string inner)
  | .array values => do return .array (← effectJsonToValues values)
  | .object object =>
    have _hbelow := TraceObject.below_of object
    match _h : TraceObject.of object with
    | .ok inner => do return .ok (← effectJsonToValue inner)
    | .err inner => do return .err (← effectJsonToValue inner)
    | .bytes hex =>
      if hex.utf8ByteSize % 2 ≠ 0 then .error (invalidEntry span "odd byte text")
      else (tracedBytes (invalidEntry span "non-hex byte text") hex.toList).map .bytes
    | .dateTime text =>
      match traces.parseZoned text with
      | some zoned => .ok (.dateTime zoned)
      | none => .error (invalidEntry span "unparseable date/time")
    | .map pairs => do return .map (← effectJsonToEntries pairs)
    | .shape name fields => do return .record name (← effectJsonToFields fields)
    | .choice name case none => .ok (.enum name case none)
    | .choice name case (some payload) => do
      return .enum name case (some (← effectJsonToValue payload))
    | .unknown => .error (invalidEntry span "unknown object marker")
termination_by json => sizeOf json
decreasing_by
  all_goals simp_all [TraceObject.Below] <;> omega

def effectJsonToValues : List Json → Result (List (Value β))
  | [] => .ok []
  | value :: rest => do return (← effectJsonToValue value) :: (← effectJsonToValues rest)
termination_by values => sizeOf values

def effectJsonToEntries : List Json → Result (List (Value β × Value β))
  | [] => .ok []
  | .array [key, entry] :: rest => do
    return (← effectJsonToValue key, ← effectJsonToValue entry) :: (← effectJsonToEntries rest)
  | _ :: _ => .error (invalidEntry span "map entry is not a pair")
termination_by pairs => sizeOf pairs

def effectJsonToFields : List (String × Json) → Result (List (String × Value β))
  | [] => .ok []
  | (name, field) :: rest => do
    return (name, ← effectJsonToValue field) :: (← effectJsonToFields rest)
termination_by fields => sizeOf fields

end

end Read

theorem effectJsonToValue_object (traces : TraceLibrary) (span : Span)
    (object : List (String × Json)) :
    (effectJsonToValue traces span (.object object) : Result (Value β)) =
      match TraceObject.of object with
      | .ok inner => (effectJsonToValue traces span inner).map .ok
      | .err inner => (effectJsonToValue traces span inner).map .err
      | .bytes hex =>
        if hex.utf8ByteSize % 2 ≠ 0 then .error (invalidEntry span "odd byte text")
        else (tracedBytes (invalidEntry span "non-hex byte text") hex.toList).map .bytes
      | .dateTime text =>
        match traces.parseZoned text with
        | some zoned => .ok (.dateTime zoned)
        | none => .error (invalidEntry span "unparseable date/time")
      | .map pairs => (effectJsonToEntries traces span pairs).map .map
      | .shape name fields => (effectJsonToFields traces span fields).map (.record name)
      | .choice name case none => .ok (.enum name case none)
      | .choice name case (some payload) =>
        (effectJsonToValue traces span payload).map fun payload => .enum name case (some payload)
      | .unknown => .error (invalidEntry span "unknown object marker") := by
  rw [effectJsonToValue]
  split <;> simp only [*] <;> rfl

end Nivren
