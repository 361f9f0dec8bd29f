import Nivren.EffectTrace
import Nivren.BareHost

/-! What an effect trace preserves.

A recorded value is read back as it was exactly when no choice inside it carries `none` and every
shape inside it has its fields in the order of their names.
-/

namespace Nivren

open Codec List

variable {β : Type}

namespace Value

mutual

/-- A value and every value inside it. -/
def parts : Value β → List (Value β)
  | .array values => .array values :: partsList values
  | .set values => .set values :: partsList values
  | .map entries => .map entries :: partsEntries entries
  | .record typeName fields => .record typeName fields :: partsFields fields
  | .module id members => .module id members :: partsFields members
  | .enum typeName variant payload => .enum typeName variant payload :: partsOption payload
  | .ok value => .ok value :: parts value
  | .err value => .err value :: parts value
  | .earlyReturn value => .earlyReturn value :: parts value
  | other => [other]

def partsList : List (Value β) → List (Value β)
  | [] => []
  | value :: rest => parts value ++ partsList rest

def partsEntries : List (Value β × Value β) → List (Value β)
  | [] => []
  | (key, value) :: rest => parts key ++ parts value ++ partsEntries rest

def partsFields : List (String × Value β) → List (Value β)
  | [] => []
  | (_, value) :: rest => parts value ++ partsFields rest

def partsOption : Option (Value β) → List (Value β)
  | none => []
  | some value => parts value

end

abbrev InOrder (fields : List (String × Value β)) : Prop := (fields.map Prod.fst).Pairwise (· < ·)

/-- The trace keeps the form of a value: the presence of its payload, the order of its fields. -/
def KeepsForm : Value β → Prop
  | .enum _ _ (some .null) => False
  | .record _ fields => InOrder fields
  | _ => True

/-- A value of the runtime: an `Int` fits in 64 bits, and a date is the one its text is parsed as. -/
def Genuine (traces : TraceLibrary) : Value β → Prop
  | .int number => Width.i64.fit number = some number
  | .dateTime text => traces.parseZoned text = some text
  | _ => True

def Traceable (value : Value β) : Prop := ∀ part ∈ value.parts, part.KeepsForm

end Value

variable {object : List (String × Json)}

namespace Json

abbrev Sorted (fields : List (String × Json)) : Prop := (fields.map Prod.fst).Pairwise (· < ·)

variable {fields : List (String × Json)} {key : String} {value : Json}

theorem mem_insertField {name : String} :
    name ∈ (insertField key value fields).map Prod.fst → name = key ∨ name ∈ fields.map Prod.fst := by
  induction fields with
  | nil => simp [insertField]
  | cons field rest ih =>
    obtain ⟨other, old⟩ := field
    rw [insertField]
    split
    · simp
      tauto
    split
    · simp
    · intro h
      rcases mem_cons.mp h with rfl | h
      · simp
      · rcases ih h with rfl | h
        · exact .inl rfl
        · exact .inr (mem_cons_of_mem _ h)

theorem sorted_insertField (h : Sorted fields) : Sorted (insertField key value fields) := by
  induction fields with
  | nil => simp [insertField, Sorted]
  | cons field rest ih =>
    obtain ⟨other, old⟩ := field
    obtain ⟨hf, hr⟩ := pairwise_cons.mp h
    rw [insertField]
    split_ifs with hkey hl
    · subst hkey
      exact h
    · refine pairwise_cons.mpr ⟨fun name hn => ?_, h⟩
      rcases mem_cons.mp hn with rfl | hn
      · exact hl
      · exact hl.trans (hf _ hn)
    · refine pairwise_cons.mpr ⟨fun name hn => ?_, ih hr⟩
      rcases mem_insertField hn with rfl | hn
      · exact lt_of_le_of_ne (not_lt.mp hl) (Ne.symm hkey)
      · exact hf _ hn

theorem insertField_append (h : ∀ name ∈ fields.map Prod.fst, name < key) :
    insertField key value fields = fields ++ [(key, value)] := by
  induction fields with
  | nil => rfl
  | cons field rest ih =>
    obtain ⟨other, old⟩ := field
    have hot : other < key := h other (by simp)
    rw [insertField, if_neg hot.ne', if_neg hot.not_gt,
      ih fun name hn => h name (mem_cons_of_mem _ hn), cons_append]

theorem sorted_foldl (h : Sorted object) :
    Sorted (fields.foldl (fun object field => insertField field.1 field.2 object) object) := by
  induction fields generalizing object with
  | nil => exact h
  | cons field rest ih => exact ih (sorted_insertField h)

theorem foldl_of_sorted {fields object : List (String × Json)} (h : Sorted (object ++ fields)) :
    fields.foldl (fun object field => insertField field.1 field.2 object) object =
      object ++ fields := by
  induction fields generalizing object with
  | nil => simp
  | cons field rest ih =>
    have hl : ∀ name ∈ object.map Prod.fst, name < field.1 := by
      intro name hn
      rw [Sorted, map_append, pairwise_append] at h
      exact h.2.2 name hn field.1 (by simp)
    rw [foldl_cons, insertField_append hl, ih (by simpa using h)]
    simp

theorem ofFields_eq (h : ofFields fields = .object object) :
    Sorted object ∧ (Sorted fields → object = fields) := by
  rw [ofFields, Json.object.injEq] at h
  subst h
  exact ⟨sorted_foldl .nil, fun hso => by
    simpa using @foldl_of_sorted fields [] hso⟩

end Json

theorem hexByte_hexDigit (byte : UInt8) :
    Trust.hexByte (Text.hexDigit (byte.toNat / 16)) (Text.hexDigit (byte.toNat % 16)) = some byte := by
  have hv : ∀ k < 16, Trust.hexValue (Text.hexDigit k) = some k := by decide
  have hsi : ∀ k < 16, Text.hexDigit k ≠ '+' := by decide
  have hb := byte.toNat_lt
  rw [Trust.hexByte, if_neg (hsi _ (by omega)), hv _ (by omega), hv _ (by omega)]
  have hsum : 16 * (byte.toNat / 16) + byte.toNat % 16 = byte.toNat := by omega
  exact congrArg some (by rw [hsum, UInt8.ofNat_toNat])

theorem tracedBytes_encodeHex (invalid : Failure) (bytes : Bytes) :
    tracedBytes invalid (Trust.encodeHex bytes).toList = .ok bytes := by
  have hsi : ∀ k < 16, (Text.hexDigit k).utf8Size = 1 := by decide
  rw [Trust.encodeHex, String.toList_ofList]
  induction bytes with
  | nil => rfl
  | cons byte rest ih =>
    have hb := byte.toNat_lt
    rw [flatMap_cons]
    simp only [cons_append, nil_append, tracedBytes]
    rw [if_pos (hsi _ (by omega)), if_pos (hsi _ (by omega)), hexByte_hexDigit, ih]
    rfl

theorem utf8ByteSize_encodeHex (bytes : Bytes) :
    (Trust.encodeHex bytes).utf8ByteSize = 2 * bytes.length := by
  have hsi : ∀ k < 16, (Text.hexDigit k).utf8Size = 1 := by decide
  rw [Trust.encodeHex, String.utf8ByteSize_ofList]
  induction bytes with
  | nil => rfl
  | cons byte rest ih =>
    have hb := byte.toNat_lt
    rw [flatMap_cons]
    simp only [cons_append, nil_append, String.utf8Len_cons, ih, length_cons,
      hsi _ (show byte.toNat / 16 < 16 by omega), hsi _ (show byte.toNat % 16 < 16 by omega)]
    omega

section Back

variable {lib : RustLibrary} {traces : TraceLibrary} {span : Span}

theorem map_eq_ok_iff {ε α γ : Type} {f : α → γ} (hf : Function.Injective f) {x : Except ε α}
    {a : α} : x.map f = .ok (f a) ↔ x = .ok a := by
  cases x with
  | error e => simp [Except.map]
  | ok b => simp [Except.map, hf.eq_iff]

variable {fields : List (String × Value β)}

theorem effectFieldsToJson_names {written : List (String × Json)}
    (h : effectFieldsToJson lib fields = .ok written) :
    written.map Prod.fst = fields.map Prod.fst := by
  induction fields generalizing written with
  | nil =>
    cases h
    rfl
  | cons field rest ih =>
    obtain ⟨name, value⟩ := field
    rw [effectFieldsToJson] at h
    obtain ⟨json, -, h⟩ := bind_eq_ok_iff.mp h
    obtain ⟨others, hot, h⟩ := bind_eq_ok_iff.mp h
    cases h
    simp [ih hot]

theorem effectJsonToFields_names (h : effectJsonToFields traces span object = .ok fields) :
    fields.map Prod.fst = object.map Prod.fst := by
  induction object generalizing fields with
  | nil =>
    rw [effectJsonToFields] at h
    cases h
    rfl
  | cons field rest ih =>
    obtain ⟨name, json⟩ := field
    rw [effectJsonToFields] at h
    obtain ⟨value, -, h⟩ := bind_eq_ok_iff.mp h
    obtain ⟨others, hot, h⟩ := bind_eq_ok_iff.mp h
    cases h
    simp [ih hot]

theorem eq_null_of_effectValueToJson {value : Value β}
    (h : effectValueToJson lib value = .ok .null) : value = .null := by
  cases value with
  | null => rfl
  | _ => 
    simp only [effectValueToJson] at h
    first
    | cases h
    | (split at h <;> cases h)
    | (obtain ⟨json, -, h⟩ := bind_eq_ok_iff.mp h; cases h)

end Back

namespace TraceObject

theorem of_ok (inner : Json) : of [("$ok", inner)] = .ok inner := by simp [of, lookup]

theorem of_err (inner : Json) : of [("$err", inner)] = .err inner := by simp [of, lookup]

theorem of_bytes (hex : String) : of [("$bytes", .string hex)] = .bytes hex := by
  simp [of, lookup]

theorem of_dateTime (text : String) : of [("$datetime", .string text)] = .dateTime text := by
  simp [of, lookup]

theorem of_map (pairs : List Json) : of [("$map", .array pairs)] = .map pairs := by
  simp [of, lookup]

end TraceObject

theorem Json.ofFields_singleton (field : String × Json) : ofFields [field] = .object [field] := rfl

section Forms

variable (traces : TraceLibrary) (span : Span)

theorem read_shape (name : String) (object : List (String × Json)) : (effectJsonToValue traces span
      (.ofFields [("$shape", .string name), ("$fields", .object object)]) : Result (Value β)) =
      (effectJsonToFields traces span object).map (.record name) := by
  have hor : ("$fields" : String) < "$shape" := by decide
  have hf : Json.ofFields [("$shape", .string name), ("$fields", .object object)] =
      .object [("$fields", .object object), ("$shape", .string name)] := by
    simp [Json.ofFields, Json.insertField, hor]
  have hm : TraceObject.of [("$fields", .object object), ("$shape", .string name)] =
      .shape name object := by
    simp [TraceObject.of, lookup]
  rw [hf, effectJsonToValue_object, hm]

theorem read_choice (name case : String) (payload : Json) :
    (effectJsonToValue traces span (.ofFields
      [("$choice", .string name), ("$case", .string case), ("$payload", payload)]) :
        Result (Value β)) =
      match payload with
      | .null => .ok (.enum name case none)
      | payload =>
        (effectJsonToValue traces span payload).map fun payload => .enum name case (some payload) := by
  have hf : ("$case" : String) < "$choice" := by decide
  have hse : ¬ ("$payload" : String) < "$case" := by decide
  have hth : ¬ ("$payload" : String) < "$choice" := by decide
  have hfo : Json.ofFields
      [("$choice", .string name), ("$case", .string case), ("$payload", payload)] =
      .object [("$case", .string case), ("$choice", .string name), ("$payload", payload)] := by
    simp [Json.ofFields, Json.insertField, hf, hse, hth]
  rw [hfo, effectJsonToValue_object]
  cases payload <;> simp [TraceObject.of, lookup]

end Forms

section Back

open Value

variable {lib : RustLibrary} {traces : TraceLibrary} {span : Span}

mutual

theorem reads_value (value : Value β) {json : Json} (hw : effectValueToJson lib value = .ok json)
    (hg : ∀ part ∈ value.parts, part.Genuine traces) :
    effectJsonToValue traces span json = .ok value ↔ ∀ part ∈ value.parts, part.KeepsForm := by
  cases value
  case null | bool _ | string _ =>
    cases hw
    simp [effectJsonToValue, parts, KeepsForm]
  case int inner =>
    cases hw
    have hfit : Width.i64.fit inner = some inner := hg (.int inner) (by simp [parts])
    simp [effectJsonToValue, parts, KeepsForm, hfit]
  case float inner =>
    rw [effectValueToJson] at hw
    split at hw
    · cases hw
      simp [effectJsonToValue, parts, KeepsForm]
    · cases hw
  case bytes data =>
    cases hw
    rw [Json.ofFields_singleton, effectJsonToValue_object, TraceObject.of_bytes]
    have hev : (Trust.encodeHex data).utf8ByteSize % 2 = 0 := by
      rw [utf8ByteSize_encodeHex]
      omega
    simp [hev, tracedBytes_encodeHex, parts, KeepsForm, Except.map]
  case dateTime text =>
    cases hw
    have hpa : traces.parseZoned text = some text := hg (.dateTime text) (by simp [parts])
    rw [Json.ofFields_singleton, effectJsonToValue_object, TraceObject.of_dateTime]
    simp [hpa, parts, KeepsForm]
  case ok inner =>
    rw [effectValueToJson] at hw
    obtain ⟨written, hin, hw⟩ := bind_eq_ok_iff.mp hw
    cases hw
    rw [Json.ofFields_singleton, effectJsonToValue_object, TraceObject.of_ok]
    rw [parts, forall_mem_cons] at hg ⊢
    rw [map_eq_ok_iff fun _ _ => Value.ok.inj, reads_value inner hin hg.2]
    simp [KeepsForm]
  case err inner =>
    obtain ⟨written, hin, hw⟩ := bind_eq_ok_iff.mp hw
    cases hw
    rw [Json.ofFields_singleton, effectJsonToValue_object, TraceObject.of_err]
    rw [parts, forall_mem_cons] at hg ⊢
    rw [map_eq_ok_iff fun _ _ => Value.err.inj, reads_value inner hin hg.2]
    simp [KeepsForm]
  case array values =>
    obtain ⟨written, hv, hw⟩ := bind_eq_ok_iff.mp hw
    cases hw
    rw [parts, forall_mem_cons] at hg ⊢
    rw [effectJsonToValue]
    change Except.map _ _ = _ ↔ _
    rw [map_eq_ok_iff fun _ _ => Value.array.inj, reads_values values hv hg.2]
    simp [KeepsForm]
  case map entries =>
    obtain ⟨written, hen, hw⟩ := bind_eq_ok_iff.mp hw
    cases hw
    rw [Json.ofFields_singleton, effectJsonToValue_object, TraceObject.of_map]
    rw [parts, forall_mem_cons] at hg ⊢
    rw [map_eq_ok_iff fun _ _ => Value.map.inj, reads_entries entries hen hg.2]
    simp [KeepsForm]
  case record typeName fields =>
    obtain ⟨written, hf, hw⟩ := bind_eq_ok_iff.mp hw
    cases hw
    obtain ⟨object, hob⟩ : ∃ object, Json.ofFields written = .object object := ⟨_, rfl⟩
    obtain ⟨hso, hke⟩ := Json.ofFields_eq hob
    rw [parts, forall_mem_cons] at hg ⊢
    rw [hob, read_shape, map_eq_ok_iff fun _ _ h => (Value.record.inj h).2]
    have hna := effectFieldsToJson_names hf
    constructor
    · intro hr
      have hor : InOrder fields := by
        rw [InOrder, effectJsonToFields_names hr]
        exact hso
      rw [hke (by rw [Json.Sorted, hna]; exact hor)] at hr
      exact ⟨hor, (reads_fields fields hf hg.2).mp hr⟩
    · rintro ⟨hor, hpr⟩
      rw [hke (by rw [Json.Sorted, hna]; exact hor)]
      exact (reads_fields fields hf hg.2).mpr hpr
  case enum typeName variant payload =>
    cases payload with
    | none =>
      cases hw
      rw [read_choice]
      simp [parts, partsOption, KeepsForm]
    | some payload =>
      rw [effectValueToJson, effectPayloadToJson] at hw
      obtain ⟨written, hp, hw⟩ := bind_eq_ok_iff.mp hw
      cases hw
      rw [parts, partsOption, forall_mem_cons] at hg ⊢
      have ih := reads_value payload hp hg.2
      rw [read_choice]
      by_cases hn : written = .null
      · subst hn
        obtain rfl := eq_null_of_effectValueToJson hp
        simp [KeepsForm]
      · have hkp : (Value.enum typeName variant (some payload)).KeepsForm := by
          unfold KeepsForm
          split <;> simp_all [effectValueToJson]
        rw [← ih, and_iff_right hkp]
        split
        · contradiction
        · exact map_eq_ok_iff fun _ _ h => Option.some.inj (Value.enum.inj h).2.2
  all_goals simp [effectValueToJson] at hw

theorem reads_values : ∀ (values : List (Value β)) {written : List Json},
    effectValuesToJson lib values = .ok written →
    (∀ part ∈ partsList values, part.Genuine traces) →
    (effectJsonToValues traces span written = .ok values ↔
      ∀ part ∈ partsList values, part.KeepsForm)
  | [], written, hw, _ => by
    cases hw
    simp [effectJsonToValues, partsList]
  | value :: rest, written, hw, hg => by
    obtain ⟨first, hf, hw⟩ := bind_eq_ok_iff.mp hw
    obtain ⟨others, hot, hw⟩ := bind_eq_ok_iff.mp hw
    cases hw
    rw [partsList, forall_mem_append] at hg ⊢
    rw [← reads_value value hf hg.1, ← reads_values rest hot hg.2, effectJsonToValues]
    simp only [bind_eq_ok_iff]
    constructor
    · rintro ⟨_, h₁, _, h₂, h⟩
      obtain ⟨rfl, rfl⟩ := cons.inj (Except.ok.inj h)
      exact ⟨h₁, h₂⟩
    · rintro ⟨h₁, h₂⟩
      exact ⟨_, h₁, _, h₂, rfl⟩

theorem reads_entries : ∀ (entries : List (Value β × Value β)) {written : List Json},
    effectEntriesToJson lib entries = .ok written →
    (∀ part ∈ partsEntries entries, part.Genuine traces) →
    (effectJsonToEntries traces span written = .ok entries ↔
      ∀ part ∈ partsEntries entries, part.KeepsForm)
  | [], written, hw, _ => by
    cases hw
    simp [effectJsonToEntries, partsEntries]
  | (key, value) :: rest, written, hw, hg => by
    obtain ⟨first, hf, hw⟩ := bind_eq_ok_iff.mp hw
    obtain ⟨second, hse, hw⟩ := bind_eq_ok_iff.mp hw
    obtain ⟨others, hot, hw⟩ := bind_eq_ok_iff.mp hw
    cases hw
    rw [partsEntries, forall_mem_append, forall_mem_append] at hg ⊢
    rw [← reads_value key hf hg.1.1, ← reads_value value hse hg.1.2,
      ← reads_entries rest hot hg.2, effectJsonToEntries]
    simp only [bind_eq_ok_iff]
    constructor
    · rintro ⟨_, h₁, _, h₂, _, h₃, h⟩
      obtain ⟨hp, rfl⟩ := cons.inj (Except.ok.inj h)
      cases hp
      exact ⟨⟨h₁, h₂⟩, h₃⟩
    · rintro ⟨⟨h₁, h₂⟩, h₃⟩
      exact ⟨_, h₁, _, h₂, _, h₃, rfl⟩

theorem reads_fields : ∀ (fields : List (String × Value β)) {written : List (String × Json)},
    effectFieldsToJson lib fields = .ok written →
    (∀ part ∈ partsFields fields, part.Genuine traces) →
    (effectJsonToFields traces span written = .ok fields ↔
      ∀ part ∈ partsFields fields, part.KeepsForm)
  | [], written, hw, _ => by
    cases hw
    simp [effectJsonToFields, partsFields]
  | (name, value) :: rest, written, hw, hg => by
    obtain ⟨first, hfi, hw⟩ := bind_eq_ok_iff.mp hw
    obtain ⟨others, hot, hw⟩ := bind_eq_ok_iff.mp hw
    cases hw
    rw [partsFields, forall_mem_append] at hg ⊢
    rw [← reads_value value hfi hg.1, ← reads_fields rest hot hg.2, effectJsonToFields]
    simp only [bind_eq_ok_iff]
    constructor
    · rintro ⟨_, h₁, _, h₂, h⟩
      obtain ⟨hf, rfl⟩ := cons.inj (Except.ok.inj h)
      obtain rfl := (Prod.mk.inj hf).2
      exact ⟨h₁, h₂⟩
    · rintro ⟨h₁, h₂⟩
      exact ⟨_, h₁, _, h₂, rfl⟩

end

end Back

/-- Effect traces lose nothing exactly of the values in which no choice carries `none` and every
shape has its fields in the order of their names. -/
theorem effect_trace_roundtrip_iff {lib : RustLibrary} {traces : TraceLibrary} {span : Span}
    {value : Value β} {json : Json} (hwrite : effectValueToJson lib value = .ok json)
    (hgenuine : ∀ part ∈ value.parts, part.Genuine traces) :
    effectJsonToValue traces span json = .ok value ↔ value.Traceable :=
  reads_value value hwrite hgenuine

def TraceLibrary.bare : TraceLibrary where
  floatOfInteger _ := 0
  parseZoned := some

/-- The response of a server, with the fields in the order of the builtin shape. -/
def sampleResponse : Value Chunk :=
  .record "Response" [("status", .int 200), ("body", .string "hello"), ("headers", .map [])]

def replayedResponse : Value Chunk :=
  .record "Response" [("body", .string "hello"), ("headers", .map []), ("status", .int 200)]

def sampleProblem : Value Chunk :=
  .err (.record "Problem" [("kind", .string "http"), ("message", .string "refused")])

theorem effect_trace_roundtrip_problem :
    ∃ json, effectValueToJson .bare sampleProblem = .ok json ∧
      effectJsonToValue .bare ⟨1, 1⟩ json = .ok sampleProblem := by
  have hwrite : ∃ json, effectValueToJson .bare sampleProblem = .ok json := ⟨_, rfl⟩
  obtain ⟨json, hwrite⟩ := hwrite
  have hparts : sampleProblem.parts = [sampleProblem,
      .record "Problem" [("kind", .string "http"), ("message", .string "refused")],
      .string "http", .string "refused"] := rfl
  have horder : Value.InOrder [("kind", (.string "http" : Value Chunk)),
      ("message", .string "refused")] := by decide
  refine ⟨json, hwrite, (effect_trace_roundtrip_iff hwrite ?_).mpr ?_⟩
  · rw [hparts]
    simp [sampleProblem, Value.Genuine]
  · rw [Value.Traceable, hparts]
    simpa [sampleProblem, Value.KeepsForm] using horder

/-- The fields of a response change their order in a trace, and a choice that carries `none` loses
its payload. -/
theorem effect_trace_loses_form :
    (∃ json, effectValueToJson .bare sampleResponse = .ok json ∧
      effectJsonToValue .bare ⟨1, 1⟩ json = .ok replayedResponse) ∧
    replayedResponse.display .bare ≠ sampleResponse.display .bare ∧
    (∃ json, effectValueToJson .bare (.enum "Cell" "Full" (some .null) : Value Chunk) = .ok json ∧
      effectJsonToValue .bare ⟨1, 1⟩ json = .ok (.enum "Cell" "Full" none : Value Chunk)) := by
  refine ⟨⟨_, rfl, ?_⟩, ?_, ⟨_, rfl, ?_⟩⟩
  · have h₁ : ("body" : String) < "status" := by decide
    have h₂ : ¬ ("headers" : String) < "body" := by decide
    have h₃ : ("headers" : String) < "status" := by decide
    have hfields : Json.ofFields [("status", .integer 200), ("body", .string "hello"),
        ("headers", .ofFields [("$map", .array [])])] =
        .object [("body", .string "hello"), ("headers", .object [("$map", .array [])]),
          ("status", .integer 200)] := by
      simp [Json.ofFields, Json.insertField, h₁, h₂, h₃]
    have hfit : Width.i64.fit 200 = some 200 := by decide
    have hmap : TraceObject.of [("$map", .array [])] = .map [] := TraceObject.of_map []
    rw [hfields, read_shape]
    simp only [effectJsonToFields, effectJsonToValue_object, effectJsonToValue, hmap, hfit,
      effectJsonToEntries]
    rfl
  · decide +kernel
  · rw [read_choice]

end Nivren
