import Nivren.Entry

/-! What a program can refer to.

A value reaches scopes through the closures inside it. `Value.All P` says that all of them meet `P`;
no operator invents a closure, so `P` holds of every result when it holds of the operands.

The lemmas about operators and patterns ask of a property of values only that it is `Closed`: plain
data has it, and a container has it exactly when its parts do.
-/

namespace Nivren

open List

variable {β σ ν : Type} {value : Value β} {α : Type} {fields : List (String × Value β)}

namespace Value

/-- Every closure inside a value meets `P`. -/
def All (P : Function β → Prop) (value : Value β) : Prop := ∀ f ∈ value.functions, P f

theorem functions_array (values : List (Value β)) :
    (array values).functions = values.flatMap functions := by
  induction values with
  | nil => rfl
  | cons value rest ih =>
    rw [flatMap_cons, ← ih]
    rfl

theorem functions_record (typeName : String) (fields : List (String × Value β)) :
    (record typeName fields).functions = fields.flatMap fun entry => entry.2.functions := by
  induction fields with
  | nil => rfl
  | cons entry rest ih =>
    rw [flatMap_cons, ← ih]
    rfl

theorem functions_module (id : Nat) (members : List (String × Value β)) :
    (module id members).functions = members.flatMap fun entry => entry.2.functions :=
  functions_record "" members

variable {P : Function β → Prop}

@[simp] theorem all_function {f : Function β} : (function f).All P ↔ P f := forall_mem_singleton

theorem all_flatMap {items : List α} {value : α → Value β} :
    (∀ f ∈ items.flatMap fun item => (value item).functions, P f) ↔
      ∀ item ∈ items, (value item).All P := by
  simp only [mem_flatMap, forall_exists_index, and_imp]
  exact ⟨fun h v hv f hf => h f v hv hf, fun h f v hv hf => h v hv f hf⟩

@[simp] theorem all_array {values : List (Value β)} :
    (array values).All P ↔ ∀ value ∈ values, value.All P := by
  rw [All, functions_array]
  exact all_flatMap

variable {typeName : String}

@[simp] theorem all_record : (record typeName fields).All P ↔ ∀ entry ∈ fields, entry.2.All P := by
  rw [All, functions_record]
  exact all_flatMap

@[simp] theorem all_module {id : Nat} {members : List (String × Value β)} :
    (module id members).All P ↔ ∀ entry ∈ members, entry.2.All P := by
  rw [All, functions_module]
  exact all_flatMap

@[simp] theorem all_enum {variant : String} {payload : Option (Value β)} :
    (enum typeName variant payload).All P ↔ ∀ value ∈ payload, value.All P := by
  cases payload with
  | none => exact ⟨fun _ _ h => (nomatch h), fun _ _ h => (nomatch h)⟩
  | some value => exact ⟨fun h v hv => Option.mem_some.mp hv ▸ h, fun h => h value rfl⟩

@[simp] theorem all_ok : (ok value).All P ↔ value.All P := Iff.rfl

@[simp] theorem all_err : (err value).All P ↔ value.All P := Iff.rfl

theorem all_of_functions_nil (h : value.functions = []) : value.All P := by
  intro f hf
  rw [h] at hf
  cases hf

@[simp] theorem all_int {n : Int} : (int n : Value β).All P := all_of_functions_nil rfl

@[simp] theorem all_string {n : String} : (string n : Value β).All P := all_of_functions_nil rfl

@[simp] theorem all_bool {n : Bool} : (bool n : Value β).All P := all_of_functions_nil rfl

@[simp] theorem all_recordType {n : RecordType} : (recordType n : Value β).All P :=
  all_of_functions_nil rfl

@[simp] theorem all_enumType {n : EnumType} : (enumType n : Value β).All P :=
  all_of_functions_nil rfl

@[simp] theorem all_enumConstructor {n : EnumConstructor} : (enumConstructor n : Value β).All P :=
  all_of_functions_nil rfl

@[simp] theorem all_protocolType {n : ProtocolType} : (protocolType n : Value β).All P :=
  all_of_functions_nil rfl

@[simp] theorem all_protocolMethod {n : ProtocolMethod} : (protocolMethod n : Value β).All P :=
  all_of_functions_nil rfl

@[simp] theorem all_derivedMethod {n : DerivedMethod} : (derivedMethod n : Value β).All P :=
  all_of_functions_nil rfl

@[simp] theorem all_null : (null : Value β).All P := all_of_functions_nil rfl

@[simp] theorem all_handle {kind : HandleKind} {id : Nat} : (handle kind id : Value β).All P :=
  all_of_functions_nil rfl

@[simp] theorem all_literal {literal : Literal} : (literal.value : Value β).All P := by
  cases literal <;> exact all_of_functions_nil rfl

/-- Numbers, texts, types, methods and handles, which contain no other value. -/
def isData : Value β → Bool
  | .function _ | .native _ | .array _ | .map _ | .set _ | .record .. | .enum .. | .ok _ | .err _
  | .earlyReturn _ | .module .. => false
  | _ => true

/-- A property that goes with the parts of a value. -/
class Closed (V : Value β → Prop) : Prop where
  data : ∀ {value}, value.isData = true → V value
  array : ∀ {values}, V (array values) ↔ ∀ value ∈ values, V value
  record : ∀ {typeName fields}, V (record typeName fields) ↔ ∀ entry ∈ fields, V entry.2
  enum : ∀ {typeName variant payload},
    V (enum typeName variant payload) ↔ ∀ value ∈ payload, V value
  ok : ∀ {value}, V (ok value) ↔ V value
  err : ∀ {value}, V (err value) ↔ V value

instance : Closed (All P) where
  data {value} h := by
    apply all_of_functions_nil
    cases value <;> first | rfl | cases h
  array := all_array
  record := all_record
  enum := all_enum
  ok := all_ok
  err := all_err

end Value

/-- Every binding of a list meets `P`. -/
def AllBindings (P : Function β → Prop) (bindings : List (String × Value β)) : Prop :=
  ∀ entry ∈ bindings, entry.2.All P

/-- A result, if there is one, meets `P`. -/
def AllOk {α : Type} (P : α → Prop) (result : Result α) : Prop := ∀ a, result = .ok a → P a

variable {name : String}

section Operators

variable {V : Value β → Prop} [hclosed : Value.Closed V] {span : Span} {Q : α → Prop}

theorem allOk_fail {message : String} : AllOk Q (fail message span) := fun _ h => nomatch h

theorem allOk_error {failure : Failure} : AllOk Q (.error failure) := fun _ h => nomatch h

theorem allOk_ok {a : α} (h : Q a) : AllOk Q (.ok a) := fun _ ha => by cases ha; exact h

variable {operator : TokenKind}

theorem Arithmetic.binary_all (num : Arithmetic α) {make : α → Option (Value β)}
    (hm : ∀ n v, make n = some v → V v) {overflow : String} {a b : α} :
    AllOk V (num.binary make overflow a operator b span) := by
  have hc : ∀ value, AllOk V (checkedValue make overflow span value) := by
    intro value
    unfold checkedValue
    split
    next v hv =>
      obtain ⟨n, -, hn⟩ := Option.bind_eq_some_iff.mp hv
      exact allOk_ok (hm n v hn)
    · exact allOk_fail
  unfold Arithmetic.binary
  split
  · exact hc _
  · exact hc _
  · exact hc _
  · split
    · exact allOk_fail
    · exact hc _
  · split
    · exact allOk_fail
    · exact hc _
  · split
    · exact allOk_ok (hclosed.data rfl)
    · exact allOk_error

theorem intBinary_all {a b : Int} : AllOk V (intBinary a operator b span) :=
  Arithmetic.binary_all _ fun n v h => by cases h; exact hclosed.data rfl

variable {lib : RustLibrary} {right left : Value β}

theorem numericBinary_all {result : Result (Value β)}
    (h : numericBinary lib left operator right span = some result) :
    AllOk V result := by
  unfold numericBinary at h
  split at h <;> cases h
  · exact intBinary_all
  iterate 5 exact Arithmetic.binary_all _ fun n v h => by cases h; exact hclosed.data rfl
  · unfold fixedBinary
    split
    · exact allOk_fail
    · refine Arithmetic.binary_all _ fun n v h => ?_
      obtain ⟨k, -, rfl⟩ := Option.map_eq_some_iff.mp h
      exact hclosed.data rfl

theorem binary_all : AllOk V (binary lib left operator right span) := by
  unfold binary
  split
  case h_1 | h_2 => exact allOk_ok (hclosed.data rfl)
  case h_3 =>
    split
    next h => exact numericBinary_all h
    · exact allOk_ok (hclosed.data rfl)
    · exact allOk_error
  case h_12 => exact allOk_error
  all_goals
    split
    next h => exact numericBinary_all h
    all_goals try exact allOk_error
  all_goals
    split
    · exact allOk_ok (hclosed.data rfl)
    · exact allOk_error

theorem vmBinary_all : AllOk V (vmBinary lib left operator right span) := by
  unfold vmBinary
  split
  · split
    · exact allOk_ok (hclosed.data rfl)
    · exact allOk_ok (hclosed.data rfl)
    · exact intBinary_all
  · exact binary_all

theorem negate_all : AllOk V (negate lib value span) := by
  unfold negate
  split
  case h_1 => split; exacts [allOk_ok (hclosed.data rfl), allOk_fail]
  case h_2 | h_3 => exact allOk_ok (hclosed.data rfl)
  case h_4 => split; exacts [allOk_ok (hclosed.data rfl), allOk_fail]
  case h_7 =>
    split
    · split; exacts [allOk_ok (hclosed.data rfl), allOk_fail]
    · exact allOk_fail
  all_goals exact allOk_fail

theorem unary_all : AllOk V (unary lib operator value span) := by
  unfold unary
  split
  · exact negate_all
  · intro v h
    cases hb : expectBool value span with
    | error _ => rw [hb] at h; cases h
    | ok _ => rw [hb] at h; cases h; exact hclosed.data rfl
  · exact allOk_error

theorem indexValue_all {collection : Value β} (hc : V collection) {index : Nat} :
    AllOk V (indexValue collection index span) := by
  unfold indexValue
  split
  · split
    next v hv => exact allOk_ok (hclosed.array.mp hc v (mem_of_getElem? hv))
    · exact allOk_fail
  · split
    · exact allOk_ok (hclosed.data rfl)
    · exact allOk_fail
  · exact allOk_fail

theorem wrapProblem_all {kind : Option String} (h : V value) : V (wrapProblem kind value) := by
  unfold wrapProblem
  split
  · rw [hclosed.err, problemValue, hclosed.record]
    intro entry hen
    simp only [mem_cons, not_mem_nil, or_false] at hen
    rcases hen with rfl | rfl <;> exact hclosed.data rfl
  · exact h

omit hclosed in
theorem recordField_all
    (hf : ∀ entry ∈ fields, V entry.2) (h : recordField fields name = some value) : V value := by
  unfold recordField at h
  split at h
  · exact hf _ (lookup_mem h)
  · exact hf _ (mem_reverse.mp (lookup_mem h))

end Operators

section Patterns

variable {V : Value β → Prop} {lib : RustLibrary} {find : String → Option (Value β)}
  {bindings : List (String × Value β)}

theorem namePattern_all (hv : V value) (h : namePattern find name value = some bindings) :
    ∀ entry ∈ bindings, V entry.2 := by
  unfold namePattern at h
  split at h <;> (repeat' split at h) <;> cases h <;> simp_all

theorem carried_all [hclosed : Value.Closed V] {payload : Value β}
    (hv : V value) (h : carried name value = some payload) : V payload := by
  unfold carried at h
  split at h
  · split at h
    · exact hclosed.enum.mp hv payload h
    · cases h
  · split at h <;> cases h
    exact hclosed.ok.mp hv
  · split at h <;> cases h
    exact hclosed.err.mp hv
  · cases h

mutual

theorem patternBindings_all [hclosed : Value.Closed V] : ∀ (pattern : Pattern) {value : Value β}
    {bindings : List (String × Value β)}, V value →
    patternBindings lib find pattern value = some bindings → ∀ entry ∈ bindings, V entry.2
  | .any _, _, _, _, h => by
    rw [patternBindings] at h; cases h; simp
  | .binding _ _, _, _, hv, h => by
    rw [patternBindings] at h; cases h; simpa using hv
  | .literal _ _, _, _, _, h => by
    rw [patternBindings] at h; split at h <;> cases h; simp
  | .name _ _, _, _, hv, h => by
    rw [patternBindings] at h; exact namePattern_all hv h
  | .carries _ inner _, _, _, hv, h => by
    obtain ⟨payload, hp, hb⟩ := Option.bind_eq_some_iff.mp h
    exact patternBindings_all inner (carried_all hv hp) hb
  | .shape _ fields _, value, _, hv, h => by
    cases value
    case record =>
      rw [patternBindings] at h
      split at h
      · exact fieldBindings_all fields (hclosed.record.mp hv) h
      · cases h
    all_goals cases h

theorem fieldBindings_all [Value.Closed V] : ∀ (fields : List (String × Pattern))
    {held bindings : List (String × Value β)}, (∀ entry ∈ held, V entry.2) →
    fieldBindings lib find fields held = some bindings → ∀ entry ∈ bindings, V entry.2
  | [], _, _, _, h => by
    rw [fieldBindings] at h; cases h; simp
  | (field, pattern) :: rest, held, _, hh, h => by
    obtain ⟨value, hva, h⟩ := Option.bind_eq_some_iff.mp h
    obtain ⟨first, hf, h⟩ := Option.bind_eq_some_iff.mp h
    obtain ⟨others, hot, rfl⟩ := Option.map_eq_some_iff.mp h
    have hv : V value := hh _ (mem_reverse.mp (lookup_mem hva))
    intro entry hen
    rcases mem_append.mp hen with he | he
    · exact patternBindings_all pattern hv hf entry he
    · exact fieldBindings_all rest hh hot entry he

end

theorem firstMatch_all [Value.Closed V] {patterns : List Pattern} (hv : V value)
    (h : firstMatch lib find patterns value = some bindings) : ∀ entry ∈ bindings, V entry.2 := by
  obtain ⟨_, pattern, _, -, hp, -⟩ := List.findSome?_eq_some_iff.mp h
  exact patternBindings_all pattern hv hp

end Patterns

end Nivren
