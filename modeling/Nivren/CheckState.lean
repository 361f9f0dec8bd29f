import Nivren.StdTypes
import Nivren.CallLabels

/-! The checker's state and the questions it asks about types.

The checker walks a program once and collects errors; nothing stops it. Hash maps are lists with one
entry for each key, and the stacks of scopes, constraints, results and needs keep their innermost
entry first.
-/

namespace Nivren

/-- `HashMap::insert`. -/
def setEntry {α : Type} (entries : List (String × α)) (key : String) (value : α) :
    List (String × α) :=
  (key, value) :: entries.filter (·.1 != key)

/-- `entry(key).or_insert(value)` for each entry of the second map. -/
def addMissing {α : Type} (entries more : List (String × α)) : List (String × α) :=
  more.foldl (fun entries entry =>
    if (entries.lookup entry.1).isSome then entries else setEntry entries entry.1 entry.2) entries

def collectEntries {α : Type} (entries : List (String × α)) : List (String × α) :=
  entries.foldl (fun entries entry => setEntry entries entry.1 entry.2) []

/-- `HashSet::extend`. -/
def addMembers {α : Type} [BEq α] (members more : List α) : List α :=
  members ++ more.filter (!members.contains ·)

structure TypeBinding where
  ty : Ty
  mutable : Bool

structure ProtocolMemberType where
  params : List Ty
  result : Ty
  needs : List String

structure Checker where
  scopes : List (List (String × TypeBinding))
  errors : List NivError
  returns : List Ty
  needs : List (List String)
  generics : List (List String)
  constraints : List (List (String × String))
  records : List (String × List (String × Ty))
  recordDerives : List (String × List String)
  enums : List (String × List (String × Option Ty))
  typeParameters : List (String × List String)
  typeConstraints : List (String × List (String × String))
  typeNames : List (String × String)
  protocols : List String
  protocolMembers : List (String × List (String × ProtocolMemberType))
  adoptions : List (String × String)
  dispatchAdoptions : List (String × String)
  callableLabels : List (String × List String)
  namespace_ : String
  loopDepth : ℕ
  loopBoundary : Option String
  activePromises : List PromiseClause
  sampleTitles : List String
  trustedScope : Bool

abbrev Check := StateM Checker

namespace Checker

def native (params : List Ty) (gives : Ty) : TypeBinding := ⟨StdTypes.function params gives, false⟩

def globals : List (String × TypeBinding) :=
  [("Interest", ⟨.enumNamespace "Interest", false⟩), ("len", native [.unknown] .int),
    ("type", native [.unknown] .string), ("append", native [.unknown, .unknown] .unknown),
    ("assert", native [.bool, .string] .null), ("ok", native [.unknown] .unknown),
    ("err", native [.unknown] .unknown), ("std", ⟨stdType, false⟩)]

/-- `Checker::with_namespace`. -/
def withNamespace (namespace_ : String) : Checker where
  scopes := [globals]
  errors := []
  returns := []
  needs := []
  generics := []
  constraints := []
  records :=
    [("Response", [("status", .int), ("body", .string), ("headers", .map .string .string)]),
      ("Problem", [("kind", .string), ("message", .string)]),
      ("Request", [("method", .string), ("path", .string), ("body", .string),
        ("headers", .map .string .string)])]
  recordDerives := []
  enums := [("Interest", [("Read", none), ("Write", none), ("ReadWrite", none)])]
  typeParameters := []
  typeConstraints := []
  typeNames := [("Response", "Response"), ("Request", "Request"), ("Interest", "Interest"),
    ("Problem", "Problem")]
  protocols := []
  protocolMembers := []
  adoptions := []
  dispatchAdoptions := []
  callableLabels := callLabels
  namespace_ := namespace_
  loopDepth := 0
  loopBoundary := none
  activePromises := []
  sampleTitles := []
  trustedScope := namespace_.isEmpty

/-- `Checker::new`. -/
def new : Checker := withNamespace ""

/-- `self.errors.push(NivError::new(..))`. -/
def report (message : String) (span : Span) : Check Unit :=
  modify fun s => { s with errors := s.errors ++ [errorAt message span] }

@[reducible] def reportIf (condition : Bool) (message : String) (span : Span) : Check Unit :=
  if condition then report message span else pure ()

/-- `require`. -/
@[reducible] def require (found expected : Ty) (span : Span) : Check Unit :=
  reportIf (!Ty.compatible found expected)
    ("expected " ++ expected.name ++ ", found " ++ found.name) span

/-- `declare`. -/
def declare (name : String) (binding : TypeBinding) (span : Span) : Check Unit := do
  match (← get).scopes with
  | scope :: rest =>
    if (scope.lookup name).isSome then
      report ("'" ++ name ++ "' is already declared in this scope") span
    else modify fun s => { s with scopes := setEntry scope name binding :: rest }
  | [] => pure ()

/-- `resolve`. -/
def resolve (s : Checker) (name : String) : Option TypeBinding := s.scopes.findSome? (·.lookup name)

/-- `in_scope`. -/
def inScope (operation : Check Unit) : Check Unit := do
  let promiseMark := (← get).activePromises.length
  let trustedMark := (← get).trustedScope
  modify fun s => { s with scopes := [] :: s.scopes }
  operation
  modify fun s => { s with
    trustedScope := trustedMark
    activePromises := s.activePromises.take promiseMark
    scopes := s.scopes.tail }

/-- `outside_loops`. -/
def outsideLoops (boundary : String) (operation : Check Unit) : Check Unit := do
  let depth := (← get).loopDepth
  let saved := (← get).loopBoundary
  modify fun s => { s with
    loopDepth := 0
    loopBoundary := if 0 < depth then some boundary else none }
  operation
  modify fun s => { s with loopDepth := depth, loopBoundary := saved }

/-- `inside_loop`. -/
def insideLoop (operation : Check Unit) : Check Unit := do
  modify fun s => { s with loopDepth := s.loopDepth + 1 }
  operation
  modify fun s => { s with loopDepth := s.loopDepth - 1 }

/-- `promise_for`: the innermost active clause of a capability. -/
def promiseFor (s : Checker) (capability : String) : Option PromiseClause :=
  s.activePromises.reverse.find? (·.capability == capability)

/-- `qualified`. -/
def qualified (s : Checker) (name : String) : String :=
  if s.namespace_.isEmpty then name else s.namespace_ ++ "." ++ name

/-- `owns_qualified_name`. -/
def ownsQualifiedName (s : Checker) (name : String) : Bool :=
  if s.namespace_.isEmpty then !name.toList.contains '.'
  else (s.namespace_ ++ ".").toList.isPrefixOf name.toList

/-- `known_builtin_protocol`. -/
def knownBuiltinProtocol (name : String) : Bool :=
  ["Equal", "Number", "Ordered", "Closable", "Sendable"].contains name

/-- `builtin_default_type`. -/
def builtinDefaultType (name : String) : Bool :=
  ["Response", "Request", "Interest", "Problem"].contains name

/-- `short_type_name`: what follows the last dot. -/
def shortTypeName (name : String) : String :=
  String.ofList (name.toList.reverse.takeWhile (· != '.')).reverse

/-- `protocol_name`. -/
def protocolName (s : Checker) (name : String) : Option String :=
  if s.protocols.contains name then some name
  else if s.protocols.contains (s.qualified name) then some (s.qualified name)
  else none

/-- `known_protocol`. -/
def knownProtocol (s : Checker) (name : String) : Bool :=
  knownBuiltinProtocol name || (s.protocolName name).isSome

/-- `generic_has`. -/
def genericHas (s : Checker) (name protocol : String) : Bool :=
  s.constraints.findSome? (·.lookup name) == some protocol

mutual

/-- `satisfies`. -/
def satisfies (s : Checker) (protocol : String) : Ty → Bool
  | .generic name => s.genericHas name protocol
  | ty =>
    if !knownBuiltinProtocol protocol then s.adoptions.contains (protocol, ty.name)
    else match ty with
    | .unknown => true
    | .int | .uint | .u128 | .float | .bigInt | .decimal | .fixed _ =>
      ["Equal", "Number", "Ordered", "Sendable"].contains protocol
    | .string | .bytes | .dateTime => ["Equal", "Ordered", "Sendable"].contains protocol
    | .bool | .null => ["Equal", "Sendable"].contains protocol
    | .array element | .set element =>
      ["Equal", "Sendable"].contains protocol && satisfies s protocol element
    | .map key value =>
      ["Equal", "Sendable"].contains protocol && satisfies s protocol key &&
        satisfies s protocol value
    | .nullable inner => satisfies s protocol inner
    | .result ok error =>
      ["Equal", "Sendable"].contains protocol && satisfies s protocol ok &&
        satisfies s protocol error
    | .record _ arguments | .enum _ arguments =>
      ["Equal", "Sendable"].contains protocol && satisfiesAll s protocol arguments
    | .file | .tcpListener | .tcpStream | .tlsStream | .webSocket | .tlsListener | .lockGuard
    | .nativeHandle | .nativeLibrary | .transaction .. => protocol == "Closable"
    | .task | .channel | .lock | .atomicInt => protocol == "Sendable"
    | .iterator _ | .secretKey | .function .. | .module _ | .enumNamespace _ | .protocolNamespace _
    | .generic _ => false

def satisfiesAll (s : Checker) (protocol : String) : List Ty → Bool
  | [] => true
  | ty :: rest => satisfies s protocol ty && satisfiesAll s protocol rest

end

/-- `record_supports_derive`: shapes without a list of derives support all. -/
def recordSupportsDerive (s : Checker) (name derive : String) : Bool :=
  match s.recordDerives.lookup name with
  | none => true
  | some derives => derives.isEmpty || derives.contains derive

structure DeriveMethod where
  derive : String
  name : String
  labels : List String

/-- `derive_methods::METHODS`. -/
def deriveMethods : List DeriveMethod :=
  [⟨"Json", "to_json", ["value"]⟩, ⟨"Json", "from_json", ["source"]⟩,
    ⟨"Compare", "compare", ["left", "right"]⟩, ⟨"Display", "display", ["value"]⟩,
    ⟨"Key", "key", ["value"]⟩, ⟨"Validate", "validate", ["value"]⟩,
    ⟨"Binary", "to_binary", ["value"]⟩, ⟨"Binary", "from_binary", ["bytes"]⟩,
    ⟨"DatabaseRow", "from_row", ["source"]⟩, ⟨"Arguments", "from_arguments", ["arguments"]⟩]

/-- What a derived method of the type takes and gives. -/
def derivedSignature (value : Ty) (method : String) : Option (List Ty × Ty) :=
  match method with
  | "to_json" => some ([value], .result .string problemType)
  | "from_json" => some ([.string], .result value problemType)
  | "compare" => some ([value, value], .bool)
  | "display" => some ([value], .string)
  | "key" => some ([value], .result .string problemType)
  | "validate" => some ([value], .result .null problemType)
  | "to_binary" => some ([value], .result .bytes problemType)
  | "from_binary" => some ([.bytes], .result value problemType)
  | "from_row" => some ([.string], .result value problemType)
  | "from_arguments" => some ([.array .string], .result value problemType)
  | _ => none

/-- `derived_method_type`. -/
def derivedMethodType (s : Checker) (record : String) (arguments : List Ty) (method : String) :
    Option Ty := do
  let found ← deriveMethods.find? (·.name == method)
  let derives ← s.recordDerives.lookup record
  if derives.contains found.derive then
    let (params, gives) ← derivedSignature (.record record arguments) method
    some (StdTypes.function params gives)
  else none

abbrev Shapes := List (String × List (String × Ty))

/-- `derive_data_type_at`, with the depth that is left. -/
def deriveDataType (records : Shapes) : ℕ → Ty → Bool
  | 0, _ => false
  | depth + 1, ty => match ty with
    | .int | .uint | .u128 | .float | .string | .bytes | .bool | .null | .generic _ | .enum ..
    | .dateTime | .bigInt | .decimal | .fixed _ | .unknown => true
    | .record name _ => match records.lookup name with
      | some fields => fields.all fun field => deriveDataType records depth field.2
      | none => false
    | .array value | .set value | .nullable value => deriveDataType records depth value
    | .map key value | .result key value =>
      deriveDataType records depth key && deriveDataType records depth value
    | _ => false

/-- `derive_scalar_type_at` and `derive_argument_type_at`, which differ in the types they accept. -/
def deriveOneField (accepts : Ty → Bool) (records : Shapes) : ℕ → Ty → Bool
  | 0, _ => false
  | depth + 1, ty => match ty with
    | .record name _ => match records.lookup name with
      | some fields =>
        fields.length == 1 && fields.all fun field => deriveOneField accepts records depth field.2
      | none => false
    | .nullable inner => deriveOneField accepts records depth inner
    | ty => accepts ty

def scalarType : Ty → Bool
  | .int | .float | .string | .bytes | .bool | .generic _ | .enum .. | .dateTime | .bigInt
  | .decimal | .fixed _ | .unknown => true
  | _ => false

def argumentType : Ty → Bool
  | .int | .float | .string | .bool | .generic _ | .enum .. | .bigInt | .decimal | .fixed _
  | .unknown => true
  | _ => false

/-- `derive_scalar_type`. -/
def deriveScalarType (records : Shapes) (ty : Ty) : Bool := deriveOneField scalarType records 128 ty

/-- `derive_argument_type`. -/
def deriveArgumentType (records : Shapes) (ty : Ty) : Bool :=
  deriveOneField argumentType records 128 ty

/-- Whether a derive supports a field of the type. -/
def deriveSupports (records : Shapes) (derive : String) (ty : Ty) : Bool :=
  match derive with
  | "Json" | "Display" | "Validate" | "Binary" | "Compare" | "Key" => deriveDataType records 128 ty
  | "DatabaseRow" => deriveScalarType records ty
  | "Arguments" => deriveArgumentType records ty
  | _ => true

/-- `validate_record_derives`, with the fields in the order of their names. -/
@[reducible] def validateRecordDerives (name : String) (derives : List String) (fields : List (String × Ty))
    (records : Shapes) (span : Span) : Check Unit := do
  reportIf (derives.contains "Key" && !derives.contains "Compare")
    ("shape '" ++ name ++ "' derives Key and must also derive Compare") span
  derives.forM fun derive =>
    (fields.insertionSort (·.1 ≤ ·.1)).forM fun field =>
      reportIf (!deriveSupports records derive field.2)
        ("derive " ++ derive ++ " does not support field '" ++ field.1 ++ "' of type " ++
        field.2.name ++ " in shape '" ++ name ++ "'") span

/-- `numeric_pair`. -/
def numericPair (left right : Ty) (span : Span) : Check Ty := do
  let mismatch : Check Ty := do
    report ("numeric operands must have the same type; found " ++ left.name ++ " and " ++
      right.name) span
    return .unknown
  match left, right with
  | .int, .int => return .int
  | .uint, .uint => return .uint
  | .u128, .u128 => return .u128
  | .float, .float => return .float
  | .bigInt, .bigInt => return .bigInt
  | .decimal, .decimal => return .decimal
  | .fixed a, .fixed b => if a == b then return .fixed a else mismatch
  | .generic a, .generic b =>
    if a == b && (← get).genericHas a "Number" then return .generic a else mismatch
  | .unknown, _ | _, .unknown => return .unknown
  | _, _ => mismatch

def runAll {α : Type} : List (Check α) → Check (List α)
  | [] => return []
  | check :: rest => do
    let found ← check
    return found :: (← runAll rest)

/-- The types a name stands for in every program. -/
def builtinType (name : String) : Option Ty :=
  match name with
  | "Int" | "Number" => some .int
  | "UInt" => some .uint
  | "U128" => some .u128
  | "Float" => some .float
  | "String" => some .string
  | "Bytes" => some .bytes
  | "SecretKey" => some .secretKey
  | "Bool" => some .bool
  | "Nothing" => some .null
  | "File" => some .file
  | "TcpListener" => some .tcpListener
  | "TcpStream" => some .tcpStream
  | "TlsStream" => some .tlsStream
  | "WebSocket" => some .webSocket
  | "TlsListener" => some .tlsListener
  | "Lock" => some .lock
  | "LockGuard" => some .lockGuard
  | "NativeHandle" => some .nativeHandle
  | "NativeLibrary" => some .nativeLibrary
  | "AtomicInt" => some .atomicInt
  | "DateTime" => some .dateTime
  | "BigInt" => some .bigInt
  | "Decimal" => some .decimal
  | "I8" => some (.fixed .i8)
  | "I16" => some (.fixed .i16)
  | "I32" => some (.fixed .i32)
  | "U8" => some (.fixed .u8)
  | "U16" => some (.fixed .u16)
  | "U32" => some (.fixed .u32)
  | "U64" => some (.fixed .u64)
  | "I128" => some (.fixed .i128)
  | "Task" => some .task
  | "Channel" => some .channel
  | _ => none

def arity (s : Checker) (name : String) : ℕ := ((s.typeParameters.lookup name).getD []).length

def declared (s : Checker) (name : String) (arguments : List Ty) : Ty :=
  if (s.records.lookup name).isSome then .record name arguments else .enum name arguments

/-- Reports the arguments that break a constraint of the type. -/
def checkConstraints (name : String) (arguments : List Ty) (span : Span) : Check Unit := do
  let parameters := ((← get).typeParameters.lookup name).getD []
  (((← get).typeConstraints.lookup name).getD []).forM fun entry => do
    match (parameters.idxOf? entry.1).bind (arguments[·]?) with
    | some argument =>
      reportIf (!(← get).satisfies entry.2 argument)
        (argument.name ++ " does not satisfy " ++ entry.2 ++ " for " ++ entry.1) span
    | none => pure ()

/-- `TypeRef::Applied`. The arguments of a wrong application are not looked at. -/
def applied (name : String) (arguments : List (Check Ty)) (span : Span) : Check Ty := do
  let refuse (message : String) : Check Ty := do
    report message span
    return .unknown
  match name, arguments with
  | "Map", [key, value] => return .map (← key) (← value)
  | "Set", [element] => return .set (← element)
  | "Iterator", [element] => return .iterator (← element)
  | "Transaction", [key, value] => return .transaction (← key) (← value)
  | "Map", _ => refuse "Map needs exactly two type arguments"
  | "Set", _ => refuse "Set needs exactly one type argument"
  | "Iterator", _ => refuse "Iterator needs exactly one type argument"
  | "Transaction", _ => refuse "Transaction needs exactly two type arguments"
  | _, _ =>
    match (← get).typeNames.lookup name with
    | none => refuse ("unknown generic type '" ++ name ++ "'")
    | some qualified =>
      let expected := (← get).arity qualified
      if expected ≠ arguments.length then
        refuse (name ++ " needs exactly " ++ toString expected ++ " type arguments")
      else
        let arguments ← runAll arguments
        checkConstraints qualified arguments span
        return (← get).declared qualified arguments

/-- `TypeRef::Named`. -/
def named (name : String) (span : Span) : Check Ty := do
  match builtinType name with
  | some ty => return ty
  | none =>
    if (← get).generics.any (·.contains name) then return .generic name
    else match (← get).typeNames.lookup name with
    | some qualified =>
      let expected := (← get).arity qualified
      if 0 < expected then
        report (name ++ " needs exactly " ++ toString expected ++ " type arguments") span
        return .unknown
      else return (← get).declared qualified []
    | none =>
      report (if name == "Null" then "unknown type 'Null'; the unit type is 'Nothing'"
        else "unknown type '" ++ name ++ "'") span
      return .unknown

/-- Reports a nullable type around one that has `none` already. -/
def checkNullable (inner : Ty) (span : Span) : Check Unit :=
  match inner with
  | .null | .nullable _ => report "nullable type must wrap a non-null type" span
  | _ => pure ()

mutual

/-- `type_ref`. -/
def typeRef : TypeRef → Check Ty
  | .array item _ => do return .array (← typeRef item)
  | .applied name arguments span => applied name (typeRefs arguments) span
  | .result ok error _ => do return .result (← typeRef ok) (← typeRef error)
  | .nullable item span => do
    let inner ← typeRef item
    checkNullable inner span
    return .nullable inner
  | .named name span => named name span

def typeRefs : List TypeRef → List (Check Ty)
  | [] => []
  | reference :: rest => typeRef reference :: typeRefs rest

end

end Checker

end Nivren
