import Nivren.Arith

/-! Runtime values.

The type of function bodies is a parameter: the virtual machine runs functions whose bodies are
chunks, the tree interpreter functions whose bodies are statements, and everything in this module is
the same for both. Values the runtime compares by address carry an identity number. A scope is named
by its address in the heap.
-/

namespace Nivren

/-- The address of a scope: the global scope of an interpreter, or a scope created while running. -/
inductive Env
  | globals (interpreter : Nat)
  | scope (index : Nat)
deriving DecidableEq, Repr

structure Function (β : Type) where
  id : Nat
  name : String
  params : List String
  body : β
  closure : Env

structure NativeFunction where
  id : Nat
  name : String
  arity : Nat
  capability : Option String
  problemKind : Option String
deriving DecidableEq, Repr

/-- A declared shape. The catalogs hold the shapes and choices visible at its declaration. -/
structure RecordType where
  id : Nat
  name : String
  fields : List (String × String)
  derives : List String
  catalog : List (String × List (String × String))
  choices : List (String × List (String × Bool))
deriving DecidableEq, Repr

structure EnumType where
  id : Nat
  name : String
  variants : List String
  payloadVariants : List String
deriving DecidableEq, Repr

structure EnumConstructor where
  id : Nat
  typeName : String
  variant : String
deriving DecidableEq, Repr

structure ProtocolType where
  id : Nat
  name : String
  members : List String
deriving DecidableEq, Repr

structure ProtocolMethod where
  id : Nat
  protocol : String
  member : String
deriving DecidableEq, Repr

structure DerivedMethod where
  id : Nat
  schema : RecordType
  name : String
deriving DecidableEq, Repr

/-- The runtime's resources; their contents live outside the value. -/
inductive HandleKind
  | sourceDeclaration | secretKey | iterator | file | tcpListener | tcpStream | tlsStream
  | webSocket | tlsListener | lock | lockGuard | atomicInt | nativeHandle | nativeLibrary
  | transaction | task | channel
deriving DecidableEq, Repr

def HandleKind.typeName : HandleKind → String
  | sourceDeclaration => "source.Declaration"
  | secretKey => "SecretKey"
  | iterator => "Iterator"
  | file => "File"
  | tcpListener => "TcpListener"
  | tcpStream => "TcpStream"
  | tlsStream => "TlsStream"
  | webSocket => "WebSocket"
  | tlsListener => "TlsListener"
  | lock => "Lock"
  | lockGuard => "LockGuard"
  | atomicInt => "AtomicInt"
  | nativeHandle => "NativeHandle"
  | nativeLibrary => "NativeLibrary"
  | transaction => "Transaction"
  | task => "Task"
  | channel => "Channel"

def HandleKind.display : HandleKind → String
  | sourceDeclaration => "<source declaration>"
  | secretKey => "<secret-key>"
  | iterator => "<iterator>"
  | file => "<file>"
  | tcpListener => "<tcp-listener>"
  | tcpStream => "<tcp-stream>"
  | tlsStream => "<tls-stream>"
  | webSocket => "<websocket>"
  | tlsListener => "<tls-listener>"
  | lock => "<lock>"
  | lockGuard => "<lock-guard>"
  | atomicInt => "<atomic-int>"
  | nativeHandle => "<native-handle>"
  | nativeLibrary => "<native-library>"
  | transaction => "<transaction>"
  | task => "<task>"
  | channel => "<channel>"

inductive Value (β : Type)
  | int (number : Int)
  | uint (number : Nat)
  | u128 (number : Nat)
  | float (bits : UInt64)
  | string (text : String)
  | bytes (data : List UInt8)
  | bool (boolean : Bool)
  | null
  | function (f : Function β)
  | native (f : NativeFunction)
  | array (values : List (Value β))
  | map (entries : List (Value β × Value β))
  | set (values : List (Value β))
  | recordType (record : RecordType)
  | record (typeName : String) (fields : List (String × Value β))
  | enumType (choice : EnumType)
  | enumConstructor (constructor : EnumConstructor)
  | enum (typeName variant : String) (payload : Option (Value β))
  | protocolType (protocol : ProtocolType)
  | protocolMethod (method : ProtocolMethod)
  | derivedMethod (method : DerivedMethod)
  | ok (value : Value β)
  | err (value : Value β)
  | earlyReturn (value : Value β)
  | module (id : Nat) (members : List (String × Value β))
  | dateTime (text : String)
  | bigInt (number : Int)
  | decimal (encoding : Nat)
  | fixedInt (number : FixedInt)
  | handle (kind : HandleKind) (id : Nat)

variable {β : Type}

def Literal.value : Literal → Value β
  | .int value => .int value
  | .float bits => .float bits
  | .string text => .string text
  | .bool value => .bool value
  | .null => .null

namespace Value

def typeName : Value β → String
  | .int _ => "Int"
  | .uint _ => "UInt"
  | .u128 _ => "U128"
  | .float _ => "Float"
  | .string _ => "String"
  | .bytes _ => "Bytes"
  | .bool _ => "Bool"
  | .null => "Nothing"
  | .function _ | .native _ => "Function"
  | .array _ => "Array"
  | .map _ => "Map"
  | .set _ => "Set"
  | .recordType _ => "RecordType"
  | .record typeName _ => typeName
  | .enumType _ => "EnumType"
  | .enumConstructor _ => "Function"
  | .enum typeName _ _ => typeName
  | .protocolType _ => "ProtocolType"
  | .protocolMethod _ | .derivedMethod _ => "Function"
  | .ok _ | .err _ => "Result"
  | .earlyReturn _ => "internal return"
  | .module _ _ => "Module"
  | .dateTime _ => "DateTime"
  | .bigInt _ => "BigInt"
  | .decimal _ => "Decimal"
  | .fixedInt number => number.kind.name
  | .handle kind _ => kind.typeName

mutual

/-- `PartialEq` on values: structural on data, by address on everything else. -/
def beq (lib : RustLibrary) : Value β → Value β → Bool
  | .int a, .int b => a == b
  | .uint a, .uint b => a == b
  | .u128 a, .u128 b => a == b
  | .float a, .float b => lib.floatEq a b
  | .string a, .string b => a == b
  | .bytes a, .bytes b => a == b
  | .bool a, .bool b => a == b
  | .null, .null => true
  | .function a, .function b => a.id == b.id
  | .native a, .native b => a.id == b.id
  | .array a, .array b => beqList lib a b
  | .map a, .map b => beqEntries lib a b
  | .set a, .set b => beqList lib a b
  | .recordType a, .recordType b => a.id == b.id
  | .record t a, .record u b => t == u && beqFields lib a b
  | .enumType a, .enumType b => a.id == b.id
  | .enumConstructor a, .enumConstructor b => a.id == b.id
  | .enum t v p, .enum u w q => t == u && v == w && beqOption lib p q
  | .protocolType a, .protocolType b => a.id == b.id
  | .protocolMethod a, .protocolMethod b => a.id == b.id
  | .derivedMethod a, .derivedMethod b => a.id == b.id
  | .ok a, .ok b => beq lib a b
  | .err a, .err b => beq lib a b
  | .earlyReturn a, .earlyReturn b => beq lib a b
  | .module a _, .module b _ => a == b
  | .dateTime a, .dateTime b => lib.dateEq a b
  | .bigInt a, .bigInt b => a == b
  | .decimal a, .decimal b => lib.decimalEq a b
  | .fixedInt a, .fixedInt b => a == b
  | .handle k a, .handle l b => k == l && k != .secretKey && a == b
  | _, _ => false
termination_by structural a => a

def beqList (lib : RustLibrary) : List (Value β) → List (Value β) → Bool
  | [], [] => true
  | a :: as, b :: bs => beq lib a b && beqList lib as bs
  | _, _ => false
termination_by structural a => a

def beqEntries (lib : RustLibrary) : List (Value β × Value β) → List (Value β × Value β) → Bool
  | [], [] => true
  | (key, value) :: as, b :: bs => beq lib key b.1 && beq lib value b.2 && beqEntries lib as bs
  | _, _ => false
termination_by structural a => a

def beqFields (lib : RustLibrary) : List (String × Value β) → List (String × Value β) → Bool
  | [], [] => true
  | (name, value) :: as, b :: bs => name == b.1 && beq lib value b.2 && beqFields lib as bs
  | _, _ => false
termination_by structural a => a

def beqOption (lib : RustLibrary) : Option (Value β) → Option (Value β) → Bool
  | none, none => true
  | some a, some b => beq lib a b
  | _, _ => false
termination_by structural a => a

end

mutual

/-- `Display`: the text `show` prints. -/
def display (lib : RustLibrary) : Value β → String
  | .int number => toString number
  | .uint number => toString number
  | .u128 number => toString number
  | .float bits => lib.floatText bits
  | .string text => text
  | .bytes data => s!"<{data.length} bytes>"
  | .bool true => "yes"
  | .bool false => "no"
  | .null => "none"
  | .function f => s!"<define {f.name}>"
  | .native f => s!"<native {f.name}>"
  | .array values => "[" ++ ", ".intercalate (displayList lib values) ++ "]"
  | .map entries => "map \x7b" ++ ", ".intercalate (displayEntries lib entries) ++ "\x7d"
  | .set values => "set \x7b" ++ ", ".intercalate (displayList lib values) ++ "\x7d"
  | .recordType shape => s!"<shape {shape.name}>"
  | .record typeName fields =>
    -- the builtin `Problem` shape prints as its message
    match typeName == "Problem", fields.lookup "message" with
    | true, some (.string message) => message
    | _, _ => typeName ++ " \x7b " ++ ", ".intercalate (displayFields lib fields) ++ " \x7d"
  | .enumType choice => s!"<choice {choice.name}>"
  | .enumConstructor constructor =>
    s!"<choice constructor {constructor.typeName}.{constructor.variant}>"
  | .enum typeName variant payload => typeName ++ "." ++ variant ++ displayPayload lib payload
  | .protocolType protocol => s!"<protocol {protocol.name}>"
  | .protocolMethod method => s!"<protocol method {method.protocol}.{method.member}>"
  | .derivedMethod method => s!"<derived {method.schema.name}.{method.name}>"
  | .ok value => "Ok(" ++ display lib value ++ ")"
  | .err value => "Err(" ++ display lib value ++ ")"
  | .earlyReturn _ => "<early-return>"
  | .module _ _ => "<module>"
  | .dateTime text => text
  | .bigInt number => toString number
  | .decimal encoding => lib.decimalText encoding
  | .fixedInt number => toString number.value
  | .handle kind _ => kind.display

def displayList (lib : RustLibrary) : List (Value β) → List String
  | [] => []
  | value :: rest => display lib value :: displayList lib rest

def displayEntries (lib : RustLibrary) : List (Value β × Value β) → List String
  | [] => []
  | (key, value) :: rest =>
    (display lib key ++ ": " ++ display lib value) :: displayEntries lib rest

def displayFields (lib : RustLibrary) : List (String × Value β) → List String
  | [] => []
  | (name, value) :: rest => (name ++ ": " ++ display lib value) :: displayFields lib rest

def displayPayload (lib : RustLibrary) : Option (Value β) → String
  | none => ""
  | some payload => "(" ++ display lib payload ++ ")"

end

section Gather

variable {α : Type} (onFunction : Function β → List α) (onHandle : HandleKind → Nat → List α)

mutual

/-- What a walk over a value collects from the closures and handles it contains. -/
def gather : Value β → List α
  | .function f => onFunction f
  | .handle kind id => onHandle kind id
  | .array values | .set values => gatherList values
  | .map entries => gatherEntries entries
  | .record _ fields | .module _ fields => gatherFields fields
  | .enum _ _ payload => gatherOption payload
  | .ok value | .err value | .earlyReturn value => gather value
  | _ => []

def gatherList : List (Value β) → List α
  | [] => []
  | value :: rest => gather value ++ gatherList rest

def gatherEntries : List (Value β × Value β) → List α
  | [] => []
  | (key, value) :: rest => gather key ++ gather value ++ gatherEntries rest

def gatherFields : List (String × Value β) → List α
  | [] => []
  | (_, value) :: rest => gather value ++ gatherFields rest

def gatherOption : Option (Value β) → List α
  | none => []
  | some value => gather value

end

end Gather

def functions : Value β → List (Function β) := gather (fun f => [f]) fun _ _ => []

def handles : Value β → List (HandleKind × Nat) := gather (fun _ => []) fun kind id => [(kind, id)]

end Value

end Nivren
