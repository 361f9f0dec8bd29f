import Nivren.Arith

/-! The checker's types.

`compatible` is the test behind every assignment, argument and `give`; `unify` infers the arguments
of a generic call and `substitute` applies them.
-/

namespace Nivren

/-- The checker's `Type`. The members of a module are kept as a list of entries. -/
inductive Ty
  | int | uint | u128 | float | string | bytes | secretKey | bool | null
  | generic (name : String)
  | function (typeParams : List String) (constraints : List (String × String)) (params : List Ty)
      (result : Ty) (needs : List String)
  | array (element : Ty)
  | iterator (element : Ty)
  | map (key value : Ty)
  | set (element : Ty)
  | nullable (inner : Ty)
  | record (name : String) (arguments : List Ty)
  | enum (name : String) (arguments : List Ty)
  | enumNamespace (name : String)
  | protocolNamespace (name : String)
  | result (ok error : Ty)
  | module (members : List (String × Ty))
  | file | tcpListener | tcpStream | tlsStream | webSocket | tlsListener | lock | lockGuard
  | atomicInt | nativeHandle | nativeLibrary
  | transaction (key value : Ty)
  | dateTime | bigInt | decimal
  | fixed (kind : FixedKind)
  | task | channel
  | unknown

namespace Ty

mutual

/-- `Type::name`: how messages spell a type. -/
def name : Ty → String
  | .int => "Int"
  | .uint => "UInt"
  | .u128 => "U128"
  | .float => "Float"
  | .string => "String"
  | .bytes => "Bytes"
  | .secretKey => "SecretKey"
  | .bool => "Bool"
  | .null => "Nothing"
  | .generic name => name
  | .function .. => "Function"
  | .array element => "[" ++ element.name ++ "]"
  | .iterator element => "Iterator<" ++ element.name ++ ">"
  | .map key value => "Map<" ++ key.name ++ ", " ++ value.name ++ ">"
  | .set element => "Set<" ++ element.name ++ ">"
  | .nullable inner => inner.name ++ "?"
  | .record name arguments | .enum name arguments =>
    if arguments.isEmpty then name else name ++ "<" ++ ", ".intercalate (names arguments) ++ ">"
  | .enumNamespace name => name
  | .protocolNamespace name => name
  | .result ok error => "Result<" ++ ok.name ++ ", " ++ error.name ++ ">"
  | .module _ => "Module"
  | .file => "File"
  | .tcpListener => "TcpListener"
  | .tcpStream => "TcpStream"
  | .tlsStream => "TlsStream"
  | .webSocket => "WebSocket"
  | .tlsListener => "TlsListener"
  | .lock => "Lock"
  | .lockGuard => "LockGuard"
  | .atomicInt => "AtomicInt"
  | .nativeHandle => "NativeHandle"
  | .nativeLibrary => "NativeLibrary"
  | .transaction key value => "Transaction<" ++ key.name ++ ", " ++ value.name ++ ">"
  | .dateTime => "DateTime"
  | .bigInt => "BigInt"
  | .decimal => "Decimal"
  | .fixed kind => kind.name
  | .task => "Task"
  | .channel => "Channel"
  | .unknown => "unknown"

def names : List Ty → List String
  | [] => []
  | ty :: rest => ty.name :: names rest

end

mutual

/-- Equality of types; modules are compared as maps. -/
def same : Ty → Ty → Bool
  | .int, .int | .uint, .uint | .u128, .u128 | .float, .float | .string, .string | .bytes, .bytes
  | .secretKey, .secretKey | .bool, .bool | .null, .null | .file, .file
  | .tcpListener, .tcpListener | .tcpStream, .tcpStream | .tlsStream, .tlsStream
  | .webSocket, .webSocket | .tlsListener, .tlsListener | .lock, .lock | .lockGuard, .lockGuard
  | .atomicInt, .atomicInt | .nativeHandle, .nativeHandle | .nativeLibrary, .nativeLibrary
  | .dateTime, .dateTime | .bigInt, .bigInt | .decimal, .decimal | .task, .task
  | .channel, .channel | .unknown, .unknown => true
  | .generic a, .generic b | .enumNamespace a, .enumNamespace b
  | .protocolNamespace a, .protocolNamespace b => a == b
  | .function typeParams constraints params gives needs, .function typeParams' constraints' params'
      gives' needs' =>
    typeParams == typeParams' && constraints == constraints' && sameAll params params' &&
      same gives gives' && needs == needs'
  | .array a, .array b | .iterator a, .iterator b | .set a, .set b | .nullable a, .nullable b =>
    same a b
  | .map k v, .map k' v' | .result k v, .result k' v' | .transaction k v, .transaction k' v' =>
    same k k' && same v v'
  | .record n a, .record m b | .enum n a, .enum m b => n == m && sameAll a b
  | .module a, .module b => sameMembers a b && b.all (isMember a)
  | .fixed a, .fixed b => a == b
  | _, _ => false
termination_by structural a => a

def sameAll : List Ty → List Ty → Bool
  | [], [] => true
  | a :: as, b :: bs => same a b && sameAll as bs
  | _, _ => false
termination_by structural a => a

def sameMembers : List (String × Ty) → List (String × Ty) → Bool
  | [], _ => true
  | (name, a) :: as, bs => bs.any (fun b => name == b.1 && same a b.2) && sameMembers as bs
termination_by structural a => a

def isMember : List (String × Ty) → String × Ty → Bool
  | [], _ => false
  | (name, a) :: as, b => name == b.1 && same a b.2 || isMember as b
termination_by structural a => a

end

def isUnknown : Ty → Bool
  | .unknown => true
  | _ => false

/-- The clause of `compatible` for an expected `maybe` type: the test may also hold below it. -/
def orInner (test : Ty → Bool) : Ty → Bool
  | .nullable inner => test (.nullable inner) || orInner test inner
  | ty => test ty

mutual

/-- `compatible(found, expected)`. -/
def compatible : Ty → Ty → Bool
  | .unknown => fun _ => true
  | .null => orInner fun right => right.isUnknown || match right with
    | .null | .nullable _ => true
    | _ => false
  | .nullable inner => orInner fun right => same (.nullable inner) right || right.isUnknown ||
    (match right with
      | .null => true
      | _ => false) || compatible inner right
  | .result ok error => orInner fun right => same (.result ok error) right || right.isUnknown ||
    match right with
    | .result ok' error' => compatible ok ok' && compatible error error'
    | _ => false
  | .array element => orInner fun right => same (.array element) right || right.isUnknown ||
    match right with
    | .array element' => compatible element element'
    | _ => false
  | .iterator element => orInner fun right => same (.iterator element) right || right.isUnknown ||
    match right with
    | .iterator element' => compatible element element'
    | _ => false
  | .transaction key value => orInner fun right =>
    same (.transaction key value) right || right.isUnknown || match right with
    | .transaction key' value' => compatible key key' && compatible value value'
    | _ => false
  | .map key value => orInner fun right => same (.map key value) right || right.isUnknown ||
    match right with
    | .map key' value' => compatible key key' && compatible value value'
    | _ => false
  | .set element => orInner fun right => same (.set element) right || right.isUnknown ||
    match right with
    | .set element' => compatible element element'
    | _ => false
  | .record name arguments => orInner fun right => same (.record name arguments) right ||
    right.isUnknown || match right with
    | .record name' arguments' => name == name' && compatibleAll arguments arguments'
    | _ => false
  | .enum name arguments => orInner fun right => same (.enum name arguments) right ||
    right.isUnknown || match right with
    | .enum name' arguments' => name == name' && compatibleAll arguments arguments'
    | _ => false
  | .function typeParams constraints params gives needs => orInner fun right =>
    same (.function typeParams constraints params gives needs) right || right.isUnknown ||
    match right with
    | .function _ _ params' gives' needs' =>
      compatibleAll params params' && compatible gives gives' &&
        (needs == needs' || "$effects" ∈ needs || "$effects" ∈ needs')
    | _ => false
  | left => orInner fun right => same left right || right.isUnknown

/-- `compatible` on lists of one length. -/
def compatibleAll : List Ty → List Ty → Bool
  | [], [] => true
  | a :: as, b :: bs => compatible a b && compatibleAll as bs
  | _, _ => false

end

abbrev Substitutions := List (String × Ty)

mutual

/-- `substitute`; a parameter without an argument becomes unknown. -/
def substitute (substitutions : Substitutions) : Ty → Ty
  | .generic name => (substitutions.lookup name).getD .unknown
  | .array element => .array (substitute substitutions element)
  | .iterator element => .iterator (substitute substitutions element)
  | .transaction key value =>
    .transaction (substitute substitutions key) (substitute substitutions value)
  | .map key value => .map (substitute substitutions key) (substitute substitutions value)
  | .set element => .set (substitute substitutions element)
  | .nullable inner => .nullable (substitute substitutions inner)
  | .result ok error => .result (substitute substitutions ok) (substitute substitutions error)
  | .record name arguments => .record name (substituteAll substitutions arguments)
  | .enum name arguments => .enum name (substituteAll substitutions arguments)
  | .function typeParams constraints params gives needs =>
    .function typeParams constraints (substituteAll substitutions params)
      (substitute substitutions gives) needs
  | other => other

def substituteAll (substitutions : Substitutions) : List Ty → List Ty
  | [] => []
  | ty :: rest => substitute substitutions ty :: substituteAll substitutions rest

end

mutual

/-- `unify(expected, found)`; what was inferred before a mismatch is kept. -/
def unify : Ty → Ty → Substitutions → Bool × Substitutions
  | .generic name, found, substitutions =>
    match substitutions.lookup name with
    | some previous => (compatible previous found, substitutions)
    | none => (true, (name, found) :: substitutions)
  | .array expected, .array found, substitutions
  | .iterator expected, .iterator found, substitutions
  | .set expected, .set found, substitutions => unify expected found substitutions
  | .transaction key value, .transaction key' value', substitutions
  | .map key value, .map key' value', substitutions
  | .result key value, .result key' value', substitutions =>
    let (matched, substitutions) := unify key key' substitutions
    if matched then unify value value' substitutions else (false, substitutions)
  | .nullable expected, .nullable found, substitutions => unify expected found substitutions
  | .nullable _, .null, substitutions => (true, substitutions)
  | .record name arguments, .record name' arguments', substitutions
  | .enum name arguments, .enum name' arguments', substitutions =>
    if name == name' && arguments.length == arguments'.length then
      unifyAll arguments arguments' substitutions
    else (false, substitutions)
  | .function _ _ params gives needs, .function _ _ params' gives' needs', substitutions =>
    if params.length == params'.length then
      let (matched, substitutions) := unifyAll params params' substitutions
      if matched then
        let (matched, substitutions) := unify gives gives' substitutions
        (matched && (needs == needs' || "$effects" ∈ needs), substitutions)
      else (false, substitutions)
    else (false, substitutions)
  | .array _, _, substitutions | .iterator _, _, substitutions | .set _, _, substitutions
  | .transaction .., _, substitutions | .map .., _, substitutions | .result .., _, substitutions
  | .nullable _, _, substitutions | .record .., _, substitutions | .enum .., _, substitutions
  | .function .., _, substitutions => (false, substitutions)
  | expected, found, substitutions => (compatible expected found, substitutions)
termination_by structural expected => expected

def unifyAll : List Ty → List Ty → Substitutions → Bool × Substitutions
  | expected :: rest, found :: rest', substitutions =>
    let (matched, substitutions) := unify expected found substitutions
    if matched then unifyAll rest rest' substitutions else (false, substitutions)
  | _, _, substitutions => (true, substitutions)
termination_by structural expected => expected

end

end Ty

end Nivren
