import Nivren.Value

/-! Operators on values: arithmetic, comparison, negation and indexing.

The `unreachable!()` arms of the source are `Failure.panic` here. They are reached only by operators
the verifier does not let through.
-/

namespace Nivren

variable {β : Type}

def typeError (message : String) (left right : Value β) (span : Span) : NivError :=
  errorAt (message ++ "; found " ++ left.typeName ++ " and " ++ right.typeName) span

/-- An ordered comparison operator applied to `a < b` and `a ≤ b` tests. -/
def compareBy {α : Type} (less lessEq : α → α → Bool) (a : α) (operator : TokenKind) (b : α) :
    Option Bool :=
  match operator with
  | .greater => some (less b a)
  | .greaterEqual => some (lessEq b a)
  | .less => some (less a b)
  | .lessEqual => some (lessEq a b)
  | _ => none

structure Arithmetic (α : Type) where
  add : α → α → Option α
  sub : α → α → Option α
  mul : α → α → Option α
  div : α → α → Option α
  rem : α → α → Option α
  isZero : α → Bool
  less : α → α → Bool
  lessEq : α → α → Bool

def Width.arithmetic (w : Width) : Arithmetic Int where
  add := w.checkedAdd
  sub := w.checkedSub
  mul := w.checkedMul
  div := w.checkedDiv
  rem := w.checkedRem
  isZero n := n == 0
  less a b := a < b
  lessEq a b := a ≤ b

def bigIntArithmetic : Arithmetic Int where
  add a b := some (a + b)
  sub a b := some (a - b)
  mul a b := some (a * b)
  div a b := some (a.tdiv b)
  rem a b := some (a.tmod b)
  isZero n := n == 0
  less a b := a < b
  lessEq a b := a ≤ b

def RustLibrary.floatArithmetic (lib : RustLibrary) : Arithmetic UInt64 where
  add a b := some (lib.floatAdd a b)
  sub a b := some (lib.floatSub a b)
  mul a b := some (lib.floatMul a b)
  div a b := some (lib.floatDiv a b)
  rem a b := some (lib.floatRem a b)
  isZero := lib.floatIsZero
  less := lib.floatLess
  lessEq := lib.floatLessEq

def RustLibrary.decimalArithmetic (lib : RustLibrary) : Arithmetic Nat where
  add := lib.decimalAdd
  sub := lib.decimalSub
  mul := lib.decimalMul
  div := lib.decimalDiv
  rem := lib.decimalRem
  isZero := lib.decimalIsZero
  less := lib.decimalLess
  lessEq := lib.decimalLessEq

def checkedValue {α : Type} (make : α → Option (Value β)) (overflow : String) (span : Span)
    (value : Option α) : Result (Value β) :=
  match value.bind make with
  | some value => .ok value
  | none => fail overflow span

/-- The shared shape of the source's `*_binary` functions. -/
def Arithmetic.binary {α : Type} (num : Arithmetic α) (make : α → Option (Value β))
    (overflow : String) (a : α) (operator : TokenKind) (b : α) (span : Span) :
    Result (Value β) :=
  let checked := checkedValue make overflow span
  match operator with
  | .plus => checked (num.add a b)
  | .minus => checked (num.sub a b)
  | .star => checked (num.mul a b)
  | .slash => if num.isZero b then fail "division by zero" span else checked (num.div a b)
  | .percent => if num.isZero b then fail "remainder by zero" span else checked (num.rem a b)
  | _ =>
    match compareBy num.less num.lessEq a operator b with
    | some decision => .ok (.bool decision)
    | none => .error .panic

/-- `+` on Ints, `int_binary` for the other operators. -/
def intBinary (a : Int) (operator : TokenKind) (b : Int) (span : Span) : Result (Value β) :=
  Width.i64.arithmetic.binary (fun n => some (.int n)) "integer overflow" a operator b span

def uintBinary (a : Nat) (operator : TokenKind) (b : Nat) (span : Span) : Result (Value β) :=
  Width.u64.arithmetic.binary (fun n => some (.uint n.toNat)) "unsigned integer overflow"
    a operator b span

def u128Binary (a : Nat) (operator : TokenKind) (b : Nat) (span : Span) : Result (Value β) :=
  Width.u128.arithmetic.binary (fun n => some (.u128 n.toNat)) "unsigned integer overflow"
    a operator b span

def bigintBinary (a : Int) (operator : TokenKind) (b : Int) (span : Span) : Result (Value β) :=
  bigIntArithmetic.binary (fun n => some (.bigInt n)) "integer overflow" a operator b span

def floatBinary (lib : RustLibrary) (a : UInt64) (operator : TokenKind) (b : UInt64)
    (span : Span) : Result (Value β) :=
  lib.floatArithmetic.binary (fun n => some (.float n)) "float overflow" a operator b span

def decimalBinary (lib : RustLibrary) (a : Nat) (operator : TokenKind) (b : Nat) (span : Span) :
    Result (Value β) :=
  lib.decimalArithmetic.binary (fun n => some (.decimal n)) "decimal overflow" a operator b span

/-- Fixed-width operands must be of one kind; the result is checked in the carrier first. -/
def fixedBinary (a : FixedInt) (operator : TokenKind) (b : FixedInt) (span : Span) :
    Result (Value β) :=
  if a.kind ≠ b.kind then
    fail ("fixed-width operands must match; found " ++ a.kind.name ++ " and " ++ b.kind.name) span
  else
    FixedInt.carrier.arithmetic.binary (fun n => (FixedInt.new a.kind n).map .fixedInt)
      "fixed-width integer overflow" a.value operator b.value span

/-- The numeric families `+`, the other arithmetic operators and the comparisons share. -/
def numericBinary (lib : RustLibrary) (left : Value β) (operator : TokenKind) (right : Value β)
    (span : Span) : Option (Result (Value β)) :=
  match left, right with
  | .int a, .int b => some (intBinary a operator b span)
  | .uint a, .uint b => some (uintBinary a operator b span)
  | .u128 a, .u128 b => some (u128Binary a operator b span)
  | .float a, .float b => some (floatBinary lib a operator b span)
  | .bigInt a, .bigInt b => some (bigintBinary a operator b span)
  | .decimal a, .decimal b => some (decimalBinary lib a operator b span)
  | .fixedInt a, .fixedInt b => some (fixedBinary a operator b span)
  | _, _ => none

/-- `Interpreter::binary`. -/
def binary (lib : RustLibrary) (left : Value β) (operator : TokenKind) (right : Value β)
    (span : Span) : Result (Value β) :=
  match operator with
  | .equalEqual => .ok (.bool (left.beq lib right))
  | .bangEqual => .ok (.bool (!left.beq lib right))
  | .plus =>
    match numericBinary lib left operator right span, left, right with
    | some result, _, _ => result
    | none, .string a, .string b => .ok (.string (a ++ b))
    | none, _, _ => .error (.error
        (typeError "'+' requires two Ints, two Floats, or two Strings" left right span))
  | .minus | .star | .slash | .percent =>
    match numericBinary lib left operator right span with
    | some result => result
    | none => .error (.error
        (typeError "numeric operator requires operands of the same numeric type" left right span))
  | .greater | .greaterEqual | .less | .lessEqual =>
    match numericBinary lib left operator right span, left, right with
    | some result, _, _ => result
    | none, .dateTime a, .dateTime b =>
      match compareBy lib.dateLess lib.dateLessEq a operator b with
      | some decision => .ok (.bool decision)
      | none => .error .panic
    | none, _, _ => .error (.error
        (typeError "ordered comparison requires matching numeric or DateTime values"
          left right span))
  | _ => .error .panic

/-- The VM's fast path for two Ints, then `Interpreter::binary`. -/
def vmBinary (lib : RustLibrary) (left : Value β) (operator : TokenKind) (right : Value β)
    (span : Span) : Result (Value β) :=
  match left, right with
  | .int a, .int b =>
    match operator with
    | .equalEqual => .ok (.bool (a == b))
    | .bangEqual => .ok (.bool (a != b))
    | _ => intBinary a operator b span
  | _, _ => binary lib left operator right span

def negate (lib : RustLibrary) (value : Value β) (span : Span) : Result (Value β) :=
  match value with
  | .int number =>
    match Width.i64.checkedNeg number with
    | some number => .ok (.int number)
    | none => fail "integer overflow" span
  | .float bits => .ok (.float (lib.floatNeg bits))
  | .bigInt number => .ok (.bigInt (-number))
  | .decimal encoding =>
    match lib.decimalNeg encoding with
    | some encoding => .ok (.decimal encoding)
    | none => fail "decimal overflow" span
  | .uint _ | .u128 _ =>
    fail "unsigned values have no negation; convert with std.uint.to_int first" span
  | .fixedInt number =>
    if number.kind.signed then
      match (FixedInt.carrier.checkedNeg number.value).bind (FixedInt.new number.kind) with
      | some number => .ok (.fixedInt number)
      | none => fail "fixed-width integer overflow" span
    else fail ("expected a numeric value, found " ++ value.typeName) span
  | other => fail ("expected a numeric value, found " ++ other.typeName) span

def expectBool (value : Value β) (span : Span) : Result Bool :=
  match value with
  | .bool boolean => .ok boolean
  | other => fail ("expected Bool, found " ++ other.typeName) span

/-- Unary operators; anything but `-` and `!` is the source's `unreachable!()`. -/
def unary (lib : RustLibrary) (operator : TokenKind) (value : Value β) (span : Span) :
    Result (Value β) :=
  match operator with
  | .minus => negate lib value span
  | .bang => (expectBool value span).map fun boolean => .bool (!boolean)
  | _ => .error .panic

def expectIndex (value : Value β) (span : Span) : Result Nat :=
  match value with
  | .int number =>
    if 0 ≤ number then .ok number.toNat else fail "index must be non-negative" span
  | other => fail ("index must be Int, found " ++ other.typeName) span

def outOfBounds (index length : Nat) : String :=
  s!"index {index} is out of bounds for length {length}"

def indexValue (collection : Value β) (index : Nat) (span : Span) : Result (Value β) :=
  match collection with
  | .array values =>
    match values[index]? with
    | some value => .ok value
    | none => fail (outOfBounds index values.length) span
  | .string text =>
    match text.toList[index]? with
    | some character => .ok (.string (String.singleton character))
    | none => fail (outOfBounds index text.toList.length) span
  | other => fail (other.typeName ++ " cannot be indexed") span

def checkArity (name : String) (expected actual : Nat) (span : Span) : Result Unit :=
  if expected = actual then .ok ()
  else fail ("'" ++ name ++ s!"' expects {expected} arguments, received {actual}") span

/-- `problem_value`: the builtin shape of typed failures. -/
def problemValue (kind message : String) : Value β :=
  .record "Problem" [("kind", .string kind), ("message", .string message)]

/-- Typed failures of a native carry the `Problem` shape of its kind. -/
def wrapProblem (kind : Option String) (value : Value β) : Value β :=
  match kind, value with
  | some kind, .err (.string message) => .err (problemValue kind message)
  | _, value => value

end Nivren
