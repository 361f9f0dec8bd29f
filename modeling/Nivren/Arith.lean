import Nivren.Syntax

/-! Checked machine arithmetic and what the runtime takes from outside libraries.

Integers of a fixed width are integers with an inclusive range; every checked operation returns
`none` where the Rust operation of the same name does.
-/

namespace Nivren

/-- How a runtime function can fail: with an error the program sees, or with a Rust panic. -/
inductive Failure
  | error (error : NivError)
  | panic
deriving DecidableEq, Repr

abbrev Result (α : Type) := Except Failure α

def fail {α : Type} (message : String) (span : Span) : Result α :=
  .error (.error (errorAt message span))

structure Width where
  minimum : Int
  maximum : Int
deriving DecidableEq, Repr

namespace Width

def i64 : Width := ⟨-(2 ^ 63), 2 ^ 63 - 1⟩

def u64 : Width := ⟨0, 2 ^ 64 - 1⟩

def u128 : Width := ⟨0, 2 ^ 128 - 1⟩

def fit (w : Width) (n : Int) : Option Int :=
  if w.minimum ≤ n ∧ n ≤ w.maximum then some n else none

def checkedAdd (w : Width) (a b : Int) : Option Int := w.fit (a + b)

def checkedSub (w : Width) (a b : Int) : Option Int := w.fit (a - b)

def checkedMul (w : Width) (a b : Int) : Option Int := w.fit (a * b)

def checkedDiv (w : Width) (a b : Int) : Option Int :=
  if b = 0 then none else w.fit (a.tdiv b)

/-- Rust's `checked_rem` also refuses `MIN % -1`, whose quotient overflows. -/
def checkedRem (w : Width) (a b : Int) : Option Int :=
  if b = 0 then none else (w.fit (a.tdiv b)).map fun _ => a.tmod b

def checkedNeg (w : Width) (a : Int) : Option Int := w.fit (-a)

end Width

inductive FixedKind
  | i8 | i16 | i32 | i128 | u8 | u16 | u32 | u64
deriving DecidableEq, Repr

namespace FixedKind

def name : FixedKind → String
  | i8 => "I8" | i16 => "I16" | i32 => "I32" | i128 => "I128"
  | u8 => "U8" | u16 => "U16" | u32 => "U32" | u64 => "U64"

def width : FixedKind → Width
  | i8 => ⟨-(2 ^ 7), 2 ^ 7 - 1⟩
  | i16 => ⟨-(2 ^ 15), 2 ^ 15 - 1⟩
  | i32 => ⟨-(2 ^ 31), 2 ^ 31 - 1⟩
  | i128 => ⟨-(2 ^ 127), 2 ^ 127 - 1⟩
  | u8 => ⟨0, 2 ^ 8 - 1⟩
  | u16 => ⟨0, 2 ^ 16 - 1⟩
  | u32 => ⟨0, 2 ^ 32 - 1⟩
  | u64 => Width.u64

def signed : FixedKind → Bool
  | i8 | i16 | i32 | i128 => true
  | u8 | u16 | u32 | u64 => false

end FixedKind

structure FixedInt where
  kind : FixedKind
  value : Int
  inRange : kind.width.minimum ≤ value ∧ value ≤ kind.width.maximum
deriving DecidableEq, Repr

/-- `FixedInt::new`: refuses a value outside the kind's range. -/
def FixedInt.new (kind : FixedKind) (value : Int) : Option FixedInt :=
  if h : kind.width.minimum ≤ value ∧ value ≤ kind.width.maximum then some ⟨kind, value, h⟩
  else none

def FixedInt.carrier : Width := FixedKind.i128.width

/-- Arithmetic and text the runtime takes from the Rust standard library and from the decimal and
date libraries. Floats are bit patterns, decimals their 128-bit encodings and dates their text. -/
structure RustLibrary where
  floatAdd : UInt64 → UInt64 → UInt64
  floatSub : UInt64 → UInt64 → UInt64
  floatMul : UInt64 → UInt64 → UInt64
  floatDiv : UInt64 → UInt64 → UInt64
  floatRem : UInt64 → UInt64 → UInt64
  floatNeg : UInt64 → UInt64
  floatEq : UInt64 → UInt64 → Bool
  floatLess : UInt64 → UInt64 → Bool
  floatLessEq : UInt64 → UInt64 → Bool
  floatIsZero : UInt64 → Bool
  floatIsFinite : UInt64 → Bool
  floatText : UInt64 → String
  decimalAdd : Nat → Nat → Option Nat
  decimalSub : Nat → Nat → Option Nat
  decimalMul : Nat → Nat → Option Nat
  decimalDiv : Nat → Nat → Option Nat
  decimalRem : Nat → Nat → Option Nat
  decimalNeg : Nat → Option Nat
  decimalEq : Nat → Nat → Bool
  decimalLess : Nat → Nat → Bool
  decimalLessEq : Nat → Nat → Bool
  decimalIsZero : Nat → Bool
  decimalText : Nat → String
  dateEq : String → String → Bool
  dateLess : String → String → Bool
  dateLessEq : String → String → Bool
  debugText : String → String

end Nivren
