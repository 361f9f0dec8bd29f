import Nivren.Verify
import Nivren.Library.Codec

/-! The bundle format: a compiled program as a file.

A bundle is the magic `NIVB` and one chunk. `Bundle.encode` and `Bundle.decode` both verify the chunk;
the decoder also limits every count and the nesting.
-/

namespace Nivren.Bundle

open Codec

def magic : Bytes := [78, 73, 86, 66]

def maxItems : Nat := 1000000

def maxDepth : Nat := 256

def bundleError (message : String) : NivError := NivError.new message 1 1

namespace Writer

abbrev Out := Output NivError

def u8 (value : UInt8) : Out := .ok [value]

/-- A number in a fixed number of bytes. Only `len` can be too large in the source, where the types
bound the others. -/
def fixed (width value : Nat) : Out :=
  if value < 256 ^ width then .ok (leBytes width value)
  else .error (bundleError "bundle value exceeds format limit")

def u16 (value : Nat) : Out := fixed 2 value

def len (value : Nat) : Out := fixed 4 value

/-- `i64::to_le_bytes`; the source has no integers outside the range. -/
def i64 (value : Int) : Out :=
  if -2 ^ 63 ≤ value ∧ value < 2 ^ 63 then fixed 8 (value % 2 ^ 64).toNat
  else .error (bundleError "bundle value exceeds format limit")

/-- `u8::from(bool)`. -/
def boolean (value : Bool) : Out := u8 (if value then 1 else 0)

def span (s : Span) : Out := len s.line ++ len s.column

def string (value : String) : Out :=
  len value.toByteArray.data.toList.length ++ (.ok value.toByteArray.data.toList : Out)

def counted {α : Type} (w : α → Out) (values : List α) : Out :=
  len values.length ++ writeAll w values

def strings (values : List String) : Out := counted string values

def pair (entry : String × String) : Out := string entry.1 ++ string entry.2

def operator : TokenKind → Out
  | .plus => u8 0
  | .minus => u8 1
  | .star => u8 2
  | .slash => u8 3
  | .percent => u8 4
  | .bang => u8 5
  | .equalEqual => u8 6
  | .bangEqual => u8 7
  | .greater => u8 8
  | .greaterEqual => u8 9
  | .less => u8 10
  | .lessEqual => u8 11
  | _ => .error (bundleError "invalid bytecode operator")

def literal : Literal → Out
  | .int value => u8 0 ++ i64 value
  | .float bits => u8 1 ++ fixed 8 bits.toNat
  | .string text => u8 2 ++ string text
  | .bool value => u8 3 ++ boolean value
  | .null => u8 4

mutual

def pattern : Pattern → Out
  | .any s => u8 0 ++ span s
  | .literal value s => u8 1 ++ (span s ++ literal value)
  | .name name s => u8 2 ++ (span s ++ string name)
  | .binding name s => u8 3 ++ (span s ++ string name)
  | .carries name inner s => u8 4 ++ (span s ++ (string name ++ pattern inner))
  | .shape name fields s =>
    u8 5 ++ (span s ++ (string name ++ (len fields.length ++ fieldPatterns fields)))

def fieldPatterns : List (String × Pattern) → Out
  | [] => .ok []
  | (field, inner) :: rest => (string field ++ pattern inner) ++ fieldPatterns rest

end

def patterns (values : List Pattern) : Out := counted pattern values

def optionalPattern : Option Pattern → Out
  | none => u8 0
  | some value => u8 1 ++ pattern value

def optionalString : Option String → Out
  | none => u8 0
  | some value => u8 1 ++ string value

def promiseClause (clause : PromiseClause) : Out :=
  string clause.capability ++ (boolean clause.never ++ (strings clause.boundaries ++
    span clause.span))

mutual

def chunk : Chunk → Out
  | ⟨version, code⟩ => u16 version ++ (len code.length ++ instructions code)

def instructions : List Instruction → Out
  | [] => .ok []
  | next :: rest => instruction next ++ instructions rest

def instruction : Instruction → Out
  | ⟨op, s⟩ => span s ++ operation op

/-- The tag and the operands of an instruction. -/
def operation : Op → Out
  | .constant value => u8 0 ++ literal value
  | .load name => u8 1 ++ string name
  | .store name => u8 2 ++ string name
  | .define name mutable => u8 3 ++ (string name ++ boolean mutable)
  | .pop => u8 4
  | .unary op => u8 5 ++ operator op
  | .binary op => u8 6 ++ operator op
  | .jump target => u8 7 ++ len target
  | .jumpIfFalse target => u8 8 ++ len target
  | .call count => u8 9 ++ len count
  | .makeArray count => u8 10 ++ len count
  | .index => u8 11
  | .coalesce target => u8 12 ++ len target
  | .get name => u8 13 ++ string name
  | .print => u8 14
  | .enterScope => u8 15
  | .exitScope => u8 16
  | .makeFunction name params body => u8 17 ++ (string name ++ (strings params ++ chunk body))
  | .return => u8 18
  | .defineRecord name fields derives =>
    u8 19 ++ (string name ++ (counted pair fields ++ strings derives))
  | .defineEnum name variants payloadVariants =>
    u8 20 ++ (string name ++ (strings variants ++ strings payloadVariants))
  | .matchArms values => u8 21 ++ (len values.length ++ arms values)
  | .defineModule name body exports => u8 22 ++ (string name ++ (chunk body ++ strings exports))
  | .iterate name pattern body =>
    u8 23 ++ (string name ++ (optionalPattern pattern ++ chunk body))
  | .using name body => u8 24 ++ (string name ++ chunk body)
  | .propagate => u8 25
  | .defineProtocol name members => u8 26 ++ (string name ++ strings members)
  | .adoptProtocol protocol typeName mappings =>
    u8 27 ++ (string protocol ++ (string typeName ++ counted pair mappings))
  | .prepare planType => u8 28 ++ string planType
  | .perform => u8 29
  | .performCall count => u8 30 ++ len count
  | .repeat condition body => u8 31 ++ (chunk condition ++ chunk body)
  | .loopExit skip => u8 32 ++ boolean skip
  | .ifCarries values thenBranch elseBranch =>
    u8 33 ++ (patterns values ++ (chunk thenBranch ++ optionalChunk elseBranch))
  | .makeText count => u8 34 ++ len count
  | .definePattern value => u8 35 ++ pattern value
  | .sample title body shows => u8 36 ++ (string title ++ (chunk body ++ optionalString shows))
  | .promise clauses => u8 37 ++ counted promiseClause clauses

def optionalChunk : Option Chunk → Out
  | none => u8 0
  | some value => u8 1 ++ chunk value

def arms : List BytecodeArm → Out
  | [] => .ok []
  | ⟨values, guard, body, s⟩ :: rest =>
    (patterns values ++ (optionalChunk guard ++ (span s ++ chunk body))) ++ arms rest

end

end Writer

/-- `bundle::encode`. -/
def encode (chunk : Chunk) : Except NivError Bytes := do
  verify chunk
  (.ok magic : Writer.Out) ++ Writer.chunk chunk

namespace Reader

abbrev In := Codec.Reader NivError

def take (count : Nat) : In Bytes := Codec.take (bundleError "truncated bytecode bundle") count

def fixed (width : Nat) : In Nat := leValue <$> take width

def u8 : In UInt8 := do
  match ← take 1 with
  | byte :: _ => return byte
  | [] => throw (bundleError "truncated bytecode bundle")

def u16 : In Nat := fixed 2

def count : In Nat := do
  let value ← fixed 4
  if maxItems < value then throw (bundleError "bundle allocation limit exceeded")
  else return value

/-- `i64::from_le_bytes`. -/
def i64 : In Int := (fun n : Nat => if n < 2 ^ 63 then (n : Int) else n - 2 ^ 64) <$> fixed 8

def boolean : In Bool := do
  match ← u8 with
  | 0 => return false
  | 1 => return true
  | _ => throw (bundleError "invalid boolean")

/-- A flag that is not read by `boolean`: any byte but zero counts as set. -/
def looseFlag : In Bool := (· != 0) <$> u8

def span : In Span := do
  let line ← count
  let column ← count
  return ⟨line, column⟩

def string : In String := do
  let length ← count
  let bytes ← take length
  match String.fromUTF8? ⟨bytes.toArray⟩ with
  | some text => return text
  | none => throw (bundleError "bundle contains invalid UTF-8")

def counted {α : Type} (r : In α) : In (List α) := do
  many r (← count)

def strings : In (List String) := counted string

def pair : In (String × String) := do
  let first ← string
  let second ← string
  return (first, second)

def operator : In TokenKind := do
  match ← u8 with
  | 0 => return .plus
  | 1 => return .minus
  | 2 => return .star
  | 3 => return .slash
  | 4 => return .percent
  | 5 => return .bang
  | 6 => return .equalEqual
  | 7 => return .bangEqual
  | 8 => return .greater
  | 9 => return .greaterEqual
  | 10 => return .less
  | 11 => return .lessEqual
  | _ => throw (bundleError "unknown bytecode operator")

def literal : In Literal := do
  match ← u8 with
  | 0 => return .int (← i64)
  | 1 => return .float (UInt64.ofNat (← fixed 8))
  | 2 => return .string (← string)
  | 3 => return .bool (← boolean)
  | 4 => return .null
  | _ => throw (bundleError "unknown bytecode literal")

/-- `Reader::pattern`, with the levels of nesting that are left; depth 256 is the last one. -/
def pattern : Nat → In Pattern
  | 0 => throw (bundleError "pattern nesting is too deep")
  | levels + 1 => do
    match ← u8 with
    | 0 => return .any (← span)
    | 1 =>
      let s ← span
      return .literal (← literal) s
    | 2 =>
      let s ← span
      return .name (← string) s
    | 3 =>
      let s ← span
      return .binding (← string) s
    | 4 =>
      let s ← span
      let name ← string
      return .carries name (← pattern levels) s
    | 5 =>
      let s ← span
      let name ← string
      let fields ← counted do
        let field ← string
        return (field, ← pattern levels)
      return .shape name fields s
    | _ => throw (bundleError "unknown pattern kind")

/-- The alternatives of an arm or of a `when … carries`. -/
def patterns (empty : String) (levels : Nat) : In (List Pattern) := do
  let number ← count
  if number = 0 then throw (bundleError empty)
  else many (pattern levels) number

def optionalPattern (levels : Nat) : In (Option Pattern) := do
  match ← u8 with
  | 0 => return none
  | 1 => return some (← pattern levels)
  | _ => throw (bundleError "invalid optional pattern")

section Nested

-- `flag` reads the flags the source compares with zero, `chunk` the chunks one level further down
variable (flag : In Bool) (chunk : In Chunk) (levels : Nat)

def promiseClause : In PromiseClause := do
  let capability ← string
  let never ← flag
  let boundaries ← strings
  let s ← span
  return ⟨capability, never, boundaries, s⟩

def optionalString : In (Option String) := do
  if ← flag then return some (← string) else return none

def optionalChunk : In (Option Chunk) := do
  if ← flag then return some (← chunk) else return none

def optionalGuard : In (Option Chunk) := do
  match ← u8 with
  | 0 => return none
  | 1 => return some (← chunk)
  | _ => throw (bundleError "invalid optional guard")

def arm : In BytecodeArm := do
  let values ← patterns "a choose arm needs at least one pattern" levels
  let guard ← optionalGuard chunk
  let s ← span
  let body ← chunk
  return ⟨values, guard, body, s⟩

/-- The tag and the operands of an instruction. -/
def operation : In Op := do
  match ← u8 with
  | 0 => return .constant (← literal)
  | 1 => return .load (← string)
  | 2 => return .store (← string)
  | 3 =>
    let name ← string
    return .define name (← boolean)
  | 4 => return .pop
  | 5 => return .unary (← operator)
  | 6 => return .binary (← operator)
  | 7 => return .jump (← count)
  | 8 => return .jumpIfFalse (← count)
  | 9 => return .call (← count)
  | 10 => return .makeArray (← count)
  | 11 => return .index
  | 12 => return .coalesce (← count)
  | 13 => return .get (← string)
  | 14 => return .print
  | 15 => return .enterScope
  | 16 => return .exitScope
  | 17 =>
    let name ← string
    let params ← strings
    return .makeFunction name params (← chunk)
  | 18 => return .return
  | 19 =>
    let name ← string
    let fields ← counted pair
    return .defineRecord name fields (← strings)
  | 20 =>
    let name ← string
    let variants ← strings
    return .defineEnum name variants (← strings)
  | 21 => return .matchArms (← counted (arm chunk levels))
  | 22 =>
    let name ← string
    let body ← chunk
    return .defineModule name body (← strings)
  | 23 =>
    let name ← string
    let pattern ← optionalPattern levels
    return .iterate name pattern (← chunk)
  | 24 =>
    let name ← string
    return .using name (← chunk)
  | 25 => return .propagate
  | 26 =>
    let name ← string
    return .defineProtocol name (← strings)
  | 27 =>
    let protocol ← string
    let typeName ← string
    return .adoptProtocol protocol typeName (← counted pair)
  | 28 => return .prepare (← string)
  | 29 => return .perform
  | 30 => return .performCall (← count)
  | 31 =>
    let condition ← chunk
    return .repeat condition (← chunk)
  | 32 => return .loopExit (← flag)
  | 33 =>
    let values ← patterns "'when … carries' needs at least one pattern" levels
    let thenBranch ← chunk
    return .ifCarries values thenBranch (← optionalChunk flag chunk)
  | 34 => return .makeText (← count)
  | 35 => return .definePattern (← pattern levels)
  | 36 =>
    let title ← string
    let body ← chunk
    return .sample title body (← optionalString flag)
  | 37 => return .promise (← counted (promiseClause flag))
  | _ => throw (bundleError "unknown bytecode instruction")

def instruction : In Instruction := do
  let s ← span
  return ⟨← operation flag chunk levels, s⟩

end Nested

/-- `Reader::chunk`, with the levels of nesting that are left. -/
def chunk (flag : In Bool) : Nat → In Chunk
  | 0 => throw (bundleError "bundle nesting limit exceeded")
  | levels + 1 => do
    let version ← u16
    if version ≠ bytecodeVersion then
      throw (bundleError s!"unsupported bytecode version {version}")
    else
      let code ← counted (instruction flag (chunk flag levels) levels)
      return ⟨version, code⟩

end Reader

/-- The decoder, with the reader of its four flags. -/
def decodeWith (flag : Reader.In Bool) (bytes : Bytes) : Except NivError Chunk :=
  if ¬ magic <+: bytes then .error (bundleError "invalid bundle magic")
  else
    match Reader.chunk flag (maxDepth + 1) (bytes.drop magic.length) with
    | .error e => .error e
    | .ok (chunk, rest) =>
      if rest ≠ [] then .error (bundleError "trailing data after bytecode bundle")
      else
        match verify chunk with
        | .error e => .error e
        | .ok () => .ok chunk

/-- `bundle::decode`. -/
def decode (bytes : Bytes) : Except NivError Chunk := decodeWith Reader.looseFlag bytes

end Nivren.Bundle
