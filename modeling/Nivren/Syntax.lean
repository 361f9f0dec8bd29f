import Mathlib

/-! The instruction set of the Nivren virtual machine.

A compiled program is a `Chunk`, a version number and a list of instructions. Function bodies, loop
bodies, match arms and the other nested blocks are chunks inside instructions, so `Op`,
`Instruction`, `BytecodeArm` and `Chunk` form one mutual family.
-/

namespace Nivren

structure Span where
  line : Nat
  column : Nat
deriving DecidableEq, Repr

/-- A runtime error with its position; `trace` lists the frames it has left. -/
structure NivError where
  message : String
  line : Nat
  column : Nat
  trace : List (String × Nat × Nat)
deriving DecidableEq, Repr

/-- `NivError::new`. -/
def NivError.new (message : String) (line column : Nat) : NivError := ⟨message, line, column, []⟩

/-- `error(message, span)`: an error at a source position. -/
def errorAt (message : String) (span : Span) : NivError :=
  NivError.new message span.line span.column

/-- `NivError::with_frame`: records one frame the error passed through. -/
def NivError.withFrame (e : NivError) (name : String) (line column : Nat) : NivError :=
  { e with trace := e.trace ++ [(name, line, column)] }

/-- The lexer's token kinds. The instruction set only uses the operator tokens. -/
inductive TokenKind
  | leftParen | rightParen | leftBrace | rightBrace | leftBracket | rightBracket
  | comma | semicolon | colon | arrow | question | questionQuestion | dot
  | plus | minus | star | slash | percent
  | bang | bangEqual | equal | equalEqual | fatArrow
  | greater | greaterEqual | less | lessEqual
  | identifier (name : String) | docComment (text : String)
  | int (value : Int) | float (bits : UInt64) | string (text : String)
  | letKw | varKw | funKw | returnKw | ifKw | elseKw | whileKw | forKw | inKw
  | trueKw | falseKw | nullKw | printKw | recordKw | enumKw | protocolKw | adoptKw
  | forTypeKw | matchKw | importKw | exportKw | throughKw | startKw | waitKw
  | togetherKw | raceKw | needsKw | usingKw | isKw | setKw | toKw | takesKw | holdsKw
  | caseKw | carriesKw | withKw | maybeKw | asKw | fromKw | typeKw | prepareKw
  | performKw | whileClauseKw | andKw | orKw | eof
deriving DecidableEq, Repr

/-- Literal constants. A float is kept as its IEEE-754 bit pattern. -/
inductive Literal
  | int (value : Int)
  | float (bits : UInt64)
  | string (text : String)
  | bool (value : Bool)
  | null
deriving DecidableEq, Repr

/-- Structural patterns of `choose` arms and destructuring bindings. -/
inductive Pattern
  | any (span : Span)
  | literal (value : Literal) (span : Span)
  | name (name : String) (span : Span)
  | binding (name : String) (span : Span)
  | carries (name : String) (inner : Pattern) (span : Span)
  | shape (name : String) (fields : List (String × Pattern)) (span : Span)

structure PromiseClause where
  capability : String
  never : Bool
  boundaries : List String
  span : Span
deriving DecidableEq, Repr

/-- The version the compiler stamps on every chunk and the verifier insists on. -/
def bytecodeVersion : Nat := 8

mutual

inductive Op
  | constant (value : Literal)
  | load (name : String)
  | store (name : String)
  | define (name : String) (mutable : Bool)
  | pop
  | unary (operator : TokenKind)
  | binary (operator : TokenKind)
  | jump (target : Nat)
  | jumpIfFalse (target : Nat)
  | call (count : Nat)
  | performCall (count : Nat)
  | makeArray (count : Nat)
  | makeText (count : Nat)
  | index
  | coalesce (target : Nat)
  | propagate
  | get (name : String)
  | print
  | enterScope
  | exitScope
  | makeFunction (name : String) (params : List String) (body : Chunk)
  | return
  | defineRecord (name : String) (fields : List (String × String)) (derives : List String)
  | defineEnum (name : String) (variants payloadVariants : List String)
  | matchArms (arms : List BytecodeArm)
  | defineModule (name : String) (body : Chunk) (exports : List String)
  | iterate (name : String) (pattern : Option Pattern) (body : Chunk)
  | definePattern (pattern : Pattern)
  | sample (title : String) (body : Chunk) (shows : Option String)
  | repeat (condition body : Chunk)
  | loopExit (skip : Bool)
  | ifCarries (patterns : List Pattern) (thenBranch : Chunk) (elseBranch : Option Chunk)
  | using (name : String) (body : Chunk)
  | defineProtocol (name : String) (members : List String)
  | adoptProtocol (protocol typeName : String) (mappings : List (String × String))
  | prepare (planType : String)
  | perform
  | promise (clauses : List PromiseClause)

structure Instruction where
  op : Op
  span : Span

/-- One arm of a `choose`: alternatives, an optional guard and the arm's body. -/
structure BytecodeArm where
  patterns : List Pattern
  guard : Option Chunk
  body : Chunk
  span : Span

/-- A block of bytecode with its own operand stack. -/
structure Chunk where
  version : Nat
  code : List Instruction

end

end Nivren
