import Nivren.Ast
import Nivren.Verify

/-! The compiler from syntax trees to bytecode.

The compiler appends instructions to one code list. A forward jump is emitted with a placeholder
and patched once its target is known. Bodies that run on their own operand stack are compiled from
an empty list into chunks of their own.
-/

namespace Nivren

/-- `schema_name`: the name a written type has in record schemas and adoptions. -/
def schemaName : TypeRef → String
  | .named name _ => name
  | .applied name arguments _ => name ++ "<" ++ ",".intercalate (schemaNames arguments) ++ ">"
  | .array item _ => "[" ++ schemaName item ++ "]"
  | .nullable item _ => schemaName item ++ "?"
  | .result ok error _ => "Result<" ++ schemaName ok ++ "," ++ schemaName error ++ ">"
where
  schemaNames : List TypeRef → List String
    | [] => []
    | argument :: rest => schemaName argument :: schemaNames rest

mutual

/-- `contains_loop_exit`: a `stop` or `skip` that targets the enclosing loop. -/
def containsLoopExit : Stmt → Bool
  | .stop _ | .skip _ => true
  | .block statements _ => anyLoopExit statements
  | .ifStmt _ thenBranch elseBranch _ | .ifCarries _ _ thenBranch elseBranch _ =>
    containsLoopExit thenBranch || optionalLoopExit elseBranch
  | .using _ _ body _ => containsLoopExit body
  | _ => false

def anyLoopExit : List Stmt → Bool
  | [] => false
  | statement :: rest => containsLoopExit statement || anyLoopExit rest

def optionalLoopExit : Option Stmt → Bool
  | none => false
  | some branch => containsLoopExit branch

end

namespace Compiler

def usizeMax : Nat := 2 ^ 64 - 1

/-- `emit`; the instruction lands at the index `code.length`. -/
def emit (code : List Instruction) (op : Op) (span : Span) : List Instruction :=
  code ++ [⟨op, span⟩]

/-- The op `patch` leaves in place of a jump. The source only patches jumps. -/
def retarget (target : Nat) : Op → Op
  | .jump _ => .jump target
  | .jumpIfFalse _ => .jumpIfFalse target
  | .coalesce _ => .coalesce target
  | op => op

def patch (code : List Instruction) (instruction target : Nat) : List Instruction :=
  code.modify instruction fun found => ⟨retarget target found.op, found.span⟩

mutual

def expression : Expr → List Instruction → List Instruction
  | .literal value span, code => emit code (.constant value) span
  | .text parts span, code =>
    emit (pieces parts span code) (.makeText parts.length) span
  | .variable name span, code => emit code (.load name) span
  | .assign name value span, code => emit (expression value code) (.store name) span
  | .unary operator value span, code => emit (expression value code) (.unary operator) span
  | .binary left operator right span, code =>
    emit (expression right (expression left code)) (.binary operator) span
  | .logical left operator right span, code =>
    let code := expression left code
    let jump := code.length
    let code := emit code (.jumpIfFalse usizeMax) span
    if operator = .orKw then
      let end_ := code.length
      let code := emit code (.jump usizeMax) span
      let code := patch code jump code.length
      let code := expression right (emit code .pop span)
      patch code end_ code.length
    else
      let code := expression right (emit code .pop span)
      patch code jump code.length
  | .call callee arguments _ span, code =>
    emit (expressions arguments (expression callee code)) (.call arguments.length) span
  | .array values span, code => emit (expressions values code) (.makeArray values.length) span
  | .index value position span, code =>
    emit (expression position (expression value code)) .index span
  | .coalesce left right span, code =>
    let code := expression left code
    let instruction := code.length
    let code := emit code (.coalesce usizeMax) span
    let code := expression right (emit code .pop span)
    patch code instruction code.length
  | .propagate value span, code => emit (expression value code) .propagate span
  | .perform (.call callee arguments _ _) span, code =>
    emit (expressions arguments (expression callee code)) (.performCall arguments.length) span
  | .perform value span, code => emit (expression value code) .perform span
  -- a pipeline compiles as the call it is lowered to; the parser builds no other stages
  | .through input (.call callee arguments _ _) span, code =>
    emit (expressions arguments (expression input (expression callee code)))
      (.call (arguments.length + 1)) span
  | .through input (.variable name at_) span, code =>
    emit (expression input (emit code (.load name) at_)) (.call 1) span
  | .through input (.get object name at_) span, code =>
    emit (expression input (emit (expression object code) (.get name) at_)) (.call 1) span
  | .through .., code => code
  | .get object name span, code => emit (expression object code) (.get name) span
  | .matchArms subject cases span, code =>
    emit (expression subject code) (.matchArms (arms cases)) span

def expressions : List Expr → List Instruction → List Instruction
  | [], code => code
  | value :: rest, code => expressions rest (expression value code)

def pieces : List TextPiece → Span → List Instruction → List Instruction
  | [], _, code => code
  | .literal part :: rest, span, code => pieces rest span (emit code (.constant (.string part)) span)
  | .hole value :: rest, span, code => pieces rest span (expression value code)

/-- `compile_arm` for each arm of a `choose`. -/
def arms : List MatchArm → List BytecodeArm
  | [] => []
  | ⟨patterns, guard, value, span⟩ :: rest =>
    ⟨patterns, optionalExpression guard, ⟨bytecodeVersion, expression value []⟩, span⟩ :: arms rest

def optionalExpression : Option Expr → Option Chunk
  | none => none
  | some guard => some ⟨bytecodeVersion, expression guard []⟩

end

/-- `compile_expression`. -/
def compileExpression (value : Expr) : Chunk := ⟨bytecodeVersion, expression value []⟩

/-- The value of a `give`, or `null` for a bare one. -/
def valueOrNull (value : Option Expr) (span : Span) (code : List Instruction) : List Instruction :=
  match value with
  | some value => expression value code
  | none => emit code (.constant .null) span

mutual

def statement : Stmt → List Instruction → List Instruction
  | .prepare name planType initializer span, code =>
    emit (emit (expression initializer code) (.prepare planType) span) (.define name false) span
  | .letStmt name mutable _ initializer span, code =>
    emit (expression initializer code) (.define name mutable) span
  | .expression value, code => expression value code
  | .print value span, code => emit (expression value code) .print span
  | .block body span, code =>
    emit (statements body (emit code .enterScope span)) .exitScope span
  | .ifStmt condition thenBranch elseBranch span, code =>
    let code := expression condition code
    let falseJump := code.length
    let code := emit code (.jumpIfFalse usizeMax) span
    let code := statement thenBranch (emit code .pop span)
    let endJump := code.length
    let code := emit code (.jump usizeMax) span
    let code := patch code falseJump code.length
    let code := elseOrNull elseBranch span (emit code .pop span)
    patch code endJump code.length
  | .whileStmt condition body span, code =>
    if containsLoopExit body then
      -- `stop` and `skip` need chunks of their own
      emit code (.repeat (compileExpression condition) ⟨bytecodeVersion, statement body []⟩) span
    else
      let code := emit code (.constant .null) span
      let start := code.length
      let code := expression condition code
      let end_ := code.length
      let code := emit code (.jumpIfFalse usizeMax) span
      let code := emit (emit code .pop span) .pop span
      let code := emit (statement body code) (.jump start) span
      emit (patch code end_ code.length) .pop span
  | .ifCarries subject patterns thenBranch elseBranch span, code =>
    emit (expression subject code)
      (.ifCarries patterns ⟨bytecodeVersion, statement thenBranch []⟩ (optional elseBranch)) span
  | .stop span, code => emit code (.loopExit false) span
  | .skip span, code => emit code (.loopExit true) span
  | .promise clauses span, code =>
    emit (emit code (.promise clauses) span) (.constant .null) span
  | .trusted _ span, code | .doc _ span, code | .generator _ _ _ span, code
  | .expand _ _ _ span, code | .importStmt _ _ span, code | .exportStmt _ span, code =>
    emit code (.constant .null) span
  | .sample title body shows span, code =>
    emit code (.sample title ⟨bytecodeVersion, statements body []⟩ shows) span
  | .forStmt name pattern iterable body span, code =>
    emit (expression iterable code)
      (.iterate name pattern ⟨bytecodeVersion, statement body []⟩) span
  | .letPattern pattern initializer span, code =>
    emit (expression initializer code) (.definePattern pattern) span
  | .using name resource body span, code =>
    emit (expression resource code) (.using name ⟨bytecodeVersion, statement body []⟩) span
  | .function name _ params _ _ _ body span, code =>
    let body := emit (emit (statements body []) (.constant .null) span) .return span
    let function := .makeFunction name (params.map Param.name) ⟨bytecodeVersion, body⟩
    emit (emit code function span) (.define name false) span
  | .returnStmt value span, code => emit (valueOrNull value span code) .return span
  | .record name _ fields derives span, code =>
    emit code (.defineRecord name (fields.map fun field => (field.name, schemaName field.ty))
      derives) span
  | .enum name _ variants span, code =>
    emit code (.defineEnum name (variants.map VariantDef.name)
      ((variants.filter fun variant => variant.payload.isSome).map VariantDef.name)) span
  | .protocol name members span, code =>
    emit code (.defineProtocol name (members.map ProtocolMember.name)) span
  | .adoption protocol ty members span, code =>
    emit code (.adoptProtocol protocol (schemaName ty)
      (members.map fun mapping => (mapping.member, mapping.implementation))) span
  | .module name body exports span, code =>
    emit code (.defineModule name ⟨bytecodeVersion, statements body []⟩ exports) span

/-- `Compiler::statements`: the values of all statements but the last are dropped. -/
def statements : List Stmt → List Instruction → List Instruction
  | [], code => emit code (.constant .null) ⟨1, 1⟩
  | [last], code => statement last code
  | first :: second :: rest, code =>
    statements (second :: rest) (emit (statement first code) .pop first.span)

def elseOrNull : Option Stmt → Span → List Instruction → List Instruction
  | some branch, _, code => statement branch code
  | none, span, code => emit code (.constant .null) span

def optional : Option Stmt → Option Chunk
  | none => none
  | some branch => some ⟨bytecodeVersion, statement branch []⟩

end

/-- `compile_statements`; `compile_statement` is the case of a single statement. -/
def compileStatements (body : List Stmt) : Chunk := ⟨bytecodeVersion, statements body []⟩

end Compiler

/-- `bytecode::compile`: the compiled program, once the verifier has accepted it. -/
def compile (program : List Stmt) : Except NivError Chunk := do
  let chunk := Compiler.compileStatements program
  verify chunk
  return chunk

end Nivren
