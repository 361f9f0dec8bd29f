import Nivren.CallLabels
import Nivren.Compile

/-! Pipelines and the calls they stand for.

`lowerThrough` builds the call of one `through`; `lowered` replaces every pipeline of a program by
its call.
-/

namespace Nivren

/-- The labels of a lowered call: the value handed on takes the first label of the table's entry. -/
def throughLabels (callee : Expr) (labels : List String) : List String :=
  match callee.path.bind (List.lookup · callLabels) with
  | some (first :: rest) => if rest.length = labels.length then first :: labels else labels
  | _ => labels

/-- `lower_through`. The parser only builds calls, variables and members as stages; the source panics
on the others, which are left alone here. -/
def lowerThrough (input stage : Expr) (span : Span) : Expr :=
  match stage with
  | .call callee arguments labels _ =>
    .call callee (input :: arguments) (labels.map (throughLabels callee)) span
  | .variable .. | .get .. => .call stage [input] none span
  | _ => .through input stage span

namespace Expr

/-- A stage `lower_through` accepts. -/
def isStage : Expr → Bool
  | .call .. | .variable .. | .get .. => true
  | _ => false

mutual

/-- The expression with every pipeline replaced by its call. -/
def lowered : Expr → Expr
  | .literal value span => .literal value span
  | .text pieces span => .text (loweredPieces pieces) span
  | .variable name span => .variable name span
  | .assign name value span => .assign name (lowered value) span
  | .unary operator value span => .unary operator (lowered value) span
  | .binary left operator right span => .binary (lowered left) operator (lowered right) span
  | .logical left operator right span => .logical (lowered left) operator (lowered right) span
  | .call callee arguments labels span => .call (lowered callee) (loweredAll arguments) labels span
  | .array values span => .array (loweredAll values) span
  | .index value position span => .index (lowered value) (lowered position) span
  | .coalesce left right span => .coalesce (lowered left) (lowered right) span
  | .propagate value span => .propagate (lowered value) span
  | .perform value span => .perform (lowered value) span
  | .through input (.call callee arguments labels _) span =>
    .call (lowered callee) (lowered input :: loweredAll arguments) (labels.map (throughLabels callee))
      span
  | .through input (.variable name at_) span => .call (.variable name at_) [lowered input] none span
  | .through input (.get object name at_) span =>
    .call (.get (lowered object) name at_) [lowered input] none span
  | .through input stage span => .through (lowered input) (lowered stage) span
  | .get object name span => .get (lowered object) name span
  | .matchArms subject arms span => .matchArms (lowered subject) (loweredArms arms) span

def loweredAll : List Expr → List Expr
  | [] => []
  | value :: rest => lowered value :: loweredAll rest

def loweredPieces : List TextPiece → List TextPiece
  | [] => []
  | .literal part :: rest => .literal part :: loweredPieces rest
  | .hole value :: rest => .hole (lowered value) :: loweredPieces rest

def loweredArms : List MatchArm → List MatchArm
  | [] => []
  | ⟨patterns, guard, value, span⟩ :: rest =>
    ⟨patterns, loweredOptional guard, lowered value, span⟩ :: loweredArms rest

def loweredOptional : Option Expr → Option Expr
  | none => none
  | some value => some (lowered value)

end

theorem lowered_lowerThrough {input stage : Expr} {span : Span} (h : stage.isStage = true) :
    (lowerThrough input stage span).lowered = (through input stage span).lowered := by
  cases stage
  case call | «variable» | get => simp only [lowerThrough, lowered, loweredAll]
  all_goals cases h

end Expr

theorem Compiler.expression_lowerThrough {input stage : Expr} {span : Span}
    (h : stage.isStage = true) (code : List Instruction) :
    expression (lowerThrough input stage span) code = expression (.through input stage span) code := by
  cases stage
  case call | «variable» | get =>
    simp only [lowerThrough, expression, expressions, List.length_cons, List.length_nil,
      Nat.zero_add]
  all_goals cases h

mutual

/-- The statement with every pipeline in it replaced by its call. -/
def Stmt.lowered : Stmt → Stmt
  | .prepare name planType initializer span => .prepare name planType initializer.lowered span
  | .letStmt name mutable ty initializer span =>
    .letStmt name mutable ty initializer.lowered span
  | .letPattern pattern initializer span => .letPattern pattern initializer.lowered span
  | .expression value => .expression value.lowered
  | .print value span => .print value.lowered span
  | .block statements span => .block (Stmt.allLowered statements) span
  | .ifStmt condition thenBranch elseBranch span =>
    .ifStmt condition.lowered (Stmt.lowered thenBranch) (Stmt.optionalLowered elseBranch) span
  | .ifCarries subject patterns thenBranch elseBranch span =>
    .ifCarries subject.lowered patterns (Stmt.lowered thenBranch) (Stmt.optionalLowered elseBranch)
      span
  | .whileStmt condition body span => .whileStmt condition.lowered (Stmt.lowered body) span
  | .stop span => .stop span
  | .skip span => .skip span
  | .promise clauses span => .promise clauses span
  | .generator name params body span => .generator name params (Stmt.allLowered body) span
  | .expand name labels arguments span => .expand name labels (Expr.loweredAll arguments) span
  | .trusted reason span => .trusted reason span
  | .sample title body shows_ span => .sample title (Stmt.allLowered body) shows_ span
  | .forStmt name pattern iterable body span =>
    .forStmt name pattern iterable.lowered (Stmt.lowered body) span
  | .using name resource body span => .using name resource.lowered (Stmt.lowered body) span
  | .function name typeParams params returnType needs capabilityNeeds body span =>
    .function name typeParams params returnType needs capabilityNeeds (Stmt.allLowered body) span
  | .returnStmt value span => .returnStmt (Expr.loweredOptional value) span
  | .record name typeParams fields derives span => .record name typeParams fields derives span
  | .enum name typeParams variants span => .enum name typeParams variants span
  | .protocol name members span => .protocol name members span
  | .adoption adopted ty members span => .adoption adopted ty members span
  | .importStmt path localName span => .importStmt path localName span
  | .exportStmt names span => .exportStmt names span
  | .module name body exports span => .module name (Stmt.allLowered body) exports span
  | .doc text span => .doc text span

def Stmt.allLowered : List Stmt → List Stmt
  | [] => []
  | statement :: rest => Stmt.lowered statement :: Stmt.allLowered rest

def Stmt.optionalLowered : Option Stmt → Option Stmt
  | none => none
  | some statement => some (Stmt.lowered statement)

end

end Nivren
