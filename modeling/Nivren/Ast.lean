import Nivren.Syntax

/-! The syntax tree the parser builds. -/

namespace Nivren

inductive TypeRef
  | named (name : String) (span : Span)
  | applied (name : String) (arguments : List TypeRef) (span : Span)
  | array (item : TypeRef) (span : Span)
  | nullable (item : TypeRef) (span : Span)
  | result (ok error : TypeRef) (span : Span)

structure Param where
  name : String
  ty : Option TypeRef
  span : Span

structure TypeParam where
  name : String
  constraint : Option String
  span : Span
deriving DecidableEq

structure CapabilityNeed where
  capability : String
  boundary : Option String
  span : Span
deriving DecidableEq

structure FieldDef where
  name : String
  ty : TypeRef
  span : Span

structure VariantDef where
  name : String
  payload : Option TypeRef
  span : Span

structure ProtocolMember where
  name : String
  params : List Param
  returnType : TypeRef
  needs : List String
  span : Span

structure AdoptionMember where
  member : String
  implementation : String
  span : Span
deriving DecidableEq

mutual

inductive Expr
  | literal (value : Literal) (span : Span)
  | text (pieces : List TextPiece) (span : Span)
  | variable (name : String) (span : Span)
  | assign (name : String) (value : Expr) (span : Span)
  | unary (operator : TokenKind) (value : Expr) (span : Span)
  | binary (left : Expr) (operator : TokenKind) (right : Expr) (span : Span)
  | logical (left : Expr) (operator : TokenKind) (right : Expr) (span : Span)
  | call (callee : Expr) (arguments : List Expr) (labels : Option (List String)) (span : Span)
  | array (values : List Expr) (span : Span)
  | index (value index : Expr) (span : Span)
  | coalesce (left right : Expr) (span : Span)
  | propagate (value : Expr) (span : Span)
  | perform (value : Expr) (span : Span)
  | through (input stage : Expr) (span : Span)
  | get (object : Expr) (name : String) (span : Span)
  | matchArms (subject : Expr) (arms : List MatchArm) (span : Span)

inductive TextPiece
  | literal (part : String)
  | hole (value : Expr)

structure MatchArm where
  patterns : List Pattern
  guard : Option Expr
  value : Expr
  span : Span

end

def Expr.span : Expr → Span
  | .literal _ span | .text _ span | .variable _ span | .assign _ _ span | .unary _ _ span
  | .binary _ _ _ span | .logical _ _ _ span | .call _ _ _ span | .array _ span | .index _ _ span
  | .coalesce _ _ span | .propagate _ span | .perform _ span | .through _ _ span | .get _ _ span
  | .matchArms _ _ span => span

/-- `expression_path`: the dotted path an expression spells, if it is one. -/
def Expr.path : Expr → Option String
  | .variable name _ => some name
  | .get parent name _ => (Expr.path parent).map fun path => path ++ "." ++ name
  | _ => none

inductive Stmt
  | prepare (name planType : String) (initializer : Expr) (span : Span)
  | letStmt (name : String) (mutable : Bool) ( annotation : Option TypeRef) (initializer : Expr)
      (span : Span)
  | letPattern (pattern : Pattern) (initializer : Expr) (span : Span)
  | expression (value : Expr)
  | print (value : Expr) (span : Span)
  | block (statements : List Stmt) (span : Span)
  | ifStmt (condition : Expr) (thenBranch : Stmt) (elseBranch : Option Stmt) (span : Span)
  | ifCarries (subject : Expr) (patterns : List Pattern) (thenBranch : Stmt)
      (elseBranch : Option Stmt) (span : Span)
  | whileStmt (condition : Expr) (body : Stmt) (span : Span)
  | stop (span : Span)
  | skip (span : Span)
  | promise (clauses : List PromiseClause) (span : Span)
  | generator (name : String) (params : List Param) (body : List Stmt) (span : Span)
  | expand (name : String) (labels : List String) (arguments : List Expr) (span : Span)
  | trusted (reason : String) (span : Span)
  | sample (title : String) (body : List Stmt) (shows : Option String) (span : Span)
  | forStmt (name : String) (pattern : Option Pattern) (iterable : Expr) (body : Stmt) (span : Span)
  | using (name : String) (resource : Expr) (body : Stmt) (span : Span)
  | function (name : String) (typeParams : List TypeParam) (params : List Param)
      (returnType : Option TypeRef) (needs : List String) (capabilityNeeds : List CapabilityNeed)
      (body : List Stmt) (span : Span)
  | returnStmt (value : Option Expr) (span : Span)
  | record (name : String) (typeParams : List TypeParam) (fields : List FieldDef)
      (derives : List String) (span : Span)
  | enum (name : String) (typeParams : List TypeParam) (variants : List VariantDef) (span : Span)
  | protocol (name : String) (members : List ProtocolMember) (span : Span)
  | adoption (protocol : String) (ty : TypeRef) (members : List AdoptionMember) (span : Span)
  | importStmt (path : String) (localName : Option String) (span : Span)
  | exportStmt (names : List String) (span : Span)
  | module (name : String) (body : List Stmt) (exports : List String) (span : Span)
  | doc (text : String) (span : Span)

/-- `statement_span`. -/
def Stmt.span : Stmt → Span
  | .expression value => value.span
  | .prepare _ _ _ span | .letStmt _ _ _ _ span | .letPattern _ _ span | .print _ span
  | .block _ span | .ifStmt _ _ _ span | .ifCarries _ _ _ _ span | .whileStmt _ _ span
  | .stop span | .skip span | .promise _ span | .generator _ _ _ span | .expand _ _ _ span
  | .trusted _ span | .sample _ _ _ span | .forStmt _ _ _ _ span | .using _ _ _ span
  | .function _ _ _ _ _ _ _ span | .returnStmt _ span | .record _ _ _ _ span | .enum _ _ _ span
  | .protocol _ _ span | .adoption _ _ _ span | .importStmt _ _ span | .exportStmt _ span
  | .module _ _ _ span | .doc _ span => span

end Nivren
