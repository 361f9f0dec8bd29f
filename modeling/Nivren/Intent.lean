import Nivren.StdTypes
import Nivren.Ast

/-! Intent analysis.

`analyze` walks a program and records what it will do outside itself: prepared plans, pipelines,
`perform` boundaries and the calls that need capabilities, in the order of the walk. `validate`
rejects graphs with an effect outside a `perform`.
-/

namespace Nivren

/-- `text.contains(part)`. -/
def containsChars (part : List Char) : List Char → Bool
  | [] => part.isEmpty
  | c :: rest => part.isPrefixOf (c :: rest) || containsChars part rest

def textContains (text part : String) : Bool := containsChars part.toList text.toList

/-- `Vec::dedup`: removes repetitions that stand next to each other. -/
def dedupRuns : List String → List String
  | [] => []
  | [x] => [x]
  | x :: y :: rest => if x = y then dedupRuns (y :: rest) else x :: dedupRuns (y :: rest)

/-- `sorted`: the values in order, each once. A `BTreeSet` is kept as this list as well. -/
def sorted (values : List String) : List String := dedupRuns (values.insertionSort (· ≤ ·))

namespace Intent

inductive Json
  | null
  | bool (value : Bool)
  | int (value : Int)
  | float (bits : UInt64)
  | string (text : String)
  | array (items : List Json)
  | object (fields : List (String × Json))

inductive Optimization
  | disabled
  | enabled
deriving DecidableEq

structure IntentNode where
  id : ℕ
  kind : String
  operation : String
  line : ℕ
  column : ℕ
  allocation : String
  capabilities : List String
  resources : List String
  cancellation : String
  retries : String
  timeout : String
  buffering : String
  blocking : String
  target : String
  fusion : String
  effectOrder : Option ℕ
  serializable : Bool
  portability : String

structure IntentSummary where
  requiredCapabilities : List String
  resources : List String
  effectCount : ℕ
  materializedPlans : ℕ
  pureRuntimePlanAllocations : ℕ
  fusedPipelines : ℕ
  serialEffectOrder : List ℕ

structure IntentGraph where
  schema : String
  target : String
  optimized : Bool
  summary : IntentSummary
  nodes : List IntentNode
  planPayloads : List (ℕ × Json)

/-- `SCHEMA`. -/
def intentSchema : String := "org.nivren.intent.v1"

/-- The error of `validate` for an effect outside `perform`. -/
def boundaryError (node : IntentNode) : String :=
  "effect '" ++ node.operation ++ "' at " ++ toString node.line ++ ":" ++ toString node.column ++
    " must be inside a visible perform boundary"

/-- The checks `validate` makes of one node that should have the given identifier. -/
def validateNode (expected : ℕ) (node : IntentNode) : Except String Unit :=
  if node.id ≠ expected then .error "intent node identifiers are not canonical"
  else if ¬ node.capabilities.IsChain (· < ·) ∨ ¬ node.resources.IsChain (· < ·) then
    .error ("intent node " ++ toString node.id ++ " metadata is not canonical")
  else .ok ()

def validateNodes : ℕ → List IntentNode → Except String Unit
  | _, [] => .ok ()
  | expected, node :: rest =>
    match validateNode expected node with
    | .ok _ => validateNodes (expected + 1) rest
    | .error message => .error message

/-- `IntentGraph::validate`. -/
def IntentGraph.validate (graph : IntentGraph) : Except String Unit :=
  if graph.schema ≠ intentSchema then .error ("unsupported intent schema '" ++ graph.schema ++ "'")
  else match validateNodes 0 graph.nodes with
    | .error message => .error message
    | .ok _ =>
      let orders := graph.nodes.filterMap IntentNode.effectOrder
      if orders ≠ List.range orders.length then
        .error "effect ordering contains a gap or reordering"
      else if graph.summary.pureRuntimePlanAllocations ≠ 0 then
        .error "pure intent must not allocate runtime plans"
      else match graph.nodes.find? (fun node => node.portability == "effect-call-requires-perform") with
        | some node => .error (boundaryError node)
        | none => .ok ()

/-- `callable_path`: the path a call names, looking through the calls that return a function. -/
def callablePath : Expr → Option String
  | .variable name _ => some name
  | .get parent name _ => (callablePath parent).map fun path => path ++ "." ++ name
  | .call callee _ _ _ => callablePath callee
  | _ => none

structure Tables where
  standard : List (String × List String)
  functions : List (String × List String)

def Tables.needs (tables : Tables) (path : String) : Option (List String) :=
  (tables.standard.lookup path).or (tables.functions.lookup path)

mutual

/-- `collect_capabilities`, with the set as the list of everything put into it. -/
def collectCapabilities (tables : Tables) : Expr → List String
  | .call callee arguments _ _ =>
    ((callablePath callee).bind tables.needs).getD [] ++ collectCapabilities tables callee ++
      collectAll tables arguments
  | .assign _ value _ | .unary _ value _ | .propagate value _ | .perform value _ | .get value _ _ =>
    collectCapabilities tables value
  | .binary left _ right _ | .logical left _ right _ | .coalesce left right _ | .index left right _
  | .through left right _ => collectCapabilities tables left ++ collectCapabilities tables right
  | .array values _ => collectAll tables values
  | .matchArms subject arms _ => collectCapabilities tables subject ++ collectArms tables arms
  | .text pieces _ => collectPieces tables pieces
  | .literal .. | .variable .. => []

def collectAll (tables : Tables) : List Expr → List String
  | [] => []
  | value :: rest => collectCapabilities tables value ++ collectAll tables rest

def collectArms (tables : Tables) : List MatchArm → List String
  | [] => []
  | ⟨_, guard, value, _⟩ :: rest =>
    collectOptional tables guard ++ collectCapabilities tables value ++ collectArms tables rest

def collectOptional (tables : Tables) : Option Expr → List String
  | none => []
  | some value => collectCapabilities tables value

def collectPieces (tables : Tables) : List TextPiece → List String
  | [] => []
  | .literal _ :: rest => collectPieces tables rest
  | .hole value :: rest => collectCapabilities tables value ++ collectPieces tables rest

end

/-- The resource a capability stands for. -/
def resourceOf (capability : String) : String :=
  if capability = "FileRead" ∨ capability = "FileWrite" then "filesystem"
  else if capability = "Network" then "network-socket"
  else if capability = "Database" then "database-connection"
  else if capability = "Process" then "child-process"
  else if capability = "Environment" then "process-environment"
  else if capability = "Time" then "clock-or-timer"
  else if capability = "Random" then "secure-randomness"
  else if capability = "Native" then "foreign-handle"
  else if capability = "Task" then "async-task"
  else capability

/-- The resources an operation's name reveals. -/
def operationResources (operation : String) : List String :=
  (if textContains operation "channel" then ["bounded-channel"] else []) ++
    (if textContains operation "transaction" || textContains operation "database" then
      ["database-transaction"] else []) ++
    (if textContains operation "http" || textContains operation "websocket" then
      ["network-stream"] else [])

/-- `resources_for`. -/
def resourcesFor (capabilities : List String) (operation : Option String) : List String :=
  sorted (capabilities.map resourceOf ++ (operation.map operationResources).getD [])

/-- `blocking_for`. -/
def blockingFor (capabilities : List String) : String :=
  if capabilities.any (["FileRead", "FileWrite", "Process"].contains ·) then
    "isolated-blocking-worker"
  else "event-loop-nonblocking"

/-- `non_portable_name`. -/
def nonPortableName (name : String) : Bool :=
  let lower := String.ofList (name.toList.map Char.toLower)
  ["secret", "handle", "callback", "library", "file", "socket", "stream", "authority"].any
    (textContains lower ·)

mutual

/-- `portable_expression`. -/
def portableExpression : Expr → Bool
  | .literal .. => true
  | .variable name _ => !nonPortableName name
  | .assign .. | .perform .. => false
  | .unary _ value _ | .propagate value _ | .get value _ _ => portableExpression value
  | .binary left _ right _ | .logical left _ right _ | .coalesce left right _ | .index left right _
  | .through left right _ => portableExpression left && portableExpression right
  | .call callee arguments _ _ =>
    ((callablePath callee).map fun path => !nonPortableName path).getD false &&
      portableAll arguments
  | .array values _ => portableAll values
  | .matchArms subject arms _ => portableExpression subject && portableArms arms
  | .text pieces _ => portablePieces pieces

def portableAll : List Expr → Bool
  | [] => true
  | value :: rest => portableExpression value && portableAll rest

def portableArms : List MatchArm → Bool
  | [] => true
  | ⟨_, guard, value, _⟩ :: rest =>
    portableExpression value && portableOptional guard && portableArms rest

def portableOptional : Option Expr → Bool
  | none => true
  | some value => portableExpression value

def portablePieces : List TextPiece → Bool
  | [] => true
  | .literal _ :: rest => portablePieces rest
  | .hole value :: rest => portableExpression value && portablePieces rest

end

/-- `Number::from_f64`: infinities and NaNs, whose exponent bits are all ones, are no numbers. -/
def finiteBits (bits : UInt64) : Bool := (bits >>> 52) &&& 0x7FF != 0x7FF

/-- A field of an object; a later value of a name replaces the earlier one. -/
def setField (fields : List (String × Json)) (name : String) (value : Json) :
    List (String × Json) :=
  fields.filter (·.1 != name) ++ [(name, value)]

mutual

/-- `portable_payload`. -/
def portablePayload : Expr → Option Json
  | .literal (.int value) _ => some (.int value)
  | .literal (.float bits) _ => if finiteBits bits then some (.float bits) else none
  | .literal (.string text) _ => some (.string text)
  | .literal (.bool value) _ => some (.bool value)
  | .literal .null _ => some .null
  | .array values _ => (portablePayloads values).map Json.array
  | .call _ arguments (some labels) _ =>
    if arguments.length = labels.length then
      (portablePayloads arguments).map fun payloads =>
        .object ((labels.zip payloads).foldl (fun fields entry => setField fields entry.1 entry.2) [])
    else none
  | _ => none

def portablePayloads : List Expr → Option (List Json)
  | [] => some []
  | value :: rest => (portablePayload value).bind fun payload =>
    (portablePayloads rest).map (payload :: ·)

end

structure Analyzer where
  optimization : Optimization
  tables : Tables
  nodes : List IntentNode
  effectOrder : ℕ
  planPayloads : List (ℕ × Json)

namespace Analyzer

/-- `Analyzer::new`. -/
def new (optimization : Optimization) : Analyzer := ⟨optimization, ⟨standardEffects, []⟩, [], 0, []⟩

/-- `push`: numbers the node and puts its metadata into canonical form. -/
def push (a : Analyzer) (node : IntentNode) : Analyzer :=
  { a with nodes := a.nodes ++ [{ node with
      id := a.nodes.length
      capabilities := sorted node.capabilities
      resources := sorted node.resources }] }

/-- `expression_capabilities`. -/
def expressionCapabilities (a : Analyzer) (expression : Expr) : List String :=
  sorted (collectCapabilities a.tables expression)

/-- `call_capabilities`. -/
def callCapabilities (a : Analyzer) (path : String) : List String :=
  sorted ((a.tables.needs path).getD [])

/-- The node of a `prepare`. -/
def planNode (planType : String) (span : Span) (capabilities : List String)
    (portable : Bool) : IntentNode where
  id := 0
  kind := "prepared-plan"
  operation := planType
  line := span.line
  column := span.column
  allocation := "materialized-immutable"
  capabilities := capabilities
  resources := resourcesFor capabilities (some planType)
  cancellation := "declared-at-perform"
  retries := "none"
  timeout := "explicit-fields-only"
  buffering := "bounded-by-fields"
  blocking := "deferred"
  target := "vm-bytecode"
  fusion := "not-applicable"
  effectOrder := none
  serializable := portable
  portability :=
    if portable then "portable-data-only" else "contains-authority-handle-callback-secret-or-effect"

/-- `boundary_node`. -/
def boundaryNode (span : Span) (capabilities : List String) : IntentNode where
  id := 0
  kind := "perform-boundary"
  operation := "perform"
  line := span.line
  column := span.column
  allocation := "none"
  capabilities := capabilities
  resources := resourcesFor capabilities none
  cancellation := "propagated"
  retries := "plan-defined"
  timeout := "plan-defined"
  buffering := "plan-defined-bounded"
  blocking := "reported-by-child-effects"
  target := "vm-bytecode"
  fusion := "boundary-preserved"
  effectOrder := none
  serializable := false
  portability := "execution-boundary"

/-- The node of a pipeline with the given input and stage. -/
def pipelineNode (optimization : Optimization) (input stage : Expr) (span : Span)
    (capabilities : List String) : IntentNode :=
  let pure := capabilities.isEmpty
  { id := 0
    kind := "pipeline"
    operation := (callablePath stage).getD "pipeline-stage"
    line := span.line
    column := span.column
    allocation := "none"
    capabilities := capabilities
    resources := resourcesFor capabilities none
    cancellation := if pure then "not-applicable" else "propagated"
    retries := "stage-defined"
    timeout := "stage-defined"
    buffering := if pure then "none" else "bounded"
    blocking := if pure then "never" else "reported-by-stage"
    target := "vm-bytecode"
    fusion :=
      if pure && optimization = .enabled then "verified-pure"
      else if pure then "disabled"
      else "serial-effects"
    effectOrder := none
    serializable := pure && portableExpression (.through input stage span)
    portability := if pure then "pure-values" else "effectful-stage" }

/-- The node of a call that needs capabilities. -/
def effectNode (path : String) (span : Span) (capabilities : List String) (order : ℕ)
    (withinPerform : Bool) : IntentNode where
  id := 0
  kind := "effect"
  operation := path
  line := span.line
  column := span.column
  allocation := "none"
  capabilities := capabilities
  resources := resourcesFor capabilities (some path)
  cancellation := "propagated"
  retries := "explicit-only"
  timeout := "explicit-or-package-default"
  buffering := "bounded"
  blocking := blockingFor capabilities
  target := "vm-bytecode"
  fusion := "ordered"
  effectOrder := some order
  serializable := false
  portability :=
    if withinPerform then "executed-at-visible-boundary" else "effect-call-requires-perform"

/-- The node of a call to the transaction or database modules that needs no capability. -/
def resourceNode (path : String) (span : Span) : IntentNode where
  id := 0
  kind := "resource"
  operation := path
  line := span.line
  column := span.column
  allocation := "managed-resource"
  capabilities := []
  resources := resourcesFor [] (some path)
  cancellation := "cleanup-on-scope-exit"
  retries := "explicit-only"
  timeout := "operation-defined"
  buffering := "bounded"
  blocking := "never-for-in-memory-transaction"
  target := "vm-bytecode"
  fusion := "not-applicable"
  effectOrder := none
  serializable := false
  portability := "managed-transaction-handle"

/-- What `expression` records for a call before it visits its parts. -/
def call (a : Analyzer) (path : String) (span : Span) (withinPerform : Bool) : Analyzer :=
  match a.callCapabilities path with
  | first :: rest =>
    { a with effectOrder := a.effectOrder + 1 }.push
      (effectNode path span (first :: rest) a.effectOrder withinPerform)
  | [] =>
    if textContains path "transactions" || textContains path "database" then
      a.push (resourceNode path span)
    else a

mutual

/-- `Analyzer::expression`. -/
def expression (withinPerform : Bool) : Expr → Analyzer → Analyzer
  | .perform value span, a =>
    expression true value (a.push (boundaryNode span (a.expressionCapabilities value)))
  | .text pieces _, a => texts withinPerform pieces a
  | .through input stage span, a =>
    let node := pipelineNode a.optimization input stage span
      (a.expressionCapabilities (.through input stage span))
    expression withinPerform stage (expression withinPerform input (a.push node))
  | .call callee arguments _ span, a =>
    let path := (callablePath callee).getD "dynamic-call"
    expressions withinPerform arguments
      (expression withinPerform callee (a.call path span withinPerform))
  | .assign _ value _, a | .unary _ value _, a | .propagate value _, a | .get value _ _, a =>
    expression withinPerform value a
  | .binary left _ right _, a | .logical left _ right _, a | .coalesce left right _, a
  | .index left right _, a => expression withinPerform right (expression withinPerform left a)
  | .array values _, a => expressions withinPerform values a
  | .matchArms subject arms_ _, a => arms withinPerform arms_ (expression withinPerform subject a)
  | .literal .., a | .variable .., a => a

def expressions (withinPerform : Bool) : List Expr → Analyzer → Analyzer
  | [], a => a
  | value :: rest, a => expressions withinPerform rest (expression withinPerform value a)

def texts (withinPerform : Bool) : List TextPiece → Analyzer → Analyzer
  | [], a => a
  | .literal _ :: rest, a => texts withinPerform rest a
  | .hole value :: rest, a => texts withinPerform rest (expression withinPerform value a)

def arms (withinPerform : Bool) : List MatchArm → Analyzer → Analyzer
  | [], a => a
  | ⟨_, guard, value, _⟩ :: rest, a =>
    arms withinPerform rest
      (expression withinPerform value (optionalExpression withinPerform guard a))

def optionalExpression (withinPerform : Bool) : Option Expr → Analyzer → Analyzer
  | none, a => a
  | some value, a => expression withinPerform value a

end

/-- The functions a list of statements declares become known before any of them is visited. -/
def declareFunctions (statements : List Stmt) (a : Analyzer) : Analyzer :=
  { a with tables := { a.tables with
      functions := statements.foldl (fun functions statement => match statement with
        | .function name _ _ _ needs _ _ _ => (name, sorted needs) :: functions
        | _ => functions) a.tables.functions } }

/-- `Analyzer::statement` for `prepare`. -/
def prepare (planType : String) (initializer : Expr) (span : Span) (a : Analyzer) : Analyzer :=
  let capabilities := a.expressionCapabilities initializer
  let payload := portablePayload initializer
  let portable := capabilities.isEmpty && portableExpression initializer && payload.isSome
  let pushed := a.push (planNode planType span capabilities portable)
  let payloads := if portable then (payload.map (a.nodes.length, ·)).toList else []
  expression false initializer { pushed with planPayloads := a.planPayloads ++ payloads }

mutual

/-- `Analyzer::statement`. -/
def statement : Stmt → Analyzer → Analyzer
  | .prepare _ planType initializer span, a => prepare planType initializer span a
  | .letStmt _ _ _ initializer _, a | .letPattern _ initializer _, a => expression false initializer a
  | .expression value, a | .print value _, a => expression false value a
  | .block body _, a | .module _ body _ _, a | .function _ _ _ _ _ _ body _, a =>
    visitAll body (declareFunctions body a)
  | .ifStmt condition thenBranch elseBranch _, a
  | .ifCarries condition _ thenBranch elseBranch _, a =>
    optional elseBranch (statement thenBranch (expression false condition a))
  | .whileStmt condition body _, a | .forStmt _ _ condition body _, a | .using _ condition body _, a =>
    statement body (expression false condition a)
  | .returnStmt value _, a => optionalExpression false value a
  | .doc .., a | .stop .., a | .skip .., a | .promise .., a | .trusted .., a | .sample .., a
  | .generator .., a | .expand .., a | .record .., a | .enum .., a | .protocol .., a
  | .adoption .., a | .importStmt .., a | .exportStmt .., a => a

/-- The second loop of `Analyzer::statements`. -/
def visitAll : List Stmt → Analyzer → Analyzer
  | [], a => a
  | head :: rest, a => visitAll rest (statement head a)

def optional : Option Stmt → Analyzer → Analyzer
  | none, a => a
  | some branch, a => statement branch a

end

/-- `Analyzer::statements`. -/
def statements (body : List Stmt) (a : Analyzer) : Analyzer := visitAll body (declareFunctions body a)

/-- `Analyzer::finish`. -/
def finish (a : Analyzer) : IntentGraph where
  schema := intentSchema
  target := "vm-bytecode"
  optimized := a.optimization = .enabled
  summary :=
    { requiredCapabilities := sorted (a.nodes.flatMap IntentNode.capabilities)
      resources := sorted (a.nodes.flatMap IntentNode.resources)
      effectCount := (a.nodes.filterMap IntentNode.effectOrder).length
      materializedPlans := a.nodes.countP (·.kind == "prepared-plan")
      pureRuntimePlanAllocations := 0
      fusedPipelines := a.nodes.countP (·.fusion == "verified-pure")
      serialEffectOrder := a.nodes.filterMap IntentNode.effectOrder }
  nodes := a.nodes
  planPayloads := a.planPayloads

end Analyzer

/-- `analyze`. -/
def analyze (program : List Stmt) (optimization : Optimization) : IntentGraph :=
  (Analyzer.statements program (Analyzer.new optimization)).finish

end Intent

end Nivren
