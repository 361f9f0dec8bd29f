import Nivren.CheckPatterns
import Nivren.Through

/-! How the checker reads expressions.

The walk over an expression hands the checks of its parts, not yet run, to one function for each
kind of expression.
-/

namespace Nivren

mutual

/-- `contains_perform`. -/
def Expr.containsPerform : Expr → Bool
  | .perform .. => true
  | .literal .. | .variable .. => false
  | .assign _ value _ | .unary _ value _ | .propagate value _ | .get value _ _ =>
    value.containsPerform
  | .binary left _ right _ | .logical left _ right _ | .coalesce left right _ | .index left right _
  | .through left right _ => left.containsPerform || right.containsPerform
  | .call callee arguments _ _ => callee.containsPerform || Expr.anyPerform arguments
  | .array values _ => Expr.anyPerform values
  | .matchArms subject arms _ => subject.containsPerform || Expr.armsPerform arms
  | .text pieces _ => Expr.piecesPerform pieces

def Expr.anyPerform : List Expr → Bool
  | [] => false
  | value :: rest => value.containsPerform || Expr.anyPerform rest

def Expr.armsPerform : List MatchArm → Bool
  | [] => false
  | ⟨_, guard, value, _⟩ :: rest =>
    value.containsPerform || Expr.optionalPerform guard || Expr.armsPerform rest

def Expr.optionalPerform : Option Expr → Bool
  | none => false
  | some value => value.containsPerform

def Expr.piecesPerform : List TextPiece → Bool
  | [] => false
  | .literal _ :: rest => Expr.piecesPerform rest
  | .hole value :: rest => value.containsPerform || Expr.piecesPerform rest

end

/-- `collect` of `member_path`: the names along a path of members. -/
def Expr.memberNames : Expr → Option (List String)
  | .variable name _ => some [name]
  | .get object name _ => (Expr.memberNames object).map (· ++ [name])
  | _ => none

/-- `member_path`. -/
def Expr.memberPath (value : Expr) (expected : List String) : Bool :=
  value.memberNames == some expected

namespace Checker

@[reducible] def refuse (message : String) (span : Span) : Check Ty := do
  report message span
  return .unknown

/-- `Expr::Variable`. -/
def variableType (name : String) (span : Span) : Check Ty := do
  match (← get).resolve name with
  | some binding => return binding.ty
  | none => refuse ("undefined name '" ++ name ++ "'") span

def rendersPlainly : Ty → Bool
  | .string | .int | .uint | .u128 | .float | .bool | .bigInt | .decimal | .fixed _ | .dateTime
  | .unknown => true
  | _ => false

def renders (s : Checker) : Ty → Bool
  | .record name _ => ((s.recordDerives.lookup name).getD []).contains "Display"
  | ty => rendersPlainly ty

/-- One hole of a text. -/
@[reducible] def textHole (performs : Bool) (hole : Check Ty) (span : Span) : Check Unit := do
  reportIf performs
    ("a text hole attempted to perform an effect; text holes stay pure — perform the effect " ++
      "first and place its result in a binding") span
  let found ← hole
  reportIf (!(← get).renders found)
    ("a text hole renders text, numbers, booleans, date/times, or shapes deriving Display; " ++
      "found " ++ found.name) span

/-- Reports an assignment of a value of the type that the name does not take. -/
def checkAssignment (name : String) (valueType : Ty) (span : Span) : Check Unit := do
  match (← get).resolve name with
  | none => report ("undefined name '" ++ name ++ "'") span
  | some binding =>
    if !binding.mutable then report ("cannot assign to immutable binding '" ++ name ++ "'") span
    else
      reportIf (!binding.ty.compatible valueType)
        ("cannot assign " ++ valueType.name ++ " to '" ++ name ++ "' of type " ++ binding.ty.name)
        span

/-- `Expr::Assign`. -/
@[reducible] def assign (name : String) (value : Check Ty) (span : Span) : Check Ty := do
  let valueType ← value
  checkAssignment name valueType span
  return valueType

def negatable : Ty → Bool
  | .int | .float | .bigInt | .decimal | .unknown => true
  | .fixed kind => kind.signed
  | _ => false

/-- `Expr::Unary`. -/
def unary (operator : TokenKind) (value : Check Ty) (span : Span) : Check Ty := do
  let found ← value
  match operator with
  | .bang =>
    require found .bool span
    return .bool
  | _ =>
    if negatable found then return found
    else refuse ("expected a numeric value, found " ++ found.name) span

def isSecretKey : Ty → Bool
  | .secretKey => true
  | _ => false

def isString : Ty → Bool
  | .string => true
  | _ => false

def isDateTime : Ty → Bool
  | .dateTime => true
  | _ => false

/-- Reports a shape whose values cannot be compared. -/
def requireComparable (ty : Ty) (span : Span) : Check Unit := do
  match ty with
  | .record name _ =>
    reportIf (!(← get).recordSupportsDerive name "Compare") ("shape '" ++ shortTypeName name ++
      "' must derive Compare before its values can be compared") span
  | _ => pure ()

@[reducible] def requireOrdered (left right : Ty) (span : Span) : Check Unit := do
  if isDateTime left || isDateTime right then
    require left .dateTime span
    require right .dateTime span
  else discard (numericPair left right span)

/-- `Expr::Binary`. -/
def binary (left : Check Ty) (operator : TokenKind) (right : Check Ty) (span : Span) :
    Check Ty := do
  let left ← left
  let right ← right
  match operator with
  | .equalEqual | .bangEqual =>
    reportIf (isSecretKey left || isSecretKey right) "SecretKey values cannot be compared" span
    requireComparable left span
    requireComparable right span
    return .bool
  | .plus =>
    if isString left || isString right then
      require left .string span
      require right .string span
      return .string
    else numericPair left right span
  | .minus | .star | .slash | .percent => numericPair left right span
  | .greater | .greaterEqual | .less | .lessEqual =>
    requireOrdered left right span
    return .bool
  | _ => return .unknown

/-- `Expr::Logical`. -/
@[reducible] def logical (left right : Check Ty) (span : Span) : Check Ty := do
  let left ← left
  let right ← right
  require left .bool span
  require right .bool span
  return .bool

/-- `Expr::Array`, with the element type found so far. -/
def elements (span : Span) : List (Check Ty) → Ty → Check Ty
  | [], element => return .array element
  | value :: rest, element => do
    let found ← value
    if element.isUnknown then elements span rest found
    else
      reportIf (!element.compatible found)
        ("array elements must have one type; expected " ++ element.name ++ ", found " ++
          found.name) span
      elements span rest element

/-- `Expr::Index`. -/
def index (collection position : Check Ty) (span : Span) : Check Ty := do
  let collection ← collection
  let position ← position
  require position .int span
  match collection with
  | .array element => return element
  | .string => return .string
  | .unknown => return .unknown
  | other => refuse (other.name ++ " cannot be indexed") span

/-- `Expr::Coalesce`. -/
def coalesce (left right : Check Ty) (span : Span) : Check Ty := do
  let left ← left
  let right ← right
  match left with
  | .nullable inner =>
    require right inner span
    return inner
  | .unknown => return .unknown
  | other => refuse ("'??' requires a nullable left operand, found " ++ other.name) span

/-- `Expr::Propagate`. -/
def propagate (value : Check Ty) (span : Span) : Check Ty := do
  match ← value with
  | .result ok error =>
    match (← get).returns.head? with
    | some (.result _ returnError) =>
      require error returnError span
      return ok
    | some other =>
      refuse ("or give needs a function returning Result, but this function gives " ++ other.name)
        span
    | none => refuse "or give may only appear inside a function returning Result" span
  | .unknown => return .unknown
  | other => refuse ("or give needs a Result, found " ++ other.name) span

/-- The type of a case of a choice: a constructor, or the choice itself. -/
def variantType (s : Checker) (choice : String) (payload : Option Ty) : Ty :=
  let typeParams := (s.typeParameters.lookup choice).getD []
  match payload with
  | some payload =>
    .function typeParams ((s.typeConstraints.lookup choice).getD []) [payload]
      (.enum choice (typeParams.map .generic)) []
  | none => .enum choice (typeParams.map fun _ => .unknown)

/-- `Expr::Get`. -/
def member (object : Check Ty) (name : String) (span : Span) : Check Ty := do
  match ← object with
  | .record record arguments =>
    match ((← get).records.lookup record).bind (List.lookup name) with
    | some field => return field.substitute ((← get).argumentsOf record arguments)
    | none => refuse (record ++ " has no field '" ++ name ++ "'") span
  | .function _ _ _ (.record record arguments) _ =>
    match (← get).derivedMethodType record arguments name with
    | some ty => return ty
    | none => refuse ("shape '" ++ shortTypeName record ++ "' has no generated method '" ++ name ++
        "'; add the matching derive") span
  | .unknown => return .unknown
  | .enumNamespace choice =>
    match ((← get).enums.lookup choice).bind (List.lookup name) with
    | some payload => return (← get).variantType choice payload
    | none => refuse (choice ++ " has no variant '" ++ name ++ "'") span
  | .protocolNamespace protocol =>
    match ((← get).protocolMembers.lookup protocol).bind (List.lookup name) with
    | some found =>
      return .function ["Self"] [("Self", protocol)] found.params found.result found.needs
    | none => refuse (protocol ++ " has no member '" ++ name ++ "'") span
  | .module members =>
    match members.lookup name with
    | some ty => return ty
    | none => refuse ("module has no exposed member '" ++ name ++ "'") span
  | other => refuse (other.name ++ " has no fields") span

def crossesBoundary (path : String) : Bool :=
  "std.native.".toList.isPrefixOf path.toList || "std.host.".toList.isPrefixOf path.toList

/-- The check of a call against the systems boundary, made on the path the callee spells. -/
def checkBoundary (callee : Expr) (span : Span) : Check Unit := do
  match callee.path with
  | some path =>
    reportIf (crossesBoundary path && !(← get).trustedScope)
      ("'" ++ path ++ "' crosses the systems boundary; only a module marked " ++
        "'trusted \"reason\"' may call it") span
  | none => pure ()

/-- The check of a call's labels. -/
def checkLabels (callee : Expr) (labels : Option (List String)) (span : Span) : Check Unit := do
  match labels, callee.path with
  | some labels, some path =>
    match (← get).callableLabels.lookup path with
    | some expected =>
      reportIf (expected != labels)
        (path ++ " expects labeled values [" ++ ", ".intercalate expected ++
        "] in canonical order; received [" ++ ", ".intercalate labels ++ "]") span
    | none => report ("labeled call metadata is unavailable for '" ++ path ++
        "'; use its documented canonical labels") span
  | _, _ => pure ()

/-- The shape a decoding call is given the constructor of. -/
def decodedShape (callee : Expr) (arguments : List Ty) : Option (String × List Ty) :=
  if callee.memberPath ["std", "json", "decode"] && arguments.length == 2 ||
      callee.memberPath ["std", "json", "read_next_as"] && arguments.length == 3 then
    match arguments with
    | .function _ _ _ (.record name arguments) _ :: _ => some (name, arguments)
    | _ => none
  else none

/-- `schema_decode_result`. -/
def schemaDecodeResult (callee : Expr) (arguments : List Ty) : Option Ty :=
  (decodedShape callee arguments).map fun (name, arguments) =>
    .result (if callee.memberPath ["std", "json", "read_next_as"] then
      .nullable (.record name arguments) else .record name arguments) problemType

/-- Reports a shape that is encoded without deriving `Json`. -/
def checkEncoded (callee : Expr) (arguments : List Ty) (span : Span) : Check Unit := do
  match callee.memberPath ["std", "json", "encode"], arguments with
  | true, .record name _ :: _ =>
    reportIf (!(← get).recordSupportsDerive name "Json")
      ("shape '" ++ shortTypeName name ++ "' must derive Json before it can be encoded") span
  | _, _ => pure ()

/-- Reports a shape that is decoded without deriving `Json`. -/
def checkDecoded (callee : Expr) (arguments : List Ty) (span : Span) : Check Unit := do
  match decodedShape callee arguments with
  | some (name, _) =>
    reportIf (!(← get).recordSupportsDerive name "Json")
      ("shape '" ++ shortTypeName name ++ "' must derive Json before it can be decoded") span
  | none => pure ()

/-- The result of `ok` and `err`, which are typed by their argument. -/
def builtinResult (callee : Expr) (arguments : List Ty) : Option Ty :=
  match callee, arguments with
  | .variable "ok" _, [ty] => some (.result ty .unknown)
  | .variable "err" _, [ty] => some (.result .unknown ty)
  | _, _ => none

/-- The needs a function argument adds where its parameter takes any effects. -/
def addedNeeds (found expected : Ty) (required : List String) : List String :=
  match found, expected with
  | .function _ _ _ _ foundNeeds, .function _ _ _ _ expectedNeeds =>
    if expectedNeeds.contains "$effects" then
      foundNeeds.foldl (fun required need =>
        if required.contains need then required else required ++ [need]) required
    else required
  | _, _ => required

/-- The arguments of a call against the parameters, with what was inferred and what is needed so
far. -/
def checkArguments (generic : Bool) (span : Span) :
    List Ty → List Ty → Ty.Substitutions → List String → Check (Ty.Substitutions × List String)
  | found :: rest, expected :: params, substitutions, required => do
    let required' := addedNeeds found expected required
    if generic then
      let (matched, substitutions) := expected.unify found substitutions
      reportIf (!matched)
        ("generic argument expected " ++ (expected.substitute substitutions).name ++
          ", found " ++ found.name) span
      checkArguments generic span rest params substitutions required'
    else
      require found expected span
      checkArguments generic span rest params substitutions required'
  | _, _, substitutions, required => return (substitutions, required)

/-- The needs of a call against the needs of the function it stands in. -/
def checkAvailable (required : List String) (span : Span) : Check Unit := do
  match (← get).needs with
  | available :: _ =>
    required.forM fun capability =>
      reportIf (!available.contains capability)
        ("this call needs " ++ capability ++ "; add it to the function's needs list") span
  | [] => pure ()

/-- The needs of a call against the active promises. Only `never` is looked at. -/
def checkPromised (required : List String) (span : Span) : Check Unit :=
  required.forM fun capability => do
    if capability == "$effects" then pure ()
    else match (← get).promiseFor capability with
    | some clause =>
      reportIf clause.never
        ("this call needs " ++ capability ++ ", but an active 'promise never " ++ capability ++
          "' renounces it; remove the call or the promise") span
    | none => pure ()

/-- The arguments of a call, where there are as many as parameters. -/
def matchArguments (generic : Bool) (params arguments : List Ty) (required : List String)
    (span : Span) : Check (Ty.Substitutions × List String) := do
  if params.length ≠ arguments.length then
    report ("function expects " ++ toString params.length ++ " arguments, received " ++
      toString arguments.length) span
    return ([], required)
  else checkArguments generic span arguments params [] required

/-- The constraints of a generic call on what was inferred. -/
def checkInferred (constraints : List (String × String)) (substitutions : Ty.Substitutions)
    (span : Span) : Check Unit :=
  constraints.forM fun entry => do
    match substitutions.lookup entry.1 with
    | some found =>
      reportIf (!(← get).satisfies entry.2 found)
        (found.name ++ " does not satisfy " ++ entry.2 ++ " for " ++ entry.1) span
    | none => pure ()

/-- The call of a function. -/
@[reducible] def applyFunction (typeParams : List String) (constraints : List (String × String))
    (params : List Ty) (gives : Ty) (required : List String) (arguments : List Ty) (span : Span) :
    Check Ty := do
  let (substitutions, required) ←
    matchArguments (!typeParams.isEmpty) params arguments required span
  checkInferred constraints substitutions span
  checkAvailable required span
  checkPromised required span
  return gives.substitute substitutions

/-- `Expr::Call`, with the checks of the callee and the arguments. -/
def call (callee : Expr) (calleeCheck : Check Ty) (arguments : List (Check Ty))
    (labels : Option (List String)) (span : Span) : Check Ty := do
  checkBoundary callee span
  checkLabels callee labels span
  let calleeType ← calleeCheck
  let arguments ← runAll arguments
  checkEncoded callee arguments span
  checkDecoded callee arguments span
  match builtinResult callee arguments with
  | some ty => return ty
  | none =>
    match calleeType with
    | .function typeParams constraints params gives required =>
      let ty ← applyFunction typeParams constraints params gives required arguments span
      return (schemaDecodeResult callee arguments).getD ty
    | .unknown => return .unknown
    | other => refuse (other.name ++ " is not callable") span

structure GuardCheck where
  performs : Bool
  span : Span
  check : Check Ty

structure ArmCheck where
  patterns : List Pattern
  guard : Option GuardCheck
  value : Check Ty
  span : Span

/-- What the arms so far have covered: the cases, and whether one covers everything. -/
structure Covered where
  names : List String
  all : Bool

def Covered.exhausts (covered : Covered) (choice : Option Cases) : Bool :=
  match choice with
  | some cases => cases.variants.all (covered.names.contains ·) && !cases.variants.isEmpty
  | none => false

/-- Counts a pattern of an arm without a guard. -/
def cover (choice : Option Cases) (coverage : Coverage) (covered : Covered) (span : Span) :
    Check Covered := do
  match coverage with
  | .full =>
    reportIf (covered.exhausts choice)
      "this arm is unreachable; the case arms above are already exhaustive" span
    return { covered with all := true }
  | .oneCase name =>
    if covered.names.contains name then
      report ("duplicate choose arm for case '" ++ name ++ "'") span
      return covered
    else return { covered with names := name :: covered.names }
  | .incomplete => return covered

@[reducible] def coverUnlessGuarded (guarded : Bool) (choice : Option Cases) (coverage : Coverage)
    (covered : Covered) (span : Span) : Check Covered :=
  if guarded then pure covered else cover choice coverage covered span

/-- The patterns of an arm, with what the arms and patterns before have covered. -/
def armPatterns (subject : Ty) (choice : Option Cases) (guarded : Bool) (span : Span) :
    List Pattern → Covered → Check (Covered × List Bindings)
  | [], covered => return (covered, [])
  | pattern :: rest, covered => do
    let (coverage, bindings) ← checkPattern pattern subject []
    let covered ← coverUnlessGuarded guarded choice coverage covered span
    let (covered, alternatives) ← armPatterns subject choice guarded span rest covered
    return (covered, bindings :: alternatives)

/-- The guard of an arm. -/
def checkGuard (guard : Option GuardCheck) (span : Span) : Check Unit := do
  match guard with
  | some guard =>
    reportIf guard.performs "a choose guard attempted to perform an effect; guards stay pure" span
    let found ← guard.check
    require found .bool guard.span
  | none => pure ()

/-- One arm of a `choose`. -/
def chooseArm (subject : Ty) (choice : Option Cases) (arm : ArmCheck) (covered : Covered)
    (result : Ty) : Check (Covered × Ty) := do
  reportIf covered.all
    "this choose arm is unreachable; the arms above already cover every value" arm.span
  let (covered, alternatives) ←
    armPatterns subject choice arm.guard.isSome arm.span arm.patterns covered
  let bindings ← commonBindings alternatives arm.span
  modify fun s => { s with scopes := [] :: s.scopes }
  declareBindings bindings arm.span
  checkGuard arm.guard arm.span
  let armType ← arm.value
  modify fun s => { s with scopes := s.scopes.tail }
  if result.isUnknown then return (covered, armType)
  else
    require armType result arm.span
    return (covered, result)

/-- The arms of a `choose`, with what is covered and the type found so far. -/
def chooseArms (subject : Ty) (choice : Option Cases) :
    List ArmCheck → Covered → Ty → Check (Covered × Ty)
  | [], covered, result => return (covered, result)
  | arm :: rest, covered, result => do
    let (covered, result) ← chooseArm subject choice arm covered result
    chooseArms subject choice rest covered result

/-- Reports the cases no arm covers. -/
def checkExhaustive (choice : Option Cases) (covered : Covered) (span : Span) : Check Unit :=
  if covered.all then pure ()
  else match choice with
  | some cases =>
    match cases.variants.filter (!covered.names.contains ·) with
    | [] => pure ()
    | missing => report ("non-exhaustive choose for " ++ cases.typeName ++ "; missing " ++
        ", ".intercalate missing ++ "; add the missing cases or an 'otherwise' arm") span
  | none =>
    report "non-exhaustive choose; end with an 'otherwise' arm or a binding pattern" span

/-- The arms of a `choose` on an unknown type, whose patterns bind nothing. -/
def unknownArms (arms : List ArmCheck) : Check Unit :=
  arms.forM fun arm => do
    arm.patterns.forM fun pattern => discard (checkPattern pattern .unknown [])
    discard arm.value

/-- `Expr::Match`. -/
def choose (subject : Check Ty) (arms : List ArmCheck) (span : Span) : Check Ty := do
  let subjectType ← subject
  if subjectType.isUnknown then
    unknownArms arms
    return .unknown
  else
    let choice := (← get).patternCases subjectType
    let (covered, result) ← chooseArms subjectType choice arms ⟨[], false⟩ .unknown
    checkExhaustive choice covered span
    return result

mutual

/-- `expression`. A pipeline is checked as the call it stands for; the parser builds no stage but a
call, a variable or a member. -/
def expression : Expr → Check Ty
  | .literal value _ => return value.ty
  | .text pieces span => do
    textPieces pieces span
    return .string
  | .variable name span => variableType name span
  | .assign name value span => assign name (expression value) span
  | .unary operator value span => unary operator (expression value) span
  | .binary left operator right span => binary (expression left) operator (expression right) span
  | .logical left _ right span => logical (expression left) (expression right) span
  | .call callee arguments labels span =>
    call callee (expression callee) (expressions arguments) labels span
  | .array values span => elements span (expressions values) .unknown
  | .index collection position span => index (expression collection) (expression position) span
  | .coalesce left right span => coalesce (expression left) (expression right) span
  | .propagate value span => propagate (expression value) span
  | .perform value _ => expression value
  | .through input (.call callee arguments labels _) span =>
    call callee (expression callee) (expression input :: expressions arguments)
      (labels.map (throughLabels callee)) span
  | .through input (.variable name at_) span =>
    call (.variable name at_) (variableType name at_) [expression input] none span
  | .through input (.get object name at_) span =>
    call (.get object name at_) (member (expression object) name at_) [expression input] none span
  | .through .. => return .unknown
  | .get object name span => member (expression object) name span
  | .matchArms subject arms span => choose (expression subject) (armChecks arms) span

def expressions : List Expr → List (Check Ty)
  | [] => []
  | value :: rest => expression value :: expressions rest

def textPieces : List TextPiece → Span → Check Unit
  | [], _ => pure ()
  | .literal _ :: rest, span => textPieces rest span
  | .hole value :: rest, span => do
    textHole value.containsPerform (expression value) span
    textPieces rest span

def armChecks : List MatchArm → List ArmCheck
  | [] => []
  | ⟨patterns, guard, value, span⟩ :: rest =>
    ⟨patterns, guardCheck guard, expression value, span⟩ :: armChecks rest

def guardCheck : Option Expr → Option GuardCheck
  | none => none
  | some guard => some ⟨guard.containsPerform, guard.span, expression guard⟩

end

theorem expression_lowerThrough {input stage : Expr} (span : Span) (h : stage.isStage = true) :
    expression (.through input stage span) = expression (lowerThrough input stage span) := by
  cases stage with
  | call callee arguments labels at_ =>
    rw [lowerThrough, expression, expression, expressions]
  | «variable» | get =>
    rw [lowerThrough, expression, expression, expressions, expressions, expression]
  | _ => simp [Expr.isStage] at h

end Checker

end Nivren
