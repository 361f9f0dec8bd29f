import Nivren.CheckExpr

/-! How the checker reads statements, and the check of a program. -/

namespace Nivren

mutual

/-- `statement_always_gives`. -/
def Stmt.alwaysGives : Stmt → Bool
  | .returnStmt .. => true
  | .block body _ => Stmt.lastGives body
  | .ifStmt _ thenBranch (some elseBranch) _ | .ifCarries _ _ thenBranch (some elseBranch) _ =>
    thenBranch.alwaysGives && elseBranch.alwaysGives
  | .using _ _ body _ => body.alwaysGives
  | _ => false

/-- `always_gives`. -/
def Stmt.lastGives : List Stmt → Bool
  | [] => false
  | [statement] => statement.alwaysGives
  | _ :: rest => Stmt.lastGives rest

end

/-- `declared_name`. -/
def Stmt.declaredName : Stmt → Option String
  | .prepare name .. | .letStmt name .. | .function name .. | .record name .. | .enum name ..
  | .protocol name .. | .module name .. => some name
  | _ => none

/-- The characters `trim` takes off. -/
def isWhiteSpace (c : Char) : Bool :=
  let n := c.toNat
  (0x9 ≤ n && n ≤ 0xD) || n == 0x20 || n == 0x85 || n == 0xA0 || n == 0x1680 ||
    (0x2000 ≤ n && n ≤ 0x200A) || n == 0x2028 || n == 0x2029 || n == 0x202F || n == 0x205F ||
    n == 0x3000

namespace Checker

/-- The first pass of `statements`: the protocols a list of statements declares. -/
def declareProtocols (body : List Stmt) : Check Unit :=
  body.forM fun statement => do
    match statement with
    | .protocol name _ span =>
      if (← get).scopes.length ≠ 1 then
        report "protocol declarations are only allowed at module scope" span
      else if knownBuiltinProtocol name || (← get).protocols.contains ((← get).qualified name) then
        report ("protocol '" ++ name ++ "' is already declared") span
      else modify fun s => { s with protocols := s.protocols ++ [s.qualified name] }
    | _ => pure ()

/-- A pattern that has to match every value of the type. -/
@[reducible] def bindingPattern (pattern : Pattern) (ty : Ty) (span : Span) : Check Unit := do
  let (coverage, bindings) ← checkPattern pattern ty []
  reportIf (!coverage.isFull)
    ("a binding pattern never fails; refutable patterns belong in 'choose' or " ++
      "'when … carries'") span
  declareBindings bindings span

/-- `Stmt::Let`. -/
def letBinding (name : String) (mutable : Bool) ( annotation : Option TypeRef) (initializer : Expr)
    (span : Span) : Check Unit := do
  let inferred ← expression initializer
  match annotation with
  | some reference =>
    let ty ← typeRef reference
    require inferred ty initializer.span
    declare name ⟨ty, mutable⟩ span
  | none => declare name ⟨inferred, mutable⟩ span

/-- The type the patterns of a `when … carries` are checked against. -/
def carriesTarget (subject : Ty) (span : Span) : Check Ty := do
  match subject with
  | .nullable inner => return inner
  | .enum .. | .result .. => return subject
  | .unknown => return .unknown
  | other =>
    refuse ("'when … carries' tests a maybe value or a choice case, found " ++ other.name ++
      "; test a Bool with plain 'when'") span

/-- The test of a `when … carries` and its first branch. -/
def carries (subject : Expr) (patterns : List Pattern) (thenBranch : Check Unit) (span : Span) :
    Check Unit := do
  let target ← carriesTarget (← expression subject) span
  let alternatives ← checkAlternatives patterns target
  let bindings ← commonBindings (alternatives.map (·.2)) span
  inScope do
    declareBindings bindings span
    thenBranch

/-- `require_bool`. -/
@[reducible] def requireBool (condition : Expr) : Check Unit := do
  require (← expression condition) .bool condition.span

/-- Reports a clause that relaxes an active `never`. -/
def checkConflict (clause : PromiseClause) : Check Unit := do
  match (← get).promiseFor clause.capability with
  | some outer =>
    reportIf (outer.never && !clause.never)
      ("'" ++ clause.capability ++ " only within' conflicts with the active 'promise never " ++
        clause.capability ++ "'") clause.span
  | none => pure ()

/-- The clauses of a promise, with the capabilities seen so far. -/
def promiseClauses : List PromiseClause → List String → Check Unit
  | [], _ => pure ()
  | clause :: rest, seen => do
    reportIf (!capabilityVocabulary.contains clause.capability)
      ("a promise names the capability vocabulary; '" ++ clause.capability ++
        "' is not a capability") clause.span
    reportIf (seen.contains clause.capability)
      ("capability '" ++ clause.capability ++ "' appears in more than one promise clause")
        clause.span
    checkConflict clause
    promiseClauses rest (clause.capability :: seen)

/-- `Stmt::Promise`. -/
def promise (clauses : List PromiseClause) : Check Unit := do
  promiseClauses clauses []
  modify fun s => { s with activePromises := s.activePromises ++ clauses }

/-- `Stmt::Trusted`. -/
def trusted (reason : String) (span : Span) : Check Unit := do
  reportIf (200 < reason.utf8ByteSize)
    "a trusted reason stays under 200 bytes of plain language" span
  reportIf (reason.toList.all isWhiteSpace)
    "a trusted module states its reason in plain language" span
  modify fun s => { s with trustedScope := true }

def endsInExpression (body : List Stmt) : Bool :=
  match body.getLast? with
  | some (.expression _) => true
  | _ => false

def samplePromises (span : Span) : List PromiseClause :=
  capabilityVocabulary.map fun capability => ⟨capability, true, [], span⟩

def addSampleTitle (title : String) (span : Span) : Check Unit := do
  if (← get).sampleTitles.contains title then
    report ("duplicate sample title '" ++ title ++ "'") span
  else modify fun s => { s with sampleTitles := s.sampleTitles ++ [title] }

/-- `Stmt::Sample`, with the check of its body. The loops around the sample stay in force. -/
def sample (title : String) (body : List Stmt) (shows : Option String) (walk : Check Unit)
    (span : Span) : Check Unit := do
  reportIf (120 < title.utf8ByteSize) "a sample title stays under 120 bytes" span
  addSampleTitle title span
  reportIf (shows.isSome && !endsInExpression body)
    "a sample with 'shows' ends with one expression to display" span
  inScope do
    modify fun s => { s with activePromises := s.activePromises ++ samplePromises span }
    walk

/-- `Stmt::Stop` and `Stmt::Skip`. -/
@[reducible] def loopExit (word : String) (span : Span) : Check Unit := do
  reportIf ((← get).loopDepth == 0) (match (← get).loopBoundary with
      | some boundary => "'" ++ word ++ "' attempted to end a loop across " ++ boundary ++
          "; give a typed result from it instead"
      | none => "'" ++ word ++ "' attempted to end a loop, but no 'repeat' or 'each' loop " ++
          "encloses it; remove it or move this work into a loop") span

/-- The type of what an `each` goes over. -/
def elementType (iterable : Ty) (span : Span) : Check Ty := do
  match iterable with
  | .array element | .iterator element => return element
  | .string => return .string
  | .unknown => return .unknown
  | .record name arguments =>
    if (← get).adoptions.contains ("Iterate", (Ty.record name arguments).name) then return .unknown
    else refuse ((Ty.record name arguments).name ++ " is not iterable") span
  | other => refuse (other.name ++ " is not iterable") span

/-- The names an `each` gives to an element. -/
def declareElement (name : String) (pattern : Option Pattern) (element : Ty) (span : Span) :
    Check Unit :=
  match pattern with
  | some pattern => bindingPattern pattern element span
  | none => declare name ⟨element, false⟩ span

/-- `Stmt::For`. -/
@[reducible] def each (name : String) (pattern : Option Pattern) (iterable : Expr) (body : Check Unit)
    (span : Span) : Check Unit := do
  let element ← elementType (← expression iterable) span
  inScope do
    declareElement name pattern element span
    insideLoop body

/-- The resources a `using` can close. -/
def closable : Ty → Bool
  | .file | .tcpListener | .tcpStream | .webSocket | .tlsListener | .lockGuard | .nativeHandle
  | .nativeLibrary | .transaction .. | .unknown => true
  | _ => false

/-- The capability that closing a resource needs and how messages call the resource. -/
def closingNeed : Ty → Option (String × String)
  | .tcpListener | .tcpStream | .webSocket | .tlsListener => some ("Network", "resource")
  | .lockGuard => some ("Task", "lock guard")
  | .nativeHandle | .nativeLibrary => some ("Native", "native handle")
  | _ => none

/-- Reports a resource whose closing needs more than the function has. -/
def checkClosing (resource : Ty) (span : Span) : Check Unit := do
  match closingNeed resource, (← get).needs with
  | some (need, what), available :: _ =>
    reportIf (!available.contains need) ("closing this " ++ what ++ " needs " ++ need ++
      "; add it to the function's needs list") span
  | _, _ => pure ()

/-- `Stmt::Using`. -/
@[reducible] def usingScope (name : String) (resource : Expr) (body : Check Unit) (span : Span) :
    Check Unit := do
  let ty ← expression resource
  reportIf (!closable ty) ("using needs a closable resource, found " ++ ty.name) span
  checkClosing ty span
  outsideLoops "the enclosing 'using' scope" do
    inScope do
      declare name ⟨ty, false⟩ span
      body

/-- One scoped need of a function against the active promises. -/
def checkCapabilityNeed (name : String) (need : CapabilityNeed) : Check Unit := do
  match (← get).promiseFor need.capability with
  | none => pure ()
  | some clause =>
    if clause.never then
      report ("'" ++ name ++ "' declares needs " ++ need.capability ++ " inside 'promise never " ++
        need.capability ++ "'; remove the need or the promise") need.span
    else match need.boundary with
    | some boundary =>
      reportIf (!clause.boundaries.contains boundary)
        ("scope \"" ++ boundary ++ "\" is outside the promised boundaries for " ++
        need.capability) need.span
    | none => report ("'" ++ name ++ "' needs " ++ need.capability ++
        " without a scope inside 'promise " ++ need.capability ++
        " only within …'; add a within boundary from the promise") need.span

/-- The constraints of type parameters, with protocols under their full names. -/
def genericConstraints (s : Checker) (typeParams : List TypeParam) : List (String × String) :=
  collectEntries (typeParams.filterMap fun parameter =>
    parameter.constraint.map fun constraint =>
      (parameter.name, (s.protocolName constraint).getD constraint))

/-- Reports the constraints that name no protocol. -/
def checkTypeParams (typeParams : List TypeParam) : Check Unit :=
  typeParams.forM fun parameter => do
    match parameter.constraint with
    | some constraint =>
      reportIf (!(← get).knownProtocol constraint)
        ("unknown protocol '" ++ constraint ++ "'") parameter.span
    | none => pure ()

/-- Runs a check with type parameters in force. -/
def withGenerics {α : Type} (names : List String) (constraints : List (String × String))
    (operation : Check α) : Check α := do
  modify fun s => { s with
    generics := names :: s.generics
    constraints := constraints :: s.constraints }
  let found ← operation
  modify fun s => { s with generics := s.generics.tail, constraints := s.constraints.tail }
  return found

def withResult (gives : Ty) (needs : List String) (operation : Check Unit) : Check Unit := do
  modify fun s => { s with returns := gives :: s.returns, needs := needs :: s.needs }
  operation
  modify fun s => { s with returns := s.returns.tail, needs := s.needs.tail }

def optionalTypeRef : Option TypeRef → Check Ty
  | some reference => typeRef reference
  | none => return .unknown

def setLabels (name : String) (labels : List String) : Check Unit :=
  modify fun s => { s with callableLabels := setEntry s.callableLabels name labels }

/-- The parameters of a function and its body. -/
def functionBody (params : List Param) (paramTypes : List Ty) (walk : Check Unit) : Check Unit :=
  outsideLoops "the enclosing function boundary" do
    inScope do
      (params.zip paramTypes).forM fun entry =>
        declare entry.1.name ⟨entry.2, false⟩ entry.1.span
      walk

/-- Declares a function whose type parameters are in force and checks its body. -/
def declareFunction (name : String) (genericNames : List String)
    (constraints : List (String × String)) (params : List Param) (returnType : Option TypeRef)
    (needs : List String) (body : List Stmt) (walk : Check Unit) (span : Span) : Check Unit := do
  let paramTypes ← runAll (params.map fun param => optionalTypeRef param.ty)
  let gives ← optionalTypeRef returnType
  setLabels name (params.map (·.name))
  declare name ⟨.function genericNames constraints paramTypes gives needs, false⟩ span
  reportIf (returnType.isSome && !Stmt.lastGives body)
    ("'" ++ name ++ "' declares gives " ++ gives.name ++
      " but can reach its end without 'give'; end every path with 'give'") span
  withResult gives needs (functionBody params paramTypes walk)

/-- `Stmt::Function`, with the check of its body. -/
def function (name : String) (typeParams : List TypeParam) (params : List Param)
    (returnType : Option TypeRef) (needs : List String) (capabilityNeeds : List CapabilityNeed)
    (body : List Stmt) (walk : Check Unit) (span : Span) : Check Unit := do
  capabilityNeeds.forM (checkCapabilityNeed name)
  let genericNames := typeParams.map (·.name)
  let constraints := (← get).genericConstraints typeParams
  checkTypeParams typeParams
  withGenerics genericNames constraints
    (declareFunction name genericNames constraints params returnType needs body walk span)

/-- The type of what a `give` gives. -/
def givenType : Option Expr → Check Ty
  | some value => expression value
  | none => return .null

/-- `Stmt::Return`. -/
def give (value : Option Expr) (span : Span) : Check Unit := do
  let found ← givenType value
  match (← get).returns.head? with
  | some expected => require found expected span
  | none => report "give may only appear inside a function" span

/-- Frees the name of a builtin shape or choice that a declaration replaces; a name that is taken
otherwise is reported, and the declaration is left out. -/
def claimTypeName (kind name : String) (span : Span) (declaration : Check Unit) : Check Unit := do
  if ((← get).typeNames.lookup name).isSome then
    if builtinDefaultType name then
      modify fun s => { s with
        records := s.records.filter (·.1 != name)
        enums := s.enums.filter (·.1 != name) }
      declaration
    else report (kind ++ " '" ++ name ++ "' is already declared") span
  else declaration

/-- Enters a type and its parameters; gives the parameters and their constraints. -/
def enterType (name qualified : String) (typeParams : List TypeParam) :
    Check (List String × List (String × String)) := do
  modify fun s => { s with typeNames := setEntry s.typeNames name qualified }
  checkTypeParams typeParams
  let constraints := (← get).genericConstraints typeParams
  let names := typeParams.map (·.name)
  modify fun s => { s with
    typeParameters := setEntry s.typeParameters qualified names
    typeConstraints := setEntry s.typeConstraints qualified constraints }
  return (names, constraints)

/-- The fields of a shape, with the fields so far; gives them and the types in order. -/
def recordFields : List FieldDef → List (String × Ty) → Check (List (String × Ty) × List Ty)
  | [], schema => return (schema, [])
  | field :: rest, schema => do
    let ty ← typeRef field.ty
    reportIf (schema.lookup field.name).isSome ("duplicate field '" ++ field.name ++ "'") field.span
    let (schema, types) ← recordFields rest (setEntry schema field.name ty)
    return (schema, ty :: types)

/-- Enters a shape with its fields and the methods it derives. -/
def enterRecord (name qualified : String) (fields : List FieldDef) (schema : List (String × Ty))
    (derives : List String) (span : Span) : Check Unit := do
  validateRecordDerives name derives schema (← get).records span
  modify fun s => { s with
    records := setEntry s.records qualified schema
    recordDerives := setEntry s.recordDerives qualified derives }
  setLabels name (fields.map (·.name))
  (deriveMethods.filter fun method => derives.contains method.derive).forM fun method =>
    setLabels (name ++ "." ++ method.name) method.labels

/-- `Stmt::Record`. -/
@[reducible] def record (name : String) (typeParams : List TypeParam) (fields : List FieldDef)
    (derives : List String) (span : Span) : Check Unit :=
  claimTypeName "shape" name span do
    let qualified := (← get).qualified name
    let (names, constraints) ← enterType name qualified typeParams
    let (schema, types) ← withGenerics names constraints (recordFields fields [])
    enterRecord name qualified fields schema derives span
    declare name
      ⟨.function names constraints types (.record qualified (names.map .generic)) [], false⟩ span

/-- Reports the cases of a choice that stand twice. -/
def checkVariants : List VariantDef → List String → Check Unit
  | [], _ => pure ()
  | variant :: rest, seen => do
    reportIf (seen.contains variant.name)
      ("duplicate variant '" ++ variant.name ++ "'") variant.span
    checkVariants rest (variant.name :: seen)

def variantPayload (variant : VariantDef) : Check (String × Option Ty) := do
  match variant.payload with
  | some payload => return (variant.name, some (← typeRef payload))
  | none => return (variant.name, none)

/-- `Stmt::Enum`. -/
def enum (name : String) (typeParams : List TypeParam) (variants : List VariantDef) (span : Span) :
    Check Unit :=
  claimTypeName "choice" name span do
    let qualified := (← get).qualified name
    let (names, constraints) ← enterType name qualified typeParams
    let variants ← withGenerics names constraints do
      checkVariants variants []
      runAll (variants.map variantPayload)
    modify fun s => { s with enums := setEntry s.enums qualified variants }
    declare name ⟨.enumNamespace qualified, false⟩ span

def takesSelf (params : List Ty) : Bool :=
  match params with
  | .generic "Self" :: _ => true
  | _ => false

/-- The members of a protocol, with those so far. Protocol parameters always have a type. -/
def protocolMemberTypes : List ProtocolMember → List (String × ProtocolMemberType) →
    Check (List (String × ProtocolMemberType))
  | [], signatures => return signatures
  | member :: rest, signatures => do
    let params ← runAll (member.params.map fun param => optionalTypeRef param.ty)
    let gives ← typeRef member.returnType
    reportIf (!takesSelf params)
      ("protocol member '" ++ member.name ++ "' must take Self as its first parameter") member.span
    reportIf (signatures.lookup member.name).isSome
      ("duplicate protocol member '" ++ member.name ++ "'") member.span
    protocolMemberTypes rest (setEntry signatures member.name ⟨params, gives, member.needs⟩)

/-- `Stmt::Protocol`. -/
def protocol (name : String) (members : List ProtocolMember) (span : Span) : Check Unit := do
  let qualified := (← get).qualified name
  let signatures ← withGenerics ["Self"] [] (protocolMemberTypes members [])
  modify fun s => { s with protocolMembers := setEntry s.protocolMembers qualified signatures }
  declare name ⟨.protocolNamespace qualified, false⟩ span

def ProtocolMemberType.at (signature : ProtocolMemberType) (adopted : Ty) : Ty :=
  .function [] [] (Ty.substituteAll [("Self", adopted)] signature.params)
    (signature.result.substitute [("Self", adopted)]) signature.needs

/-- One mapping of an adoption. -/
def checkMapping (protocol : String) (adopted : Ty)
    (signatures : List (String × ProtocolMemberType)) (mapping : AdoptionMember) : Check Unit := do
  match signatures.lookup mapping.member, (← get).resolve mapping.implementation with
  | none, _ =>
    report ("protocol '" ++ protocol ++ "' has no member '" ++ mapping.member ++ "'") mapping.span
  | some _, none =>
    report ("unknown protocol implementation '" ++ mapping.implementation ++ "'") mapping.span
  | some signature, some implementation =>
    reportIf (!implementation.ty.compatible (ProtocolMemberType.at signature adopted))
      ("implementation '" ++ mapping.implementation ++ "' does not match " ++ protocol ++
      "." ++ mapping.member) mapping.span

/-- The mappings of an adoption, with the members mapped so far; gives all that were mapped. -/
def checkMappings (protocol : String) (adopted : Ty)
    (signatures : List (String × ProtocolMemberType)) :
    List AdoptionMember → List String → Check (List String)
  | [], mapped => return mapped
  | mapping :: rest, mapped => do
    if mapped.contains mapping.member then
      report ("duplicate protocol mapping '" ++ mapping.member ++ "'") mapping.span
      checkMappings protocol adopted signatures rest mapped
    else
      checkMapping protocol adopted signatures mapping
      checkMappings protocol adopted signatures rest (mapping.member :: mapped)

def ownsType (s : Checker) : Ty → Bool
  | .record name _ | .enum name _ => s.ownsQualifiedName name
  | _ => false

/-- Enters an adoption that was not made before. -/
def enterAdoption (protocol protocolName : String) (adopted : Ty) (span : Span) : Check Unit := do
  let dispatch := (protocolName, String.ofList (adopted.name.toList.takeWhile (· != '<')))
  if (← get).adoptions.contains (protocolName, adopted.name) then
    report ("protocol '" ++ protocol ++ "' is already adopted for " ++ adopted.name) span
  else if (← get).dispatchAdoptions.contains dispatch then
    report ("protocol '" ++ protocol ++
      "' already has a runtime-coherent adoption for this nominal type") span
  else modify fun s => { s with
    dispatchAdoptions := s.dispatchAdoptions ++ [dispatch]
    adoptions := s.adoptions ++ [(protocolName, adopted.name)] }

@[reducible] def checkMapped (protocol : String) (missing : List String) (span : Span) : Check Unit :=
  reportIf (!missing.isEmpty)
    ("adoption of '" ++ protocol ++ "' is missing mappings for " ++ ", ".intercalate missing) span

/-- An adoption of a known protocol by a type. -/
@[reducible] def adopt (protocol protocolName : String) (adopted : Ty) (members : List AdoptionMember)
    (span : Span) : Check Unit := do
  if !(← get).ownsQualifiedName protocolName && !(← get).ownsType adopted then
    report "an adoption must be declared by the package that owns the protocol or nominal type" span
  else
    let signatures := ((← get).protocolMembers.lookup protocolName).getD []
    let mapped ← checkMappings protocol adopted signatures members []
    checkMapped protocol ((signatures.map (·.1)).filter (!mapped.contains ·)) span
    enterAdoption protocol protocolName adopted span

/-- `Stmt::Adoption`. -/
def adoption (protocol : String) (ty : TypeRef) (members : List AdoptionMember) (span : Span) :
    Check Unit := do
  if (← get).scopes.length ≠ 1 then
    report "protocol adoptions are only allowed at module scope" span
  else if knownBuiltinProtocol protocol then
    report ("sealed protocol '" ++ protocol ++ "' cannot be adopted explicitly") span
  else match (← get).protocolName protocol with
  | none => report ("unknown protocol '" ++ protocol ++ "'") span
  | some protocolName =>
    match ← typeRef ty with
    | .unknown | .generic _ => pure ()
    | adopted => adopt protocol protocolName adopted members span

/-- The exposed names of a module, with those seen so far; gives the members. -/
def exposed (name : String) (declaredNames : List String) (scope : List (String × TypeBinding))
    (span : Span) : List String → List String → List (String × Ty) → Check (List (String × Ty))
  | [], _, members => return members
  | export_ :: rest, seen, members => do
    if seen.contains export_ then
      report ("duplicate expose '" ++ export_ ++ "'") span
      exposed name declaredNames scope span rest seen members
    else if !declaredNames.contains export_ then
      report ("module '" ++ name ++ "' does not declare expose '" ++ export_ ++ "'") span
      exposed name declaredNames scope span rest (export_ :: seen) members
    else match scope.lookup export_ with
    | some binding =>
      exposed name declaredNames scope span rest (export_ :: seen)
        (setEntry members export_ binding.ty)
    | none => exposed name declaredNames scope span rest (export_ :: seen) members

/-- Takes over what the checker of a module found. -/
def merge (found : Checker) (s : Checker) : Checker :=
  { s with
    errors := s.errors ++ found.errors
    records := addMissing s.records found.records
    recordDerives := addMissing s.recordDerives found.recordDerives
    enums := addMissing s.enums found.enums
    typeParameters := addMissing s.typeParameters found.typeParameters
    typeConstraints := addMissing s.typeConstraints found.typeConstraints
    protocols := addMembers s.protocols found.protocols
    protocolMembers := addMissing s.protocolMembers found.protocolMembers
    adoptions := addMembers s.adoptions found.adoptions
    dispatchAdoptions := addMembers s.dispatchAdoptions found.dispatchAdoptions }

def exposeLabels (name : String) (found : Checker) (exports : List String) : Check Unit :=
  exports.forM fun export_ =>
    match found.callableLabels.lookup export_ with
    | some labels => setLabels (name ++ "." ++ export_) labels
    | none => pure ()

/-- Declares a module that a checker of its own has checked. -/
@[reducible] def declareModule (name : String) (found : Checker) (body : List Stmt) (exports : List String)
    (span : Span) : Check Unit := do
  let members ← exposed name (body.filterMap Stmt.declaredName) (found.scopes.getLastD []) span
    exports [] []
  modify (merge found)
  exposeLabels name found exports
  declare name ⟨.module members, false⟩ span

/-- `Stmt::Module`, with the check of its body, which a checker of its own runs. -/
@[reducible] def module (name : String) (body : List Stmt) (exports : List String) (walk : Check Unit)
    (span : Span) : Check Unit := do
  declareModule name (walk.run (withNamespace ((← get).qualified name))).2 body exports span

mutual

/-- `statement`. -/
def statement : Stmt → Check Unit
  | .doc .. | .importStmt .. | .exportStmt .. => pure ()
  | .prepare name _ initializer span => do
    declare name ⟨← expression initializer, false⟩ span
  | .letStmt name mutable written initializer span =>
    letBinding name mutable written initializer span
  | .letPattern pattern initializer span => do
    bindingPattern pattern (← expression initializer) span
  | .expression value | .print value _ => discard (expression value)
  | .block body _ => inScope do
    declareProtocols body
    eachStatement body
  | .ifStmt condition thenBranch elseBranch _ => do
    requireBool condition
    statement thenBranch
    optionalStatement elseBranch
  | .ifCarries subject patterns thenBranch elseBranch span => do
    carries subject patterns (statement thenBranch) span
    optionalStatement elseBranch
  | .whileStmt condition body _ => do
    requireBool condition
    insideLoop (statement body)
  | .promise clauses _ => promise clauses
  | .generator _ _ _ span | .expand _ _ _ span =>
    report ("generator expansion runs before checking; this build path does not expand " ++
      "generators") span
  | .trusted reason span => trusted reason span
  | .sample title body shows span =>
    sample title body shows (declareProtocols body *> eachStatement body) span
  | .stop span => loopExit "stop" span
  | .skip span => loopExit "skip" span
  | .forStmt name pattern iterable body span => each name pattern iterable (statement body) span
  | .using name resource body span => usingScope name resource (statement body) span
  | .function name typeParams params returnType needs capabilityNeeds body span =>
    function name typeParams params returnType needs capabilityNeeds body
      (declareProtocols body *> eachStatement body) span
  | .returnStmt value span => give value span
  | .record name typeParams fields derives span => record name typeParams fields derives span
  | .enum name typeParams variants span => enum name typeParams variants span
  | .protocol name members span => protocol name members span
  | .adoption protocol ty members span => adoption protocol ty members span
  | .module name body exports span =>
    module name body exports (declareProtocols body *> eachStatement body) span

/-- The second pass of `statements`. -/
def eachStatement : List Stmt → Check Unit
  | [] => pure ()
  | first :: rest => do
    statement first
    eachStatement rest

def optionalStatement : Option Stmt → Check Unit
  | none => pure ()
  | some branch => statement branch

end

/-- `statements`. -/
def statements (body : List Stmt) : Check Unit := declareProtocols body *> eachStatement body

/-- The checker of an edition: from the fifth on, top-level code is not trusted. -/
def forEdition (edition : ℕ) : Checker :=
  if 5 ≤ edition then { new with trustedScope := false } else new

end Checker

/-- `check_with_edition`. -/
def checkWithEdition (program : List Stmt) (edition : ℕ) : Except (List NivError) Unit :=
  let found := ((Checker.statements program).run (Checker.forEdition edition)).2
  if found.errors.isEmpty then .ok () else .error found.errors

/-- `check`. -/
def check (program : List Stmt) : Except (List NivError) Unit := checkWithEdition program 4

end Nivren
