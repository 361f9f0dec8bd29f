import Nivren.CheckState

/-! How the checker reads patterns.

A pattern is checked against the type of the values it meets. It binds names and covers every value
of the type, one case of a choice, or neither.
-/

namespace Nivren

inductive Coverage
  | full
  | oneCase (name : String)
  | incomplete
deriving DecidableEq

def Coverage.isFull : Coverage → Bool
  | .full => true
  | _ => false

abbrev Bindings := List (String × Ty)

/-- `BTreeMap::insert`. -/
def Bindings.insert (name : String) (ty : Ty) : Bindings → Bindings
  | [] => [(name, ty)]
  | (other, found) :: rest =>
    if name < other then (name, ty) :: (other, found) :: rest
    else if name == other then (name, ty) :: rest
    else (other, found) :: Bindings.insert name ty rest

def Bindings.same : Bindings → Bindings → Bool
  | [], [] => true
  | (name, ty) :: rest, (name', ty') :: rest' => name == name' && ty.same ty' && same rest rest'
  | _, _ => false

structure Cases where
  typeName : String
  variants : List String
  payloads : List (String × Ty)

def Literal.ty : Literal → Ty
  | .int _ => .int
  | .float _ => .float
  | .string _ => .string
  | .bool _ => .bool
  | .null => .null

/-- The patterns that select `none` out of a nullable type. -/
def Literal.selectsNone : Literal → Ty → Bool
  | .null, .nullable _ => true
  | _, _ => false

def Literal.isFloatSelector : Literal → Ty → Bool
  | .float _, .float => true
  | _, _ => false

namespace Checker

def argumentsOf (s : Checker) (name : String) (arguments : List Ty) : Ty.Substitutions :=
  collectEntries (((s.typeParameters.lookup name).getD []).zip arguments)

/-- `pattern_cases`. -/
def patternCases (s : Checker) : Ty → Option Cases
  | .enum name arguments =>
    let definitions := (s.enums.lookup name).getD []
    let substitutions := s.argumentsOf name arguments
    some
      { typeName := name
        variants := definitions.map (·.1)
        payloads := collectEntries (definitions.filterMap fun definition =>
          definition.2.map fun payload => (definition.1, payload.substitute substitutions)) }
  | .result ok error =>
    some
      { typeName := "Result"
        variants := ["Ok", "Err"]
        payloads := [("Ok", ok), ("Err", error)] }
  | _ => none

/-- `bind_pattern_name`. -/
@[reducible] def bindPatternName (name : String) (ty : Ty) (span : Span) (bindings : Bindings) :
    Check Bindings := do
  reportIf (bindings.lookup name).isSome ("this pattern binds '" ++ name ++ "' more than once") span
  return bindings.insert name ty

/-- `Pattern::Literal`. -/
@[reducible] def checkLiteral (value : Literal) (expected : Ty) (span : Span) : Check Unit :=
  if value.isFloatSelector expected then
    report "a float literal is not a safe selector; compare with a 'when' guard instead" span
  else if !expected.isUnknown && !value.ty.same expected && !value.selectsNone expected then
    report ("this pattern matches " ++ value.ty.name ++ ", but the choose subject is " ++
      expected.name) span
  else pure ()

/-- `Pattern::Name`: a case of the type, or else a name for the value. -/
def checkName (name : String) (expected : Ty) (span : Span) (bindings : Bindings) :
    Check (Coverage × Bindings) := do
  match (← get).patternCases expected with
  | some cases =>
    if cases.variants.contains name then
      reportIf (cases.payloads.lookup name).isSome
        (name ++ " carries a payload; bind it with 'carries'") span
      return (.oneCase name, bindings)
    else return (.full, ← bindPatternName name expected span bindings)
  | none => return (.full, ← bindPatternName name expected span bindings)

/-- `Pattern::Carries`, with the check of the payload's pattern. -/
def checkCarries (name : String) (inner : Ty → Bindings → Check (Coverage × Bindings))
    (expected : Ty) (span : Span) (bindings : Bindings) : Check (Coverage × Bindings) := do
  match (← get).patternCases expected with
  | some cases =>
    if !cases.variants.contains name then
      report (cases.typeName ++ " has no case '" ++ name ++ "'") span
      return (.incomplete, (← inner .unknown bindings).2)
    else match cases.payloads.lookup name with
    | some payload =>
      let (coverage, bindings) ← inner payload bindings
      return (if coverage.isFull then .oneCase name else .incomplete, bindings)
    | none =>
      report (name ++ " carries no payload to match") span
      return (.incomplete, (← inner .unknown bindings).2)
  | none =>
    reportIf (!expected.isUnknown)
      ("'" ++ name ++ " carries' matches a choice case, but the value is " ++ expected.name) span
    return (.incomplete, (← inner .unknown bindings).2)

def namesShape (s : Checker) (name record : String) : Bool :=
  name == record || s.typeNames.lookup name == some record

structure ShapeFields where
  record : String
  types : List (String × Ty)
  substitutions : Ty.Substitutions
  span : Span

def ShapeFields.lookup (shape : ShapeFields) (field : String) : Option Ty :=
  (shape.types.lookup field).map (·.substitute shape.substitutions)

mutual

/-- `check_pattern`. -/
def checkPattern : Pattern → Ty → Bindings → Check (Coverage × Bindings)
  | .any _, _, bindings => return (.full, bindings)
  | .binding name span, expected, bindings =>
    return (.full, ← bindPatternName name expected span bindings)
  | .literal value span, expected, bindings => do
    checkLiteral value expected span
    return (.incomplete, bindings)
  | .name name span, expected, bindings => checkName name expected span bindings
  | .carries name inner span, expected, bindings =>
    checkCarries name (checkPattern inner) expected span bindings
  | .shape name fields span, expected, bindings => do
    match expected with
    | .record record arguments =>
      let matchesName := (← get).namesShape name record
      reportIf (!matchesName)
        ("this pattern names shape '" ++ name ++ "', but the value is " ++ record) span
      let shape : ShapeFields :=
        { record := record
          types := ((← get).records.lookup record).getD []
          substitutions := (← get).argumentsOf record arguments
          span := span }
      let (full, bindings) ← checkFields shape fields [] matchesName bindings
      return (if full then .full else .incomplete, bindings)
    | .unknown => return (.incomplete, ← checkUnknownFields fields bindings)
    | other =>
      report ("this pattern names shape '" ++ name ++ "', but the value is " ++ other.name) span
      return (.incomplete, ← checkUnknownFields fields bindings)

/-- The fields of a shape pattern, with the fields seen and whether all were covered so far. -/
def checkFields (shape : ShapeFields) :
    List (String × Pattern) → List String → Bool → Bindings → Check (Bool × Bindings)
  | [], _, full, bindings => return (full, bindings)
  | (field, pattern) :: rest, seen, full, bindings => do
    reportIf (seen.contains field)
      ("field '" ++ field ++ "' appears more than once in this pattern") shape.span
    match shape.lookup field with
    | some ty =>
      let (coverage, bindings) ← checkPattern pattern ty bindings
      checkFields shape rest (field :: seen) (full && coverage.isFull) bindings
    | none =>
      report (shape.record ++ " has no field '" ++ field ++ "'") shape.span
      let (_, bindings) ← checkPattern pattern .unknown bindings
      checkFields shape rest (field :: seen) false bindings

def checkUnknownFields : List (String × Pattern) → Bindings → Check Bindings
  | [], bindings => return bindings
  | (_, pattern) :: rest, bindings => do
    let (_, bindings) ← checkPattern pattern .unknown bindings
    checkUnknownFields rest bindings

end

/-- The alternatives of an arm: how each covers the type and what it binds. -/
@[reducible] def checkAlternatives (patterns : List Pattern) (expected : Ty) :
    Check (List (Coverage × Bindings)) :=
  runAll (patterns.map fun pattern => checkPattern pattern expected [])

/-- Reports each alternative that binds other names than the first, and gives the names of the
first. -/
def commonBindings (alternatives : List Bindings) (span : Span) : Check Bindings := do
  let bindings := alternatives.headD []
  alternatives.tail.forM fun alternative =>
    reportIf (!alternative.same bindings)
      "every 'or' alternative binds the same names at the same types" span
  return bindings

@[reducible] def declareBindings (bindings : Bindings) (span : Span) : Check Unit :=
  bindings.forM fun binding => declare binding.1 ⟨binding.2, false⟩ span

end Checker

end Nivren
