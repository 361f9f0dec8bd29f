import Nivren.IntOps

/-! Whole programs as native integer code.

`integerRootPlan` lowers a top-level chunk without functions one instruction at a time.
`integerProgramPlan` also lowers its top-level functions and integer-only shapes: small functions are
inlined, and a shape is spread over one slot for each of its fields.
-/

namespace Nivren

def segmentEnd : Nat := 2 ^ 32 - 1

/-- What one bytecode stack position holds during lowering. A constructed shape occupies one operand
for each field, a named shape and the value of a declaration occupy none. -/
inductive ShapeEntry
  | value
  | function (index : Nat)
  | shapeType (id : Nat)
  | shapeWide (id : Nat)
  | shapeGhost (id : Nat)
  | phantom
deriving DecidableEq, Repr

/-- A top-level shape and, when all its fields are Ints, their names. -/
structure PlannedShape where
  name : String
  id : Nat
  fields : Option (List String)
deriving DecidableEq, Repr

structure PlannedProgramFunction where
  name : String
  parameters : Nat
  slots : Nat
  operations : List IntOp
deriving DecidableEq, Repr

structure PlanContext where
  planned : List (String × Nat)
  functions : List PlannedProgramFunction
  shapes : List PlannedShape
deriving DecidableEq, Repr

namespace PlanContext

def shapeNamed (context : PlanContext) (name : String) : Option PlannedShape :=
  context.shapes.find? fun shape => shape.name = name

def shapeFields (context : PlanContext) (id : Nat) : Option (List String) :=
  (context.shapes.find? fun shape => shape.id = id).bind PlannedShape.fields

def shapeWidth (context : PlanContext) (id : Nat) : Option Nat :=
  (context.shapeFields id).map List.length

end PlanContext

structure ShapeScan where
  result : List (Nat × Nat)
  bindings : List (String × Nat)
  construction : Option Nat
  scopes : List (List String)
deriving DecidableEq, Repr

def scanShapeVariable (context : PlanContext) (index : Nat) (op : Op) (scan : ShapeScan) :
    Option ShapeScan :=
  match op with
  | .load name =>
    match scan.bindings.lookup name, context.shapeNamed name with
    | some id, _ => some { scan with result := (index, id) :: scan.result }
    | none, some ⟨_, id, some _⟩ => some { scan with construction := some id }
    | none, _ => some scan
  | .define name _ =>
    match scan.construction, scan.scopes with
    | none, _ => some scan
    | some _, [] => none
    | some id, scope :: outer =>
      some { scan with
        bindings := (name, id) :: scan.bindings.filter fun entry => entry.1 ≠ name
        construction := none
        scopes := (name :: scope) :: outer }
  | .enterScope => some { scan with scopes := [] :: scan.scopes }
  | .exitScope =>
    match scan.scopes with
    | ended :: scope :: outer =>
      some { scan with
        bindings := scan.bindings.filter fun entry => entry.1 ∉ ended
        scopes := scope :: outer }
    | _ => none
  | _ => some scan

def scanShapeVariables (context : PlanContext) (reachable : List Nat) :
    Nat → List Instruction → ShapeScan → Option ShapeScan
  | _, [], scan => some scan
  | index, instruction :: rest, scan =>
    if index ∈ reachable then do
      let scan ← scanShapeVariable context index instruction.op scan
      scanShapeVariables context reachable (index + 1) rest scan
    else scanShapeVariables context reachable (index + 1) rest scan

/-- `collect_shape_variables`: the loads that read a shape-typed binding. -/
def collectShapeVariables (context : PlanContext) (code : List Instruction) :
    Option (List (Nat × Nat)) :=
  (scanShapeVariables context (reachableInstructions code) 0 code ⟨[], [], none, [[]]⟩).map
    ShapeScan.result

/-- What an instruction does to the shape of the stack, top first: the places control goes to. -/
def shapeStep (context : PlanContext) (shapeLoads : List (Nat × Nat)) (allowFunctions : Bool)
    (op : Op) (index : Nat) (stack : List ShapeEntry) : Option (List (Nat × List ShapeEntry)) :=
  let next (stack : List ShapeEntry) : Option (List (Nat × List ShapeEntry)) :=
    some [(index + 1, stack)]
  match op, stack with
  | .constant (.int _), stack | .constant .null, stack => next (.value :: stack)
  | .load name, stack =>
    match context.planned.lookup name, shapeLoads.lookup index, context.shapeNamed name with
    | some function, _, _ => next (.function function :: stack)
    | none, some id, _ => next (.shapeGhost id :: stack)
    | none, none, some ⟨_, id, some _⟩ => next (.shapeType id :: stack)
    | none, none, some ⟨_, _, none⟩ => none
    | none, none, none => next (.value :: stack)
  | .makeFunction name _ _, stack =>
    if allowFunctions then
      (context.planned.lookup name).bind fun function => next (.function function :: stack)
    else none
  | .defineRecord name _ _, stack =>
    if allowFunctions ∧ (context.shapeNamed name).isSome then next (.phantom :: stack) else none
  | .get _, .shapeGhost id :: stack =>
    (context.shapeWidth id).bind fun _ => next (.value :: stack)
  | .define _ _, .value :: stack | .store _, .value :: stack => next (.value :: stack)
  | .define _ _, .shapeWide id :: stack =>
    (context.shapeWidth id).bind fun _ => next (.phantom :: stack)
  | .define _ _, .function function :: stack => next (.function function :: stack)
  | .pop, .value :: stack | .pop, .function _ :: stack | .pop, .phantom :: stack
  | .pop, .shapeGhost _ :: stack => next stack
  | .unary .minus, .value :: stack | .unary .bang, .value :: stack => next (.value :: stack)
  | .binary operator, .value :: .value :: stack =>
    (lowerBinary operator).bind fun _ => next (.value :: stack)
  | .call arity, stack =>
    if (stack.take arity).length = arity ∧ (stack.take arity).all (· = .value) then
      match stack.drop arity with
      | .function _ :: stack => next (.value :: stack)
      | .shapeType id :: stack =>
        if context.shapeWidth id = some arity then next (.shapeWide id :: stack) else none
      | _ => none
    else none
  | .enterScope, stack | .exitScope, stack => next stack
  | .jump target, stack => if stack.all (· = .value) then some [(target, stack)] else none
  | .jumpIfFalse target, stack =>
    if stack.all (· = .value) then some [(index + 1, stack), (target, stack)] else none
  | .return, .value :: _ => some []
  | _, _ => none

/-- The worklist of the stack-shape analysis, last in first out. Control may fall off the end only
where no parameters are given, with one value left. -/
def shapeStatesFrom (context : PlanContext) (shapeLoads : List (Nat × Nat)) (allowFunctions : Bool)
    (code : List Instruction) (root : Bool) :
    Nat → List (Nat × List ShapeEntry) → List (Nat × List ShapeEntry) →
      Option (List (Nat × List ShapeEntry))
  | 0, _, _ => none
  | _ + 1, [], states => some states
  | fuel + 1, (index, stack) :: worklist, states =>
    match code[index]?, states.lookup index with
    | none, _ =>
      if root ∧ stack = [.value] then
        shapeStatesFrom context shapeLoads allowFunctions code root fuel worklist states
      else none
    | some _, some existing =>
      if existing = stack then
        shapeStatesFrom context shapeLoads allowFunctions code root fuel worklist states
      else none
    | some instruction, none => do
      let pushed ← shapeStep context shapeLoads allowFunctions instruction.op index stack
      shapeStatesFrom context shapeLoads allowFunctions code root fuel (pushed ++ worklist)
        ((index, stack) :: states)

/-- A plain operation with its jump target in source indices, or an inlined body with targets of its
own. -/
inductive LoweredItem
  | op (op : IntOp)
  | inlineSegment (operations : List IntOp)
deriving DecidableEq, Repr

def LoweredItem.size : LoweredItem → Nat
  | .op _ => 1
  | .inlineSegment operations => operations.length

def groupSize (group : List LoweredItem) : Nat := (group.map LoweredItem.size).sum

/-- Where each group starts in the final operations; the last entry is their number. -/
def groupStarts : Nat → List (List LoweredItem) → List Nat
  | start, [] => [start]
  | start, group :: groups => start :: groupStarts (start + groupSize group) groups

/-- An operation of an inlined body whose first operation is at `base`. -/
def rebaseInline (base «end» : Nat) : IntOp → Option IntOp
  | .jump target => if target = segmentEnd then some (.jump «end») else (u32 (base + target)).map .jump
  | .jumpIfFalse target =>
    if target = segmentEnd then some (.jumpIfFalse «end») else (u32 (base + target)).map .jumpIfFalse
  | op => some op

/-- The final operations of one item that starts at `base`. -/
def flattenItem (starts : List Nat) (base : Nat) : LoweredItem → Option (List IntOp)
  | .op (.jump target) => (starts[target]?.bind u32).map fun target => [.jump target]
  | .op (.jumpIfFalse target) => (starts[target]?.bind u32).map fun target => [.jumpIfFalse target]
  | .op op => some [op]
  | .inlineSegment operations => do
    let base ← u32 base
    let «end» ← u32 (base + operations.length)
    operations.mapM (rebaseInline base «end»)

def flattenItems (starts : List Nat) : Nat → List LoweredItem → Option (List IntOp)
  | _, [] => some []
  | base, item :: items => do
    let operations ← flattenItem starts base item
    let rest ← flattenItems starts (base + item.size) items
    some (operations ++ rest)

/-- `flatten_groups`. -/
def flattenGroups (groups : List (List LoweredItem)) : Option (List IntOp) :=
  flattenItems (groupStarts 0 groups) 0 groups.flatten

structure ProgramLowering where
  slots : List (String × Nat)
  nextSlot : Nat
  scopes : List (List String)
  shapeBindings : List (String × Nat × Nat)
  pendingGhost : Option (Nat × Nat)
  persistent : List PersistentSlot
deriving DecidableEq, Repr

def inlineLimit : Nat := 32

/-- A planned function whose calls are replaced by its body: it takes the arguments given, has a
body by now and makes no planned call itself. -/
def inlinable (f : PlannedProgramFunction) (arity : Nat) : Bool :=
  f.parameters = arity ∧ f.operations ≠ [] ∧ f.operations.length ≤ inlineLimit ∧
    f.operations.all fun op => !(op matches .callPlanned ..)

/-- An operation of an inlined body: slots move to `base`, targets past the stores of the arguments,
and `Return` jumps to the end. -/
def inlineOperation (base shift : Nat) : IntOp → Option IntOp
  | .load slot => (u32 (base + slot)).map .load
  | .store slot => (u32 (base + slot)).map .store
  | .define slot => (u32 (base + slot)).map .define
  | .jump target => (u32 (target + shift)).map .jump
  | .jumpIfFalse target => (u32 (target + shift)).map .jumpIfFalse
  | .return => some (.jump segmentEnd)
  | op => some op

def storeSlots (base : Nat) : Nat → List IntOp
  | 0 => []
  | count + 1 => .store (base + count) :: .pop :: storeSlots base count

def inlineSegment (f : PlannedProgramFunction) (base arity : Nat) : Option (List IntOp) := do
  let _ ← u32 (base + arity)
  let shift ← u32 (arity * 2)
  let body ← f.operations.mapM (inlineOperation base shift)
  some (storeSlots base arity ++ body)

def lowerCall (context : PlanContext) (state : ProgramLowering) (arity : Nat)
    (stack : List ShapeEntry) : Option (List LoweredItem × ProgramLowering) :=
  match stack[arity]? with
  | some (.function function) => do
    let arity ← u32 arity
    match (context.functions[function]?).filter (inlinable · arity) with
    | some f =>
      let nextSlot ← u32 (state.nextSlot + f.slots)
      let segment ← inlineSegment f state.nextSlot arity
      some ([.inlineSegment segment], { state with nextSlot := nextSlot })
    | none => some ([.op (.callPlanned function arity)], state)
  | some (.shapeType _) => some ([.op .nop], state)
  | _ => none

def lowerDefine (context : PlanContext) (state : ProgramLowering) (name : String) (mutable : Bool)
    (stack : List ShapeEntry) : Option (List LoweredItem × ProgramLowering) :=
  match stack.head?, state.scopes with
  | some (.shapeWide id), scope :: outer => do
    let width ← context.shapeWidth id
    let nextSlot ← u32 (state.nextSlot + width)
    let stores := (storeSlots state.nextSlot width).map LoweredItem.op
    some (if stores.isEmpty then [.op .nop] else stores, { state with
        nextSlot := nextSlot
        scopes := (name :: scope) :: outer
        shapeBindings := (name, id, state.nextSlot) ::
          state.shapeBindings.filter fun entry => entry.1 ≠ name })
  | some (.function _), _ => (context.planned.lookup name).map fun _ => ([.op .nop], state)
  | _, scope :: outer =>
    if (state.slots.lookup name).isSome ∨ (context.planned.lookup name).isSome ∨
        (state.shapeBindings.lookup name).isSome then none
    else do
      let nextSlot ← u32 (state.nextSlot + 1)
      some ([.op (.define state.nextSlot)], { state with
          slots := (name, state.nextSlot) :: state.slots
          nextSlot := nextSlot
          scopes := (name :: scope) :: outer
          persistent := if outer.isEmpty then
            state.persistent ++ [(name, state.nextSlot, mutable)] else state.persistent })
  | _, [] => none

/-- Lowers one reachable instruction whose stack has the given shape, top first. -/
def lowerProgramInstruction (context : PlanContext) (state : ProgramLowering) (op : Op)
    (stack : List ShapeEntry) : Option (List LoweredItem × ProgramLowering) :=
  let one (op : IntOp) : Option (List LoweredItem × ProgramLowering) := some ([.op op], state)
  match op with
  | .constant (.int value) => one (.constant value)
  | .constant .null => one .nullConstant
  | .makeFunction .. | .defineRecord .. => one .nop
  | .enterScope => some ([.op .nop], { state with scopes := [] :: state.scopes })
  | .exitScope =>
    match state.scopes with
    | ended :: scope :: outer =>
      some ([.op .nop], { state with
        slots := state.slots.filter fun entry => entry.1 ∉ ended
        shapeBindings := state.shapeBindings.filter fun entry => entry.1 ∉ ended
        scopes := scope :: outer })
    | _ => none
  | .load name =>
    match state.shapeBindings.lookup name with
    | some ghost => some ([.op .nop], { state with pendingGhost := some ghost })
    | none =>
      if (context.planned.lookup name).isSome ∨ (context.shapeNamed name).isSome then one .nop
      else (state.slots.lookup name).bind fun slot => one (.load slot)
  | .get field =>
    match stack.head?, state.pendingGhost with
    | some (.shapeGhost id), some (ghost, base) =>
      if ghost ≠ id then none
      else do
        let position ← (← context.shapeFields id).idxOf? field
        one (.load (← u32 (base + position)))
    | _, _ => none
  | .define name mutable => lowerDefine context state name mutable stack
  | .store name => (state.slots.lookup name).bind fun slot => one (.store slot)
  | .pop =>
    match stack.head? with
    | some (.function _) | some .phantom | some (.shapeGhost _) => one .nop
    | _ => one .pop
  | .unary .minus => one .negate
  | .unary .bang => one .not
  | .binary operator => (lowerBinary operator).bind one
  | .call arity => lowerCall context state arity stack
  | .jump target => (u32 target).bind fun target => one (.jump target)
  | .jumpIfFalse target => (u32 target).bind fun target => one (.jumpIfFalse target)
  | .return => one .return
  | _ => none

def lowerProgramInstructions (context : PlanContext) (reachable : List Nat)
    (states : List (Nat × List ShapeEntry)) :
    Nat → List Instruction → ProgramLowering → Option (List (List LoweredItem) × ProgramLowering)
  | _, [], state => some ([], state)
  | index, instruction :: rest, state =>
    if index ∈ reachable then do
      let stack ← states.lookup index
      let (group, state) ← lowerProgramInstruction context state instruction.op stack
      let (groups, state) ← lowerProgramInstructions context reachable states (index + 1) rest state
      some (group :: groups, state)
    else do
      let (groups, state) ← lowerProgramInstructions context reachable states (index + 1) rest state
      some ([.op .nop] :: groups, state)

/-- `lower_integer_code`: the slot count, the operations and the top-level bindings. -/
def lowerIntegerCode (context : PlanContext) (parameters : List String) (code : List Instruction)
    (allowFunctions : Bool) : Option (Nat × List IntOp × List PersistentSlot) := do
  let shapeLoads ← collectShapeVariables context code
  let states ← shapeStatesFrom context shapeLoads allowFunctions code parameters.isEmpty
    (code.length * 2 + 2) [(0, [])] []
  if parameters.any fun parameter => (context.planned.lookup parameter).isSome then none
  else do
    let start : ProgramLowering :=
      ⟨(parameters.zipIdx).reverse, parameters.length, [parameters], [], none, []⟩
    let (groups, state) ←
      lowerProgramInstructions context (reachableInstructions code) states 0 code start
    let operations ← flattenGroups groups
    some (state.nextSlot, operations, state.persistent)

structure IntegerRootPlan where
  slotCount : Nat
  operations : List IntOp
  printsResult : Bool
  persistent : List PersistentSlot
deriving DecidableEq, Repr

structure IntegerProgramPlan where
  functions : List PlannedProgramFunction
  rootSlots : Nat
  rootOperations : List IntOp
  printsResult : Bool
  persistent : List PersistentSlot
  functionSites : List Nat
  shapeSites : List Nat
deriving DecidableEq, Repr

/-- The code before a final `Print`, and whether there is one. -/
def splitPrint (code : List Instruction) : List Instruction × Bool :=
  match code.getLast? with
  | some ⟨.print, _⟩ => (code.dropLast, true)
  | _ => (code, false)

/-- `integer_root_plan`. -/
def integerRootPlan (chunk : Chunk) : Option IntegerRootPlan := do
  let (code, printsResult) := splitPrint chunk.code
  let (slotCount, operations, persistent) ← integerOperations [] code
  if verifyIntegerKinds (operations ++ [.return]) true then
    some ⟨slotCount, operations ++ [.return], printsResult, persistent⟩
  else none

/-- The functions and shapes found so far, with the places they are declared at. -/
structure PlanScan where
  context : PlanContext
  functionSites : List Nat
  shapeSites : List Nat
deriving DecidableEq, Repr

/-- Registers a shape or plans a function body that stands at `index`. -/
def scanDeclaration (scan : PlanScan) (index : Nat) (op : Op) : Option PlanScan :=
  let context := scan.context
  match op with
  | .defineRecord name fields _ =>
    if (context.shapeNamed name).isSome ∨ (context.planned.lookup name).isSome then none
    else
      let names := if fields.all fun field => field.2 = "Int" then some (fields.map Prod.fst) else none
      some { scan with
        context := { context with
          shapes := context.shapes ++ [⟨name, context.shapes.length, names⟩] }
        shapeSites := scan.shapeSites ++ [index] }
  | .makeFunction name params body =>
    if (context.planned.lookup name).isSome ∨ (context.shapeNamed name).isSome then none
    else do
      -- the function is known to its own body, still without operations
      let declared : PlanContext :=
        ⟨(name, context.functions.length) :: context.planned,
          context.functions ++ [⟨name, params.length, params.length, []⟩], []⟩
      let (slots, operations, _) ← lowerIntegerCode declared params body.code false
      if verifyIntegerKinds operations false then
        some { scan with
          context := ⟨declared.planned,
            context.functions ++ [⟨name, params.length, slots, operations⟩], context.shapes⟩
          functionSites := scan.functionSites ++ [index] }
      else none
  | _ => some scan

def scanDeclarations (reachable : List Nat) : Nat → List Instruction → PlanScan → Option PlanScan
  | _, [], scan => some scan
  | index, instruction :: rest, scan =>
    if index ∈ reachable then do
      let scan ← scanDeclaration scan index instruction.op
      scanDeclarations reachable (index + 1) rest scan
    else scanDeclarations reachable (index + 1) rest scan

/-- `integer_program_plan`. -/
def integerProgramPlan (chunk : Chunk) : Option IntegerProgramPlan := do
  let (code, printsResult) := splitPrint chunk.code
  let scan ← scanDeclarations (reachableInstructions code) 0 code ⟨⟨[], [], []⟩, [], []⟩
  if scan.context.functions.isEmpty ∧ scan.context.shapes.isEmpty then none
  else do
    let (rootSlots, operations, persistent) ← lowerIntegerCode scan.context [] code true
    if verifyIntegerKinds (operations ++ [.return]) true then
      some ⟨scan.context.functions, rootSlots, operations ++ [.return], printsResult, persistent,
        scan.functionSites, scan.shapeSites⟩
    else none

structure RootCode where
  functions : List PlanFunction
  depthLimit : Nat
  slots : Nat
  operations : List IntOp
  printsResult : Bool
  persistent : List PersistentSlot
  functionSites : List Nat
  shapeSites : List Nat
deriving DecidableEq, Repr

/-- Planned calls name a planned function and pass as many arguments as it takes. -/
def callsResolve (functions : List PlanFunction) (operations : List IntOp) : Bool :=
  operations.all fun
    | .callPlanned function arity => (functions[function]?).any fun f => f.parameters = arity
    | _ => true

/-- The limits and checks of `CompiledProgram::compile`. -/
def compilesProgram (functions : List PlanFunction) (slots : Nat) (operations : List IntOp) :
    Bool :=
  functions.length ≤ 1024 && slots ≤ 4096 &&
    functions.all (fun f => f.parameters ≤ f.slots && f.slots ≤ 4096 &&
      f.operations.length ≤ 1000000 && (intStackDepths f.operations).isSome &&
      callsResolve functions f.operations) &&
    (intStackDepths operations).isSome && callsResolve functions operations

def minimumRootOperations : Nat := 16

def IntegerProgramPlan.code (plan : IntegerProgramPlan) (maxCallDepth : Nat) : Option RootCode :=
  let functions := plan.functions.map fun f => ⟨f.parameters, f.slots, f.operations⟩
  let total := plan.rootOperations.length + (plan.functions.map fun f => f.operations.length).sum
  if minimumRootOperations ≤ total ∧
      compilesProgram functions plan.rootSlots plan.rootOperations then
    some ⟨functions, min maxCallDepth (2 ^ 63 - 1), plan.rootSlots, plan.rootOperations,
      plan.printsResult, plan.persistent, plan.functionSites, plan.shapeSites⟩
  else none

def IntegerRootPlan.code (plan : IntegerRootPlan) : Option RootCode :=
  if plan.operations.length < minimumRootOperations then none
  else (CompiledFunction.compile plan.slotCount plan.slotCount plan.operations).map fun compiled =>
    ⟨[], 0, compiled.slots, compiled.operations, plan.printsResult, plan.persistent, [], []⟩

/-- The native code for a top-level chunk; a plan with functions or shapes is tried first. -/
def rootCode (maxCallDepth : Nat) (chunk : Chunk) : Option RootCode :=
  match integerProgramPlan chunk with
  | some plan => plan.code maxCallDepth
  | none => (integerRootPlan chunk).bind IntegerRootPlan.code

def RootCode.enter (code : RootCode) : IntState :=
  .running ⟨code.operations, 0, [], initialSlots code.slots []⟩ []

end Nivren
