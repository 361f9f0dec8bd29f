import Nivren.Primitives

/-! The larger runtime functions: patterns, text holes, member access, function entry, hot-function
compilation, task start and garbage collection.
-/

namespace Nivren

variable {β σ ν : Type}

def shortName (name : String) : String :=
  String.ofList ((name.toList.reverse.takeWhile (· ≠ '.')).reverse)

def findType (find : String → Option (Value β)) (typeName : String) : Option (Value β) :=
  (find typeName).or (find (shortName typeName))

/-- `enum_has_variant`. -/
def enumHasVariant (find : String → Option (Value β)) (typeName variant : String) : Bool :=
  match findType find typeName with
  | some (.enumType choice) => choice.variants.contains variant
  | _ => false

def shapeMatches (typeName name : String) : Bool :=
  typeName == name || ("." ++ name).toList.isSuffixOf typeName.toList

section Patterns

variable (lib : RustLibrary) (find : String → Option (Value β))

/-- A name pattern: a case of the subject's choice, otherwise a binding. -/
def namePattern (name : String) (value : Value β) : Option (List (String × Value β)) :=
  match value with
  | .enum typeName variant _ =>
    if variant = name then some []
    else if enumHasVariant find typeName name then none
    else some [(name, value)]
  | .ok _ => if name = "Ok" then some [] else if name = "Err" then none else some [(name, value)]
  | .err _ => if name = "Err" then some [] else if name = "Ok" then none else some [(name, value)]
  | _ => some [(name, value)]

/-- The value `Case carries pattern` looks into. -/
def carried (name : String) (value : Value β) : Option (Value β) :=
  match value with
  | .enum _ variant payload => if variant = name then payload else none
  | .ok payload => if name = "Ok" then some payload else none
  | .err payload => if name = "Err" then some payload else none
  | _ => none

mutual

/-- `pattern_bindings`: the names a pattern binds, `none` when it does not match. -/
def patternBindings : Pattern → Value β → Option (List (String × Value β))
  | .any _, _ => some []
  | .binding name _, value => some [(name, value)]
  | .literal literal _, value => if value.beq lib literal.value then some [] else none
  | .name name _, value => namePattern find name value
  | .carries name inner _, value => (carried name value).bind (patternBindings inner)
  | .shape name fields _, value =>
    match value with
    | .record typeName held => if shapeMatches typeName name then fieldBindings fields held else none
    | _ => none
termination_by structural pattern => pattern

def fieldBindings : List (String × Pattern) → List (String × Value β) →
    Option (List (String × Value β))
  | [], _ => some []
  | (field, pattern) :: rest, held =>
    (held.reverse.lookup field).bind fun value =>
      (patternBindings pattern value).bind fun bindings =>
        (fieldBindings rest held).map (bindings ++ ·)
termination_by structural fields => fields

end

def firstMatch (patterns : List Pattern) (value : Value β) : Option (List (String × Value β)) :=
  patterns.findSome? fun pattern => patternBindings lib find pattern value

end Patterns

def textHoleContract : String :=
  "give text, a number, a boolean, a date/time, or a shape that derives Display"

/-- `text_hole_string`. -/
def textHoleString (lib : RustLibrary) (find : String → Option (Value β)) (value : Value β)
    (span : Span) : Result String :=
  match value with
  | .string text => .ok text
  | .int _ | .uint _ | .u128 _ | .bool _ | .bigInt _ | .decimal _ | .fixedInt _ | .dateTime _ =>
    .ok (value.display lib)
  | .float bits =>
    if lib.floatIsFinite bits then .ok (value.display lib)
    else fail ("a text hole attempted to render a float that is not finite; " ++
      "handle NaN or infinity before formatting") span
  | .record typeName _ =>
    match findType find typeName with
    | some (.recordType schema) =>
      if schema.derives.contains "Display" then .ok (value.display lib)
      else fail ("a text hole attempted to render " ++ typeName ++
        ", which does not derive Display; " ++ textHoleContract) span
    | _ => fail ("a text hole attempted to render " ++ typeName ++
        ", which does not derive Display; " ++ textHoleContract) span
  | other => fail ("a text hole attempted to render " ++ other.typeName ++
      ", which has no canonical text; " ++ textHoleContract) span

def textTooLong (limit : Nat) : String :=
  s!"a text literal grew beyond the declared {limit}-byte payload limit; " ++
    "build large output through bounded streams or raise payload_bytes under [limits]"

/-- `MakeText`: renders and joins the pieces, checking the payload limit after each. -/
def makeText (lib : RustLibrary) (find : String → Option (Value β)) (limit : Nat) (span : Span) :
    List (Value β) → String → Result String
  | [], output => .ok output
  | value :: rest, output =>
    match textHoleString lib find value span with
    | .error failure => .error failure
    | .ok text =>
      if limit < (output ++ text).utf8ByteSize then fail (textTooLong limit) span
      else makeText lib find limit span rest (output ++ text)

def deriveMethods : List (String × String) :=
  [("to_json", "Json"), ("from_json", "Json"), ("compare", "Compare"), ("display", "Display"),
   ("key", "Key"), ("validate", "Validate"), ("to_binary", "Binary"), ("from_binary", "Binary"),
   ("from_row", "DatabaseRow"), ("from_arguments", "Arguments")]

/-- Field access: small shapes are scanned from the front, large ones through the index, which
keeps the last of two fields of one name. -/
def recordField (fields : List (String × Value β)) (name : String) : Option (Value β) :=
  if fields.length ≤ 8 then fields.lookup name else fields.reverse.lookup name

/-- Extends a catalog as `BTreeMap::insert` does. -/
def catalogInsert {α : Type} (catalog : List (String × α)) (name : String) (entry : α) :
    List (String × α) :=
  (name, entry) :: catalog.filter fun old => old.1 ≠ name

def catalogExtend {α : Type} (catalog more : List (String × α)) : List (String × α) :=
  more.foldl (fun catalog entry => catalogInsert catalog entry.1 entry.2) catalog

mutual

def collectRecords : Value β → List (String × List (String × String)) →
    List (String × List (String × String))
  | .recordType record, catalog =>
    catalogInsert (catalogExtend catalog record.catalog) record.name record.fields
  | .module _ members, catalog => collectRecordsIn members catalog
  | _, catalog => catalog
termination_by structural value => value

def collectRecordsIn : List (String × Value β) → List (String × List (String × String)) →
    List (String × List (String × String))
  | [], catalog => catalog
  | (_, value) :: rest, catalog => collectRecordsIn rest (collectRecords value catalog)
termination_by structural members => members

end

mutual

def collectChoices : Value β → List (String × List (String × Bool)) →
    List (String × List (String × Bool))
  | .enumType choice, catalog =>
    catalogInsert catalog choice.name
      (choice.variants.map fun variant => (variant, choice.payloadVariants.contains variant))
  | .recordType record, catalog => catalogExtend catalog record.choices
  | .module _ members, catalog => collectChoicesIn members catalog
  | _, catalog => catalog
termination_by structural value => value

def collectChoicesIn : List (String × Value β) → List (String × List (String × Bool)) →
    List (String × List (String × Bool))
  | [], catalog => catalog
  | (_, value) :: rest, catalog => collectChoicesIn rest (collectChoices value catalog)
termination_by structural members => members

end

namespace Heap

def visible (h : Heap β) (e : Env) : List (Value β) :=
  (h.chain e).flatMap fun scope => scope.values.map fun entry => entry.2.value

def recordCatalog (h : Heap β) (e : Env) : List (String × List (String × String)) :=
  (h.visible e).foldl (fun catalog value => collectRecords value catalog) []

def choiceCatalog (h : Heap β) (e : Env) : List (String × List (String × Bool)) :=
  (h.visible e).foldl (fun catalog value => collectChoices value catalog) []

end Heap

namespace VM

/-- `get_value`. -/
def getValue (object : Value β) (name : String) (span : Span) : VM β σ (Value β) := do
  match object with
  | .record typeName fields =>
    match recordField fields name with
    | some value => return value
    | none => raise (typeName ++ " has no field '" ++ name ++ "'") span
  | .recordType record =>
    match deriveMethods.lookup name with
    | none => raise (record.name ++ " has no generated method '" ++ name ++ "'") span
    | some derive =>
      if record.derives.contains derive then
        return .derivedMethod ⟨← fresh, record, name⟩
      else
        raise (record.name ++ " needs derive " ++ derive ++ " for generated method '" ++ name ++
          "'") span
  | .enumType choice =>
    if !choice.variants.contains name then
      raise (choice.name ++ " has no variant '" ++ name ++ "'") span
    else if choice.payloadVariants.contains name then
      return .enumConstructor ⟨← fresh, choice.name, name⟩
    else return .enum choice.name name none
  | .protocolType protocol =>
    if protocol.members.contains name then
      return .protocolMethod ⟨← fresh, protocol.name, name⟩
    else raise (protocol.name ++ " has no member '" ++ name ++ "'") span
  | .module _ members =>
    match members.lookup name with
    | some value => return value
    | none => raise ("module has no exposed member '" ++ name ++ "'") span
  | other => raise (other.typeName ++ " has no fields") span

@[reducible] def beginCall (span : Span) : VM β σ Unit := do
  let limit ← read Interp.maxCallDepth
  if limit ≤ (← read Interp.callDepth) then
    raise s!"call depth limit of {limit} exceeded" span
  else write fun s => { s with callDepth := s.callDepth + 1 }

def endCall : VM β σ Unit := write fun s => { s with callDepth := s.callDepth - 1 }

end VM

/-- Slots on entry: the parameters that have one are defined. -/
def parameterSlots (plan : FastSlotPlan) (parameters : List (String × Value β)) :
    List (FastBinding β) :=
  parameters.foldl (fun slots entry =>
      match plan.slotsByName.lookup entry.1 with
      | some slot => slots.set slot ⟨entry.2, false, true⟩
      | none => slots)
    (List.replicate plan.slotCount ⟨.null, false, false⟩)

theorem parameterSlots_length (plan : FastSlotPlan) (parameters : List (String × Value β)) :
    (parameterSlots plan parameters).length = plan.slotCount := by
  suffices h : ∀ (slots : List (FastBinding β)), slots.length = plan.slotCount → (parameters.foldl
        (fun slots entry =>
          match plan.slotsByName.lookup entry.1 with
          | some slot => slots.set slot ⟨entry.2, false, true⟩
          | none => slots) slots).length = plan.slotCount from h _ List.length_replicate
  induction parameters with
  | nil => exact fun _ h => h
  | cons entry rest ih =>
    intro slots hs
    rw [List.foldl_cons]
    apply ih
    split
    · rwa [List.length_set]
    · exact hs

/-- The frame of an activation that keeps its locals in slots. -/
def FastFrame.enter (plan : FastSlotPlan) (parameters : List (String × Value β)) : FastFrame β where
  plan := some plan
  slots := parameterSlots plan parameters
  sized p hp := by
    cases hp
    exact parameterSlots_length plan parameters

namespace VM

/-- Sets the stage for a function body: its locals in slots when a plan exists and nobody watches,
in a child of its closure otherwise. Returns the scope to come back to and whether a slot frame was
pushed. -/
def enterFunction (f : Function Chunk) (arguments : List (Value Chunk)) :
    VM Chunk σ (Env × Bool) := do
  let parameters := f.params.zip arguments
  let previous ← environment
  let watched ← read fun s => s.debugged || s.metered
  match (fastLocalSlots f.params f.body).filter fun _ => !watched with
  | some plan =>
    pushFast (FastFrame.enter plan parameters)
    let resident := parameters.filter fun entry => (plan.slotsByName.lookup entry.1).isNone
    if resident.isEmpty && !plan.needsEnvironment then
      setEnvironment f.closure
    else
      let e ← childScope f.closure
      bindAll e resident
      setEnvironment e
    pushRoot previous
    return (previous, true)
  | none =>
    let e ← childScope f.closure
    bindAll e parameters
    setEnvironment e
    pushRoot previous
    if (← topFrame).isNone then return (previous, false)
    else
      pushFast FastFrame.mask
      return (previous, true)

/-- Undoes `enterFunction`. -/
def leaveFunction (previous : Env) (fast : Bool) : VM β σ Unit := do
  popRoot
  setEnvironment previous
  if fast then popFast

def intArguments : List (Value β) → Option (List Int)
  | [] => some []
  | .int number :: rest => (intArguments rest).map (number :: ·)
  | _ => none

/-- What `try_jit` makes of a function's counters: the code to run, if it has any by now, or `none`
when it turned out not to compile. -/
def jitCode (state : JitState) (threshold : Nat) (f : Function Chunk) :
    Option (Option CompiledFunction) :=
  if state.compiled.isSome then some state.compiled
  else if threshold ≤ state.calls then
    (integerNativePlan f.params f.body).bind fun (slots, operations) =>
      (CompiledFunction.compile f.params.length slots operations).map some
  else some none

@[reducible] def setJit (id : Nat) (state : JitState) : VM Chunk σ Unit :=
  write fun s => { s with jit := (id, state) :: s.jit.filter fun entry => entry.1 ≠ id }

/-- `try_jit` up to the native call: the code to run and its arguments, or `none` to interpret. -/
def tryJit (f : Function Chunk) (arguments : List (Value Chunk)) :
    VM Chunk σ (Option (CompiledFunction × List Int)) := do
  let state ← read fun s => (s.jit.lookup f.id).getD ⟨0, none, false⟩
  if state.disabled then return none
  else
    let state := { state with calls := min (state.calls + 1) (2 ^ 32 - 1) }
    match jitCode state (← read Interp.jitThreshold) f with
    | none =>
      setJit f.id { state with disabled := true }
      return none
    | some code =>
      setJit f.id { state with compiled := code }
      return code.bind fun code => (intArguments arguments).map fun numbers => (code, numbers)

/-- The error of a native fault. -/
def jitError (error : JitCallError) (span : Span) : VM β σ (Value β) := do
  match error with
  | .overflow => raise "integer overflow" span
  | .divisionByZero => raise "division by zero" span
  | .remainderByZero => raise "remainder by zero" span
  | .callDepth =>
    let limit ← read Interp.maxCallDepth
    raise s!"call depth limit of {limit} exceeded" span

/-- `task_spawn`: records the start of a task and returns its handle. -/
def taskSpawn (arguments : List (Value β)) (span : Span) : VM β σ (Value β) := do
  match arguments.headD .null with
  | .function f =>
    if f.params ≠ [] then raise "std.tasks.spawn requires a function with no parameters" span
    else
      if maximumLiveTasks ≤ (← read Interp.liveTasks) then
        raise s!"too many live tasks; at most {maximumLiveTasks} may run at once" span
      else
        let task ← fresh
        write fun s => { s with
          liveTasks := s.liveTasks + 1
          spawned := s.spawned ++ [⟨task, f, span, s.capabilities, s.capabilityScopes,
            s.activePromises, s.maxCallDepth, decide (0 < s.nativeExecutionDepth), s.metered⟩] }
        return .handle .task task
  | other => raise ("std.tasks.spawn expects Function, found " ++ other.typeName) span

end VM

section Collection

variable (host : Host β σ ν) (world : σ)

/-- The scopes `mark_value` visits from a value. -/
def closuresOf (value : Value β) : List Env :=
  (value.functions ++ value.handles.flatMap fun (kind, id) => host.held world kind id).map
    Function.closure

/-- The scopes `mark_environment` visits from a scope. -/
def reachedFrom (h : Heap β) (e : Env) : List Env :=
  (h.get e).parent.toList ++ (h.get e).values.flatMap fun entry =>
    closuresOf host world entry.2.value

def Heap.addresses (h : Heap β) : List Env :=
  (List.range h.globals.length).map Env.globals ++ (List.range h.scopes.length).map Env.scope

/-- `mark_roots`: the scopes reachable from a list of roots. -/
def markFrom (h : Heap β) (roots : List Env) : List Env :=
  Reach.mark (reachedFrom host world h)
    (roots.length + (h.addresses.flatMap (reachedFrom host world h)).length) roots []

end Collection

/-- What the concurrent marker reports when a collection asks. -/
inductive MarkerReport
  | empty
  | marked (scopes : List Env)
  | disconnected

/-- Whether a sweep may clear a scope of this age: a minor sweep spares what survived twice. -/
def sweepable (ages : Option (List (Env × Nat))) (e : Env) : Bool :=
  ages.all fun ages => (ages.lookup e).getD 0 < 2

/-- `sweep_environments`: clears tracked scopes that are unmarked and, in a minor sweep, young. -/
def sweep (tracked marked : List Env) (ages : Option (List (Env × Nat))) (h : Heap β) : Heap β :=
  tracked.foldl (fun h e => if sweepable ages e && !marked.contains e then h.clear e else h) h

/-- `refresh_ages`. -/
def refreshAges (tracked marked : List Env) (ages : List (Env × Nat)) : List (Env × Nat) :=
  tracked.foldl (fun ages e =>
      if marked.contains e then
        (e, min ((ages.lookup e).getD 0 + 1) 2) :: ages.filter fun entry => entry.1 ≠ e
      else ages) ages

namespace VM

/-- The collector's roots: globals, current scope, saved scopes and the running operand stack. -/
def collectorRoots (host : Host β σ ν) (s : Interp β σ) (stack : List (Value β)) : List Env :=
  s.globals :: s.environment :: s.roots ++ stack.flatMap (closuresOf host s.world)

/-- `mark_roots` on the current state. -/
def liveScopes (host : Host β σ ν) (stack : List (Value β)) : VM β σ (List Env) :=
  read fun s => markFrom host s.world s.heap (collectorRoots host s stack)

/-- One sweep with everything in `kept` retained. -/
def sweepWith (kept : List Env) (minor : Bool) : VM β σ Unit :=
  write fun s => { s with
    heap := sweep s.environments kept (if minor then some s.collector.ages else none) s.heap
    collector := { s.collector with
      ages := refreshAges s.environments kept s.collector.ages } }

def setPending (pending : Bool) : VM β σ Unit :=
  write fun s => { s with collector := { s.collector with pending := pending } }

/-- Finishes a concurrent mark that has reported: its snapshot and a fresh mark are both kept. -/
def finishMark (host : Host β σ ν) (report : MarkerReport) (stack : List (Value β)) :
    VM β σ Unit := do
  if ← read fun s => s.collector.pending then
    match report with
    | .empty => pure ()
    | .disconnected => setPending false
    | .marked scopes =>
      sweepWith (scopes ++ (← liveScopes host stack)) false
      setPending false

/-- `GenerationalCollector::collect`: finishes a concurrent mark that has reported, starts one every
eighth cycle, and sweeps the young generation otherwise. -/
def collect (host : Host β σ ν) (report : MarkerReport) (stack : List (Value β)) : VM β σ Unit := do
  finishMark host report stack
  write fun s => { s with collector := { s.collector with cycles := s.collector.cycles + 1 } }
  let collector ← read Interp.collector
  if !collector.pending && collector.cycles % 8 = 0 then setPending true
  else sweepWith (← liveScopes host stack) true

def collectDue (s : Interp β σ) : Bool := s.gcStress || 1024 ≤ s.gcTicks + 1

/-- `maybe_collect`, with the trigger given: `none` lets the program go on. -/
def maybeCollect (host : Host β σ ν) (trigger : Option MarkerReport) (stack : List (Value β)) :
    VM β σ Unit := do
  match trigger with
  | none => write fun s => { s with gcTicks := s.gcTicks + 1 }
  | some report =>
    collect host report stack
    write fun s => { s with gcTicks := 0 }

end VM

end Nivren
