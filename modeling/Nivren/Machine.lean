import Nivren.Runtime

/-! The virtual machine.

The recursive Rust interpreter becomes an abstract machine: whatever a Rust function still has to do
when a nested execution returns is a `Frame`, and what the machine does next is its `Control`. A call
that returns a value reports it as `VmFlow.continue`.

`execute_chunk` picks one of two executors. Both run the same `execute_bytecode_step`; they differ in
what they do around it, which is `enterChunk`, `leaveChunk` and `finishChunk` here.
-/

namespace Nivren

variable {σ ν : Type}

inductive VmFlow (β : Type)
  | continue (value : Value β)
  | return (value : Value β)
  | stop
  | skip

/-- One running chunk: its operand stack has its top first. -/
structure Activation where
  chunk : Chunk
  instruction : Nat
  stack : List (Value Chunk)
  promiseMark : Nat

def Activation.current (a : Activation) : Option Instruction := a.chunk.code[a.instruction]?

structure Loop where
  name : String
  pattern : Option Pattern
  body : Chunk
  span : Span

/-- Why a native is running: an ordinary call, or draining an iterator for a loop. -/
inductive Purpose
  | call (f : NativeFunction) (arguments : List (Value Chunk)) (span : Span)
  | drain (loop : Loop)

/-- What remains to be done when a nested execution returns. -/
inductive Frame (ν : Type)
  | activation (a : Activation)
  | operands (a : Activation) (count : Nat)
  | function (name : String) (span : Span) (previous : Env) (fast : Bool)
  | native (purpose : Purpose) (state : ν)
  | guard (subject : Value Chunk) (arm : BytecodeArm) (rest : List BytecodeArm) (span : Span)
      (previous : Env)
  | arm (previous : Env)
  | module (name : String) (exports : List String) (span : Span) (previous moduleScope : Env)
  | advance (implementation : Value Chunk) (items : List (Value Chunk)) (loop : Loop)
  | iteration (loop : Loop) (rest : List (Value Chunk)) (last : Value Chunk) (previous : Env)
  | repeatCondition (condition body : Chunk) (last : Value Chunk) (span : Span)
  | repeatBody (condition body : Chunk) (last : Value Chunk) (span : Span)
  | carriesThen (previous : Env)
  | carriesElse
  | sample (title : String) (shows : Option String) (span : Span) (previous : Env)
  | using (resource : Value Chunk) (span : Span) (previous : Env)

inductive Control (σ ν : Type)
  | execute (a : Activation)
  | collect (a : Activation) (next : Nat) (memory : Bool)
  | settle (a : Activation) (next : Nat) (memory : Bool)
  | flow (result : Except NivError (VmFlow Chunk))
  | call (callee : Value Chunk) (arguments : List (Value Chunk)) (span : Span)
  | native (purpose : Purpose) (step : NativeStep Chunk σ ν)
  | compiled (name : String) (span : Span) (state : IntState)
  | choose (subject : Value Chunk) (arms : List BytecodeArm) (span : Span)
  | iterate (loop : Loop) (values : List (Value Chunk)) (last : Value Chunk)
  | advance (implementation state : Value Chunk) (items : List (Value Chunk)) (loop : Loop)
  | repeat (condition body : Chunk) (last : Value Chunk) (span : Span)
  | panic

abbrev Next (σ ν : Type) := List (Frame ν) × Control σ ν

def loopExitEscape : String := "a loop exit crossed a scope the checker should have rejected"

def loopExitEscapeError (span : Span) : NivError := errorAt loopExitEscape span

namespace VM

def nativeMode : VM Chunk σ Bool := read fun s => 0 < s.nativeExecutionDepth

def promiseMark : VM Chunk σ Nat := read fun s => s.activePromises.length

def maximumTrace : Nat := 1000000

/-- `execute_chunk`: the native executor first compiles a trace of the chunk's length. -/
def enterChunk (chunk : Chunk) (frames : List (Frame ν)) : VM Chunk σ (Next σ ν) := do
  if (← nativeMode) && (chunk.code.isEmpty || maximumTrace < chunk.code.length) then
    return (frames, .flow (.error (NivError.new ("native trace compilation failed: " ++
      "native traces require 1 through 1000000 instructions") 1 1)))
  else
    return (frames, .execute ⟨chunk, 0, [], ← promiseMark⟩)

/-- `execute_nested_chunk`: masks the enclosing plan. -/
def enterNested (chunk : Chunk) (frames : List (Frame ν)) : VM Chunk σ (Next σ ν) := do
  pushFast FastFrame.mask
  enterChunk chunk frames

/-- The end of an activation. Only the bytecode executor drops the promises made inside it. -/
def leaveChunk (a : Activation) (frames : List (Frame ν))
    (result : Except NivError (VmFlow Chunk)) : VM Chunk σ (Next σ ν) := do
  if !(← nativeMode) then truncatePromises a.promiseMark
  return (frames, .flow result)

/-- Control fell off the end of a chunk. Only the bytecode executor looks for cancellation here. -/
def finishChunk (a : Activation) (frames : List (Frame ν)) : VM Chunk σ (Next σ ν) := do
  let value := a.stack.head?.getD .null
  if ← nativeMode then return (frames, .flow (.ok (.continue value)))
  else
    truncatePromises a.promiseMark
    if ← isCancelled then
      return (frames, .flow (.error (NivError.new "task cancelled" 1 1)))
    else return (frames, .flow (.ok (.continue value)))

/-- What an instruction does to its activation: go on with the collection and memory charge that
follow, move on to the following instruction at once, end it, or wait for a nested execution. -/
inductive OpResult (σ ν : Type)
  | next (stack : List (Value Chunk)) (instruction : Nat) (memory : Bool)
  | onward (stack : List (Value Chunk))
  | leave (flow : VmFlow Chunk)
  | enter (next : Next σ ν)

def chargesMemory : Op → Bool
  | .constant _ | .binary _ | .call _ | .performCall _ | .makeArray _ | .makeText _ | .index
  | .get _ | .makeFunction .. | .defineRecord .. | .defineEnum .. => true
  | _ => false

/-- Removes `count` operands and returns them in the order they were pushed. -/
def splitOff (stack : List (Value Chunk)) (count : Nat) :
    VM Chunk σ (List (Value Chunk) × List (Value Chunk)) :=
  if stack.length < count then throw .panic
  else return ((stack.take count).reverse, stack.drop count)

def pop (stack : List (Value Chunk)) : VM Chunk σ (Value Chunk × List (Value Chunk)) :=
  match stack with
  | [] => throw .panic
  | value :: rest => return (value, rest)

@[reducible] def declare (name : String) (value : Value Chunk) (mutable : Bool) (span : Span) :
    VM Chunk σ Unit := do
  let replaced ← declared name
  insertBinding name value mutable
  if replaced then raise ("'" ++ name ++ "' is already declared in this scope") span

/-- `DefinePattern` declares its names one by one. -/
def declareAll (span : Span) : List (String × Value Chunk) → VM Chunk σ Unit
  | [] => pure ()
  | (name, value) :: rest => do
    if ← declared name then raise ("'" ++ name ++ "' is already declared in this scope") span
    else
      insertBinding name value false
      declareAll span rest

def baseName (typeName : String) : String := String.ofList (typeName.toList.takeWhile (· ≠ '<'))

@[reducible] def adopt (protocol member typeName : String) (implementation : Value Chunk) :
    VM Chunk σ Unit :=
  write fun s => { s with protocolDispatch :=
    ((protocol, member, typeName), implementation) ::
      s.protocolDispatch.filter fun entry => entry.1 ≠ (protocol, member, typeName) }

@[reducible] def dispatch (protocol member typeName : String) : VM Chunk σ (Option (Value Chunk)) :=
  read fun s => s.protocolDispatch.lookup (protocol, member, typeName)

/-- The implementations an adoption maps its members to. -/
def adoptAll (protocol base qualifiedName : String) (span : Span) :
    List (String × String) → VM Chunk σ Unit
  | [] => pure ()
  | (member, name) :: rest => do
    match ← lookup name with
    | none => raise ("unknown protocol implementation '" ++ name ++ "'") span
    | some implementation =>
      adopt protocol member base implementation
      adopt protocol member qualifiedName implementation
      adoptAll protocol base qualifiedName span rest

/-- `Call` and `PerformCall`: the operands of a closure stay on the stack while it runs. -/
def callOp (a : Activation) (count : Nat) (span : Span) (frames : List (Frame ν)) :
    VM Chunk σ (OpResult σ ν) := do
  let (arguments, below) ← splitOff a.stack count
  let (callee, rest) ← pop below
  match callee with
  | .function f => return .enter (.operands a (count + 1) :: frames, .call (.function f) arguments span)
  | callee =>
    return .enter (.activation { a with stack := rest } :: frames, .call callee arguments span)

/-- The resources `using` accepts. -/
def closable : HandleKind → Bool
  | .file | .tcpListener | .tlsListener | .tcpStream | .tlsStream | .webSocket | .lockGuard
  | .nativeHandle | .nativeLibrary | .transaction => true
  | _ => false

/-- `ensure_closable`. -/
def ensureClosable (value : Value Chunk) (span : Span) : VM Chunk σ Unit :=
  match value with
  | .handle kind _ =>
    if closable kind then pure ()
    else raise ("using needs a closable resource, found " ++ kind.typeName) span
  | other => raise ("using needs a closable resource, found " ++ other.typeName) span

/-- Enters a module body: a child of the globals under a longer namespace. -/
def enterModule (name : String) : VM Chunk σ (Env × Env) := do
  let moduleScope ← childScope (← read Interp.globals)
  let previous ← environment
  setEnvironment moduleScope
  pushRoot previous
  write fun s => { s with namespaces := s.namespaces ++ [name] }
  return (previous, moduleScope)

def leaveModule (previous : Env) : VM Chunk σ Unit := do
  write fun s => { s with namespaces := s.namespaces.dropLast }
  popRoot
  setEnvironment previous

/-- Starts an `each` loop over a value. -/
def startIteration (host : Host Chunk σ ν) (loop : Loop) (iterable : Value Chunk) :
    VM Chunk σ (Control σ ν) := do
  match iterable with
  | .array values => return .iterate loop values .null
  | .string text =>
    return .iterate loop (text.toList.map fun c => .string (String.singleton c)) .null
  | .handle .iterator id =>
    return .native (.drain loop) (host.drain id loop.span (← read Interp.world))
  | .record typeName fields =>
    match ← dispatch "Iterate" "advance" typeName with
    | some implementation => return .advance implementation (.record typeName fields) [] loop
    | none => raise (typeName ++ " is not iterable") loop.span
  | other => raise (other.typeName ++ " is not iterable") loop.span

/-- `execute_bytecode_step` after its preamble: what one op does. -/
def executeOp (host : Host Chunk σ ν) (a : Activation) (op : Op) (span : Span)
    (frames : List (Frame ν)) : VM Chunk σ (OpResult σ ν) := do
  let settled (stack : List (Value Chunk)) : OpResult σ ν :=
    .next stack (a.instruction + 1) (chargesMemory op)
  let suspend (stack : List (Value Chunk)) : List (Frame ν) :=
    .activation { a with stack := stack } :: frames
  match op with
  | .constant literal => return settled (literal.value :: a.stack)
  | .load name =>
    match ← loadFast a.instruction with
    | some value => return settled (value :: a.stack)
    | none =>
      match ← lookup name with
      | some value => return settled (value :: a.stack)
      | none => raise ("undefined name '" ++ name ++ "'") span
  | .store name =>
    let (value, _) ← pop a.stack
    if !(← assignFast a.instruction name value span) then assign name value span
    return settled a.stack
  | .define name mutable =>
    let (value, _) ← pop a.stack
    if ← defineFast a.instruction value mutable then
      return .onward a.stack
    else
      declare name value mutable span
      return settled a.stack
  | .pop => return settled a.stack.tail
  | .unary operator =>
    let (value, rest) ← pop a.stack
    return settled ((← lift (unary host.lib operator value span)) :: rest)
  | .binary operator =>
    let (right, rest) ← pop a.stack
    let (left, rest) ← pop rest
    return settled ((← lift (vmBinary host.lib left operator right span)) :: rest)
  | .jump target => return .next a.stack target false
  | .jumpIfFalse target =>
    let (value, _) ← pop a.stack
    if ← lift (expectBool value span) then return settled a.stack
    else return .next a.stack target false
  | .call count | .performCall count => callOp a count span frames
  | .makeArray count =>
    let (values, rest) ← splitOff a.stack count
    return settled (.array values :: rest)
  | .makeText count =>
    let (values, rest) ← splitOff a.stack count
    let find ← finder
    let limit ← read Interp.payloadLimit
    let text ← lift (makeText host.lib find limit span values "")
    return settled (.string text :: rest)
  | .index =>
    let (index, rest) ← pop a.stack
    let index ← lift (expectIndex index span)
    let (collection, rest) ← pop rest
    return settled ((← lift (indexValue collection index span)) :: rest)
  | .coalesce target =>
    match a.stack with
    | value :: _ =>
      if value.beq host.lib .null then return settled a.stack
      else return .next a.stack target false
    | [] => return settled a.stack
  | .propagate =>
    let (value, rest) ← pop a.stack
    match value with
    | .ok value => return settled (value :: rest)
    | .err value => return .leave (.return (.err value))
    | other => raise ("or give needs a Result, found " ++ other.typeName) span
  | .get name =>
    let (object, rest) ← pop a.stack
    return settled ((← getValue object name span) :: rest)
  | .print =>
    let (value, rest) ← pop a.stack
    printLine (value.display host.lib)
    return settled (.null :: rest)
  | .enterScope =>
    enterScope
    return settled a.stack
  | .exitScope =>
    exitScope
    return settled a.stack
  | .makeFunction name params body =>
    return settled (.function ⟨← fresh, name, params, body, ← environment⟩ :: a.stack)
  | .return =>
    let (value, _) ← pop a.stack
    return .leave (.return value)
  | .defineRecord name fields derives =>
    let typeName ← qualified name
    let catalog ← read fun s => s.heap.recordCatalog s.environment
    let choices ← read fun s => s.heap.choiceCatalog s.environment
    let value := .recordType ⟨← fresh, typeName, fields, derives,
      catalogInsert catalog typeName fields, choices⟩
    insertBinding name value false
    return settled (value :: a.stack)
  | .defineEnum name variants payloadVariants =>
    let value := .enumType ⟨← fresh, ← qualified name, variants, payloadVariants⟩
    insertBinding name value false
    return settled (value :: a.stack)
  | .defineProtocol name members =>
    let value := .protocolType ⟨← fresh, ← qualified name, members⟩
    insertBinding name value false
    return settled (value :: a.stack)
  | .adoptProtocol protocol typeName mappings =>
    let protocolName ← match ← lookup protocol with
      | some (.protocolType found) => pure found.name
      | _ => qualified protocol
    let base := baseName typeName
    adoptAll protocolName base (← qualified base) span mappings
    return settled ((if mappings.isEmpty then .null else .bool true) :: a.stack)
  | .prepare _ | .perform => return settled a.stack
  | .promise clauses =>
    pushPromises clauses
    return settled a.stack
  | .matchArms arms =>
    let (subject, rest) ← pop a.stack
    return .enter (suspend rest, .choose subject arms span)
  | .defineModule name body exports =>
    let (previous, moduleScope) ← enterModule name
    return .enter (← enterNested body (.module name exports span previous moduleScope ::
      suspend a.stack))
  | .definePattern pattern =>
    let (value, _) ← pop a.stack
    match patternBindings host.lib (← finder) pattern value with
    | none => raise "this value did not match the binding pattern" span
    | some bindings =>
      declareAll span bindings
      return settled a.stack
  | .iterate name pattern body =>
    let (iterable, rest) ← pop a.stack
    return .enter (suspend rest, ← startIteration host ⟨name, pattern, body, span⟩ iterable)
  | .repeat condition body =>
    return .enter (suspend a.stack, .repeat condition body .null span)
  | .loopExit skip => return .leave (if skip then .skip else .stop)
  | .ifCarries patterns thenBranch elseBranch =>
    let (subject, rest) ← pop a.stack
    let matched ← match subject with
      | .null => pure none
      | subject => do pure (firstMatch host.lib (← finder) patterns subject)
    match matched, elseBranch with
    | some bindings, _ =>
      let previous ← enterBlock bindings
      return .enter (← enterNested thenBranch (.carriesThen previous :: suspend rest))
    | none, some branch => return .enter (← enterNested branch (.carriesElse :: suspend rest))
    | none, none => return settled (.null :: rest)
  | .sample title body shows =>
    if ← read Interp.runSamples then
      let previous ← enterBlock []
      return .enter (← enterNested body (.sample title shows span previous :: suspend a.stack))
    else return settled (.null :: a.stack)
  | .using name body =>
    let (resource, rest) ← pop a.stack
    ensureClosable resource span
    let previous ← enterBlock [(name, resource)]
    return .enter (← enterNested body (.using resource span previous :: suspend rest))

/-- Moves an activation on. The native executor refuses a target beyond the end. -/
def goTo (a : Activation) (next : Nat) (frames : List (Frame ν)) : VM Chunk σ (Next σ ν) := do
  if (← nativeMode) && a.chunk.code.length < next then
    leaveChunk a frames (.error (errorAt
      s!"native trace jumped beyond bytecode to instruction {next}"
      (spanAt a.chunk.code a.instruction)))
  else return (frames, .execute { a with instruction := next })

def debuggerTerminated : String := "debugger terminated program execution"

/-- The checks before every instruction; `terminate` is what the debug hook answers. -/
def preamble (terminate : Bool) (span : Span) : VM Chunk σ Unit := do
  if ← isCancelled then throw (.error (NivError.new "task cancelled" 1 1))
  charge span
  if (← read Interp.debugged) && terminate then raise debuggerTerminated span

/-- Runs one instruction of the activation. -/
def executeStep (host : Host Chunk σ ν) (terminate : Bool) (a : Activation)
    (frames : List (Frame ν)) : VM Chunk σ (Next σ ν) := do
  match a.current with
  | none => finishChunk a frames
  | some ⟨op, span⟩ =>
    match ← attempt (preamble terminate span *> executeOp host a op span frames) with
    | .error e => leaveChunk a frames (.error e)
    | .ok (.onward stack) => goTo { a with stack := stack } (a.instruction + 1) frames
    | .ok (.next stack next memory) =>
      return (frames, .collect { a with stack := stack } next memory)
    | .ok (.leave flow) => leaveChunk a frames (.ok flow)
    | .ok (.enter next) => return next

/-- The memory charge that ends an instruction. -/
def settleStep (host : Host Chunk σ ν) (a : Activation) (next : Nat) (memory : Bool)
    (frames : List (Frame ν)) : VM Chunk σ (Next σ ν) := do
  let span := spanAt a.chunk.code a.instruction
  match memory, a.stack with
  | true, value :: _ =>
    match ← attempt (chargeMemory host value span) with
    | .error e => leaveChunk a frames (.error e)
    | .ok () => goTo a next frames
  | _, _ => goTo a next frames

/-- `call_function` up to the point where the body, or its native code, runs. -/
def callFunction (f : Function Chunk) (arguments : List (Value Chunk)) (span : Span)
    (frames : List (Frame ν)) : VM Chunk σ (Next σ ν) := do
  lift (checkArity f.name f.params.length arguments.length span)
  beginCall span
  match ← tryJit f arguments with
  | some (code, numbers) => return (frames, .compiled f.name span (code.enter numbers))
  | none =>
    let (previous, fast) ← enterFunction f arguments
    enterChunk f.body (.function f.name span previous fast :: frames)

def passGate (host : Host Chunk σ ν) (f : NativeFunction) (arguments : List (Value Chunk))
    (span : Span) : VM Chunk σ (Admission Chunk) :=
  match f.capability with
  | some capability => gate host capability f.name arguments span
  | none => return .admitted arguments

/-- Starts a native that was let through; `spawn` is the interpreter's own. -/
def startNative (host : Host Chunk σ ν) (f : NativeFunction) (arguments : List (Value Chunk))
    (span : Span) (frames : List (Frame ν)) : Admission Chunk → VM Chunk σ (Next σ ν)
  | .replayed value => return (frames, .flow (.ok (.continue value)))
  | .admitted admitted => do
    if f.name = "spawn" then
      let result ← attempt (taskSpawn admitted span)
      return (frames, .native (.call f arguments span) (.done result (← read Interp.world)))
    else
      return (frames, .native (.call f arguments span)
        (host.start f admitted span (← read Interp.world)))

/-- `call`. -/
def call (host : Host Chunk σ ν) (callee : Value Chunk) (arguments : List (Value Chunk))
    (span : Span) (frames : List (Frame ν)) : VM Chunk σ (Next σ ν) := do
  match callee with
  | .native f =>
    lift (checkArity f.name f.arity arguments.length span)
    startNative host f arguments span frames (← passGate host f arguments span)
  | .function f => callFunction f arguments span frames
  | .recordType record =>
    lift (checkArity record.name record.fields.length arguments.length span)
    return (frames, .flow (.ok (.continue
      (.record record.name ((record.fields.map Prod.fst).zip arguments)))))
  | .enumConstructor constructor =>
    lift (checkArity (constructor.typeName ++ "." ++ constructor.variant) 1 arguments.length span)
    return (frames, .flow (.ok (.continue
      (.enum constructor.typeName constructor.variant arguments.head?))))
  | .protocolMethod method =>
    match arguments with
    | [] => raise (method.protocol ++ "." ++ method.member ++ " requires a receiver") span
    | receiver :: _ =>
      match ← dispatch method.protocol method.member receiver.typeName with
      | none =>
        raise ("no coherent implementation of " ++ method.protocol ++ "." ++ method.member ++
          " for " ++ receiver.typeName) span
      | some implementation => return (frames, .call implementation arguments span)
  | .derivedMethod method =>
    let value ← liftError (host.derived method arguments span)
    return (frames, .flow (.ok (.continue (wrapProblem (some "derive") value))))
  | other => raise (other.typeName ++ " is not callable") span

/-- A native has finished or asks for a callback. -/
def nativeStep (host : Host Chunk σ ν) (purpose : Purpose) (step : NativeStep Chunk σ ν)
    (frames : List (Frame ν)) : VM Chunk σ (Next σ ν) := do
  match step with
  | .call callee arguments state world =>
    setWorld world
    return (.native purpose state :: frames, .call callee arguments (purposeSpan purpose))
  | .done result world =>
    setWorld world
    match purpose with
    | .call f arguments span =>
      let value ← recordEffect host f arguments (result.map (wrapProblem f.problemKind)) span
      return (frames, .flow (.ok (.continue value)))
    | .drain loop =>
      return (frames, .iterate loop (drained (← liftError result)) .null)
where
  purposeSpan : Purpose → Span
    | .call _ _ span => span
    | .drain loop => loop.span
  -- a drained iterator comes back as an array of its items
  drained : Value Chunk → List (Value Chunk)
    | .array values => values
    | other => [other]

/-- One operation of a hot function's native code. -/
def compiledStep (name : String) (span : Span) (state : IntState) (frames : List (Frame ν)) :
    VM Chunk σ (Next σ ν) := do
  match state with
  | .running frame callers =>
    return (frames, .compiled name span (intStep [] 0 frame callers))
  | .returned value _ =>
    endCall
    return (frames, .flow (.ok (.continue (.int value))))
  | .fault error =>
    let result ← attempt (jitError error span)
    endCall
    match result with
    | .ok value => return (frames, .flow (.ok (.continue value)))
    | .error e => return (frames, .flow (.error (e.withFrame name span.line span.column)))

/-- `execute_bytecode_match`: the next arm that matches. -/
def chooseStep (host : Host Chunk σ ν) (subject : Value Chunk) (arms : List BytecodeArm)
    (span : Span) (frames : List (Frame ν)) : VM Chunk σ (Next σ ν) := do
  match arms with
  | [] => raise "no choose arm matched this value; add an 'otherwise' arm" span
  | arm :: rest =>
    match firstMatch host.lib (← finder) arm.patterns subject with
    | none => return (frames, .choose subject rest span)
    | some bindings =>
      let previous ← enterBlock bindings
      match arm.guard with
      | some guard => enterNested guard (.guard subject arm rest span previous :: frames)
      | none => enterNested arm.body (.arm previous :: frames)

/-- The next round of `execute_bytecode_iteration`. An element that does not match its pattern
leaves the saved scope on the root list. -/
def iterateStep (host : Host Chunk σ ν) (loop : Loop) (values : List (Value Chunk))
    (last : Value Chunk) (frames : List (Frame ν)) : VM Chunk σ (Next σ ν) := do
  match values with
  | [] => return (frames, .flow (.ok (.continue last)))
  | value :: rest =>
    let previous ← environment
    pushRoot previous
    let e ← childScope previous
    let bindings ← match loop.pattern with
      | none => pure [(loop.name, value)]
      | some pattern =>
        match patternBindings host.lib (← finder) pattern value with
        | some bindings => pure bindings
        | none => raise "this element did not match the iteration pattern" loop.span
    bindAll e bindings
    setEnvironment e
    enterNested loop.body (.iteration loop rest last previous :: frames)

/-- What `advance` returned: the end, or one more item and the next state. -/
def advanceResult (implementation : Value Chunk) (items : List (Value Chunk)) (loop : Loop)
    (step : Value Chunk) (frames : List (Frame ν)) : VM Chunk σ (Next σ ν) := do
  match step with
  | .null => return (frames, .iterate loop items .null)
  | .record _ fields =>
    match fields.reverse.lookup "item", fields.reverse.lookup "next" with
    | some item, some next =>
      if 1000000 < items.length + 1 then
        raise "Iterate materialization refuses more than 1000000 values" loop.span
      else return (frames, .advance implementation next (items ++ [item]) loop)
    | _, _ => raise "an Iterate step holds 'item' and 'next' fields" loop.span
  | other =>
    raise ("Iterate.advance gives none or a step shape, found " ++ other.typeName) loop.span

/-- An activation goes on with the result of a nested execution. -/
def resume (a : Activation) (result : Except NivError (VmFlow Chunk)) (frames : List (Frame ν)) :
    VM Chunk σ (Next σ ν) := do
  match a.current with
  | none => throw .panic
  | some ⟨op, span⟩ =>
    match result with
    | .error e => leaveChunk a frames (.error e)
    | .ok (.continue value) =>
      return (frames, .collect { a with stack := value :: a.stack } (a.instruction + 1)
        (chargesMemory op))
    | .ok (.return value) => leaveChunk a frames (.ok (.return value))
    | .ok flow =>
      match op with
      | .ifCarries .. => leaveChunk a frames (.ok flow)
      | _ => leaveChunk a frames (.error (loopExitEscapeError span))

/-- A closure called from an activation has returned: its operands go, its value stays. -/
def resumeCall (a : Activation) (count : Nat) (result : Except NivError (VmFlow Chunk))
    (frames : List (Frame ν)) : VM Chunk σ (Next σ ν) := do
  match result with
  | .error e => leaveChunk a frames (.error e)
  | .ok (.continue value) | .ok (.return value) =>
    goTo { a with stack := value :: a.stack.drop count } (a.instruction + 1) frames
  | .ok _ =>
    leaveChunk a frames (.error (loopExitEscapeError (spanAt a.chunk.code a.instruction)))

/-- The value of a body that must not be left by a loop exit. -/
def bodyValue (result : Except NivError (VmFlow Chunk)) (span : Span) :
    Except NivError (Value Chunk) :=
  match result with
  | .error e => .error e
  | .ok (.continue value) | .ok (.return value) => .ok value
  | .ok _ => .error (loopExitEscapeError span)

def reportValue (result : Except NivError (Value Chunk)) : Control σ ν :=
  .flow (result.map .continue)

/-- The exports of a finished module body. -/
def exportValues (name : String) (moduleScope : Env) (span : Span) :
    List String → VM Chunk σ (List (String × Value Chunk))
  | [] => return []
  | exported :: rest => do
    match ← read fun s => (s.heap.get moduleScope).values.lookup exported with
    | none =>
      raise ("module '" ++ name ++ "' does not declare expose '" ++ exported ++ "'") span
    | some binding => return (exported, binding.value) :: (← exportValues name moduleScope span rest)

def finishModule (name : String) (exports : List String) (span : Span) (moduleScope : Env)
    (result : Except NivError (VmFlow Chunk)) : VM Chunk σ (Value Chunk) := do
  match ← liftError result with
  | .return _ => raise "give may only appear inside a function" span
  | _ =>
    let members ← exportValues name moduleScope span exports
    let value := .module (← fresh) members.reverse
    insertBinding name value false
    return value

/-- A sample's body has ended; its display must be the text it promises. -/
def finishSample (host : Host Chunk σ ν) (title : String) (shows : Option String) (span : Span)
    (result : Except NivError (VmFlow Chunk)) : VM Chunk σ Unit := do
  match ← liftError result with
  | .continue value =>
    match shows with
    | none => pure ()
    | some expected =>
      let actual := value.display host.lib
      if actual ≠ expected then
        raise ("sample '" ++ title ++ "' shows " ++ host.lib.debugText expected ++ ", produced " ++
          host.lib.debugText actual) span
  | .return _ => raise ("sample '" ++ title ++ "' ends with an expression, not 'give'") span
  | _ => throw (.error (loopExitEscapeError span))

/-- Closes the resource of a `using` block; an error of the block wins over one of the close. -/
def finishUsing (host : Host Chunk σ ν) (resource : Value Chunk) (span : Span)
    (result : Except NivError (VmFlow Chunk)) : VM Chunk σ (VmFlow Chunk) := do
  let closed ← match resource with
    | .handle kind id => do
      let (closed, world) := host.close kind id span (← read Interp.world)
      setWorld world
      pure closed
    | _ => pure (.ok ())
  let flow ← liftError result
  liftError closed
  return flow

/-- Hands a result to the frame that waits for it. -/
def returnTo (host : Host Chunk σ ν) (frame : Frame ν) (result : Except NivError (VmFlow Chunk))
    (frames : List (Frame ν)) : VM Chunk σ (Next σ ν) := do
  match frame with
  | .activation a => resume a result frames
  | .operands a count => resumeCall a count result frames
  | .function name span previous fast =>
    leaveFunction previous fast
    endCall
    match bodyValue result span with
    | .ok value => return (frames, .flow (.ok (.continue value)))
    | .error e => return (frames, .flow (.error (e.withFrame name span.line span.column)))
  | .native purpose state =>
    let reply := bodyValue result ⟨1, 1⟩
    return (frames, .native purpose (host.resume state reply (← read Interp.world)))
  | .guard subject arm rest span previous =>
    popFast
    match result with
    | .ok (.continue decision) =>
      match ← attempt (lift (expectBool decision span)) with
      | .ok true => enterNested arm.body (.arm previous :: frames)
      | .ok false =>
        leaveBlock previous
        return (frames, .choose subject rest span)
      | .error e =>
        leaveBlock previous
        return (frames, .flow (.error e))
    | .ok (.return value) =>
      leaveBlock previous
      return (frames, .flow (.ok (.return value)))
    | .ok _ =>
      leaveBlock previous
      return (frames, .flow (.error (loopExitEscapeError span)))
    | .error e =>
      leaveBlock previous
      return (frames, .flow (.error e))
  | .arm previous | .carriesThen previous =>
    popFast
    leaveBlock previous
    return (frames, .flow result)
  | .carriesElse =>
    popFast
    return (frames, .flow result)
  | .module name exports span previous moduleScope =>
    popFast
    leaveModule previous
    return (frames, reportValue (← attempt (finishModule name exports span moduleScope result)))
  | .advance implementation items loop =>
    match ← attempt (do
      advanceResult implementation items loop (← liftError (bodyValue result loop.span)) frames)
    with
    | .ok next => return next
    | .error e => return (frames, .flow (.error e))
  | .iteration loop rest last previous =>
    popFast
    leaveBlock previous
    match result with
    | .ok (.continue value) => return (frames, .iterate loop rest value)
    | .ok (.return value) => return (frames, .flow (.ok (.return value)))
    | .ok .stop => return (frames, .flow (.ok (.continue last)))
    | .ok .skip => return (frames, .iterate loop rest last)
    | .error e => return (frames, .flow (.error e))
  | .repeatCondition condition body last span =>
    popFast
    match result with
    | .ok (.continue decision) =>
      match ← attempt (lift (expectBool decision span)) with
      | .ok true => enterNested body (.repeatBody condition body last span :: frames)
      | .ok false => return (frames, .flow (.ok (.continue last)))
      | .error e => return (frames, .flow (.error e))
    | .ok (.return value) => return (frames, .flow (.ok (.return value)))
    | .ok _ => return (frames, .flow (.error (loopExitEscapeError span)))
    | .error e => return (frames, .flow (.error e))
  | .repeatBody condition body last span =>
    popFast
    match result with
    | .ok (.continue value) => return (frames, .repeat condition body value span)
    | .ok (.return value) => return (frames, .flow (.ok (.return value)))
    | .ok .stop => return (frames, .flow (.ok (.continue last)))
    | .ok .skip => return (frames, .repeat condition body last span)
    | .error e => return (frames, .flow (.error e))
  | .sample title shows span previous =>
    popFast
    leaveBlock previous
    let outcome ← attempt (finishSample host title shows span result)
    return (frames, .flow (outcome.map fun _ => .continue .null))
  | .using resource span previous =>
    popFast
    leaveBlock previous
    return (frames, .flow (← attempt (finishUsing host resource span result)))

/-- What outside decides about one step: whether the collector runs and what the concurrent marker
reports, and what a debugger answers. -/
structure Input where
  trigger : Option MarkerReport
  terminate : Bool

def reporting (frames : List (Frame ν)) (program : VM Chunk σ (Next σ ν)) :
    VM Chunk σ (Next σ ν) := do
  match ← attempt program with
  | .ok next => return next
  | .error e => return (frames, .flow (.error e))

/-- One step of the machine. -/
def step (host : Host Chunk σ ν) (input : Input) (frames : List (Frame ν))
    (control : Control σ ν) : VM Chunk σ (Next σ ν) := do
  match control with
  | .execute a => executeStep host input.terminate a frames
  | .collect a next memory =>
    maybeCollect host input.trigger a.stack
    return (frames, .settle a next memory)
  | .settle a next memory => settleStep host a next memory frames
  | .call callee arguments span => reporting frames (call host callee arguments span frames)
  | .native purpose step => reporting frames (nativeStep host purpose step frames)
  | .compiled name span state => compiledStep name span state frames
  | .choose subject arms span => reporting frames (chooseStep host subject arms span frames)
  | .iterate loop values last => reporting frames (iterateStep host loop values last frames)
  | .advance implementation state items loop =>
    return (.advance implementation items loop :: frames, .call implementation [state] loop.span)
  | .repeat condition body last span =>
    enterNested condition (.repeatCondition condition body last span :: frames)
  | .flow result =>
    match frames with
    | [] => return ([], .flow result)
    | frame :: rest => returnTo host frame result rest
  | .panic => return (frames, .panic)

end VM

/-- The machine's state: the interpreter, the suspended frames and what to do next. -/
structure Machine (σ ν : Type) where
  interp : Interp Chunk σ
  frames : List (Frame ν)
  control : Control σ ν

/-- One step; a Rust panic ends the machine in `Control.panic`. -/
def Machine.step (host : Host Chunk σ ν) (input : VM.Input) (m : Machine σ ν) : Machine σ ν :=
  match (VM.step host input m.frames m.control).run m.interp with
  | (.ok (frames, control), interp) => ⟨interp, frames, control⟩
  | (.error _, interp) => ⟨interp, m.frames, .panic⟩

end Nivren
