import Nivren.Interp

/-! The primitives of the interpreter: names and scopes, budgets, promises, the capability gate and
the collector. Every step of the machine is a program over these.
-/

namespace Nivren

variable {β σ ν : Type}

/-- The longest text `text "…"` builds unless a limit is declared. -/
def maxTextLiteralBytes : Nat := 16 * 1024 * 1024

def maximumValueDepth : Nat := 1024

def maximumLiveTasks : Nat := 4096

def saturatingAdd (a b : Nat) : Nat := min (a + b) (2 ^ 64 - 1)

section Size

variable (host : Host β σ ν) (world : σ)

def within (depth : Nat) (size : Option Nat) : Option Nat :=
  if maximumValueDepth < depth then none else size

mutual

/-- `estimated_value_bytes_within`: `none` when the value nests too deep. -/
def estimatedValueBytes (depth : Nat) : Value β → Option Nat
  | .int _ | .uint _ | .u128 _ | .float _ | .bool _ | .null => within depth (some 16)
  | .enum _ _ payload => within depth (optionBytes (depth + 1) payload)
  | .dateTime _ => within depth (some 64)
  | .bigInt number => within depth (some (saturatingAdd 24 (toString number).utf8ByteSize))
  | .decimal _ | .fixedInt _ => within depth (some 16)
  | .string text => within depth (some (saturatingAdd 24 text.utf8ByteSize))
  | .bytes data => within depth (some (saturatingAdd 24 data.length))
  | .array values | .set values => within depth (listBytes (depth + 1) 24 values)
  | .map entries => within depth (entriesBytes (depth + 1) 24 entries)
  | .record _ fields => within depth (fieldsBytes (depth + 1) 32 fields)
  | .ok value | .err value | .earlyReturn value =>
    within depth ((estimatedValueBytes (depth + 1) value).map (saturatingAdd 16))
  | .handle kind id => within depth (host.handleBytes world kind id depth)
  | .function _ | .native _ | .recordType _ | .enumType _ | .enumConstructor _
  | .protocolType _ | .protocolMethod _ | .derivedMethod _ | .module _ _ =>
    within depth (some 64)
termination_by structural value => value

def optionBytes (depth : Nat) : Option (Value β) → Option Nat
  | none => some 16
  | some payload => (estimatedValueBytes depth payload).map (saturatingAdd 16)
termination_by structural value => value

def listBytes (depth total : Nat) : List (Value β) → Option Nat
  | [] => some total
  | value :: rest =>
    (estimatedValueBytes depth value).bind fun bytes =>
      listBytes depth (saturatingAdd total bytes) rest
termination_by structural value => value

def entriesBytes (depth total : Nat) : List (Value β × Value β) → Option Nat
  | [] => some total
  | (key, value) :: rest =>
    (estimatedValueBytes depth key).bind fun keyBytes =>
      (estimatedValueBytes depth value).bind fun bytes =>
        entriesBytes depth (saturatingAdd (saturatingAdd total keyBytes) bytes) rest
termination_by structural value => value

def fieldsBytes (depth total : Nat) : List (String × Value β) → Option Nat
  | [] => some total
  | (name, value) :: rest =>
    (estimatedValueBytes depth value).bind fun bytes =>
      fieldsBytes depth (saturatingAdd (saturatingAdd total name.utf8ByteSize) bytes) rest
termination_by structural value => value

end

end Size

namespace VM

@[reducible] def isCancelled : VM β σ Bool := read fun s => s.cancellable && s.cancelled

/-- `charge`: one instruction. -/
def charge (span : Span) : VM β σ Unit := do
  match ← read Interp.instructionBudget with
  | none => pure ()
  | some 0 => raise "instruction limit exceeded" span
  | some (_ + 1) => write fun s => { s with instructionBudget := s.instructionBudget.map (· - 1) }

/-- `charge_memory`: the estimated size of one value. -/
def chargeMemory (host : Host β σ ν) (value : Value β) (span : Span) : VM β σ Unit := do
  match estimatedValueBytes host (← read Interp.world) 0 value with
  | none => raise s!"value nesting exceeds the supported depth of {maximumValueDepth}" span
  | some bytes =>
    match ← read Interp.memoryBudget with
    | none => pure ()
    | some remaining =>
      if remaining < max bytes 1 then raise "memory limit exceeded" span
      else write fun s => { s with memoryBudget := s.memoryBudget.map (· - max bytes 1) }

@[reducible] def fresh : VM β σ Nat := do
  let id ← read Interp.nextId
  write fun s => { s with nextId := s.nextId + 1 }
  return id

@[reducible] def printLine (text : String) : VM β σ Unit :=
  write fun s => { s with output := s.output ++ [text] }

@[reducible] def setWorld (world : σ) : VM β σ Unit := write fun s => { s with world := world }

@[reducible] def topFrame : VM β σ (Option (FastFrame β)) := read fun s => s.fastFrames.head?

@[reducible] def setTopFrame (frame : FastFrame β) : VM β σ Unit :=
  write fun s => { s with fastFrames := frame :: s.fastFrames.tail }

@[reducible] def pushFast (frame : FastFrame β) : VM β σ Unit :=
  write fun s => { s with fastFrames := frame :: s.fastFrames }

@[reducible] def popFast : VM β σ Unit := write fun s => { s with fastFrames := s.fastFrames.tail }

/-- The slot an instruction uses in the topmost frame, with its present binding. -/
def fastSlot (instruction : Nat) : VM β σ (Option (FastFrame β × Nat × FastBinding β)) := do
  match ← topFrame with
  | none => return none
  | some frame =>
    match frame.slotOf instruction with
    | none => return none
    | some slot =>
      match frame.slots[slot]? with
      | none => throw .panic
      | some binding => return some (frame, slot, binding)

/-- `load_fast`. -/
def loadFast (instruction : Nat) : VM β σ (Option (Value β)) := do
  match ← fastSlot instruction with
  | none => return none
  | some (_, _, binding) => return if binding.defined then some binding.value else none

/-- `define_fast`: true when the name lives in a slot. -/
def defineFast (instruction : Nat) (value : Value β) (mutable : Bool) : VM β σ Bool := do
  match ← fastSlot instruction with
  | none => return false
  | some (frame, slot, _) =>
    setTopFrame (frame.setSlot slot ⟨value, mutable, true⟩)
    return true

/-- `assign_fast`: true when the name lives in a slot. -/
def assignFast (instruction : Nat) (name : String) (value : Value β) (span : Span) :
    VM β σ Bool := do
  match ← fastSlot instruction with
  | none => return false
  | some (frame, slot, binding) =>
    if !binding.defined then return false
    else if !binding.mutable then raise ("cannot assign to immutable '" ++ name ++ "'") span
    else
      setTopFrame (frame.setSlot slot { binding with value := value })
      return true

@[reducible] def finder : VM β σ (String → Option (Value β)) :=
  read fun s => s.heap.lookup s.environment

@[reducible] def lookup (name : String) : VM β σ (Option (Value β)) := do
  return (← finder) name

def assign (name : String) (value : Value β) (span : Span) : VM β σ Unit := do
  let heap ← lift (← read fun s => s.heap.assign s.environment name value span)
  write fun s => { s with heap := heap }

theorem exec_assign (name : String) (value : Value β) (span : Span) (s : Interp β σ) :
    Program.exec (assign name value span) s =
      match s.heap.assign s.environment name value span with
      | .ok heap => (.ok (), { s with heap := heap })
      | .error failure => (.error failure, s) := by
  unfold assign
  rw [Program.exec_bind, Program.exec_read]
  cases s.heap.assign s.environment name value span <;> rfl

@[reducible] def declared (name : String) : VM β σ Bool :=
  read fun s => ((s.heap.get s.environment).values.lookup name).isSome

@[reducible] def insertBinding (name : String) (value : Value β) (mutable : Bool) : VM β σ Unit :=
  write fun s => { s with heap := s.heap.insert s.environment name ⟨value, mutable⟩ }

/-- `qualified`: a name with the modules around it. -/
@[reducible] def qualified (name : String) : VM β σ String := do
  let namespaces ← read Interp.namespaces
  return if namespaces.isEmpty then name else ".".intercalate namespaces ++ "." ++ name

@[reducible] def environment : VM β σ Env := read Interp.environment

@[reducible] def setEnvironment (e : Env) : VM β σ Unit := write fun s => { s with environment := e }

@[reducible] def pushRoot (e : Env) : VM β σ Unit := write fun s => { s with roots := e :: s.roots }

@[reducible] def popRoot : VM β σ Unit := write fun s => { s with roots := s.roots.tail }

/-- `child_scope`. -/
def childScope (parent : Env) : VM β σ Env := do
  let e ← read fun s => (s.heap.child parent).1
  write fun s => { s with
    heap := (s.heap.child parent).2
    environments := (s.heap.child parent).1 :: s.environments }
  return e

def bindAll (e : Env) (bindings : List (String × Value β)) : VM β σ Unit :=
  write fun s => { s with
    heap := s.heap.insertAll e (bindings.map fun entry => (entry.1, ⟨entry.2, false⟩)) }

/-- Enters a child of the current scope that binds the given names and returns the scope to come
back to. -/
def enterBlock (bindings : List (String × Value β)) : VM β σ Env := do
  let previous ← environment
  pushRoot previous
  let e ← childScope previous
  bindAll e bindings
  setEnvironment e
  return previous

/-- Goes back to the scope `enterBlock` returned. -/
def leaveBlock (previous : Env) : VM β σ Unit := do
  popRoot
  setEnvironment previous

def planActive : VM β σ Bool := do
  return (← topFrame).any fun frame => frame.plan.isSome

def enterScope : VM β σ Unit := do
  if !(← planActive) then
    setEnvironment (← childScope (← environment))

/-- `ExitScope`: unwraps the parent of the current scope. -/
def exitScope : VM β σ Unit := do
  if !(← planActive) then
    match ← read fun s => (s.heap.get s.environment).parent with
    | some parent => setEnvironment parent
    | none => throw .panic

@[reducible] def pushPromises (clauses : List PromiseClause) : VM β σ Unit :=
  write fun s => { s with activePromises := s.activePromises ++ clauses }

def truncatePromises (mark : Nat) : VM β σ Unit :=
  write fun s => { s with activePromises := s.activePromises.take mark }

@[reducible] def note (event : EffectEvent) : VM β σ Unit :=
  write fun s => { s with effects := s.effects ++ [event] }

@[reducible] def deny {α : Type} (capability operation message : String) (span : Span) :
    VM β σ α := do
  note (.denied capability operation)
  raise message span

/-- What the capability gate lets through: a recorded result, or the call with its arguments. -/
inductive Admission (β : Type)
  | replayed (value : Value β)
  | admitted (arguments : List (Value β))

/-- Satisfies an effect from the replay trace. -/
def replayEffect (host : Host β σ ν) (capability operation : String)
    (arguments : List (Value β)) (trace : List EffectRecord) (span : Span) :
    VM β σ (Value β) := do
  match trace with
  | [] =>
    raise ("replay diverged: the trace holds no entry for " ++ capability ++ ":" ++ operation) span
  | entry :: rest =>
    write fun s => { s with effectReplay := some rest }
    let digest := host.effectDigest arguments
    if entry.operation ≠ operation ∨ entry.capability ≠ capability ∨ entry.arguments ≠ digest then
      raise ("replay diverged: the trace expected " ++ entry.capability ++ ":" ++ entry.operation ++
        " with argument digest " ++ entry.arguments ++ ", the program performed " ++ capability ++
        ":" ++ operation ++ " with argument digest " ++ digest) span
    else
      note (.authorized capability operation)
      liftError (host.effectFromJson entry.result span)

/-- Scope authorization, the last check of the gate. -/
def authorizeScope (host : Host β σ ν) (capability operation : String)
    (arguments : List (Value β)) (span : Span) : VM β σ (List (Value β)) := do
  match (← read Interp.capabilityScopes).lookup capability with
  | none => return arguments
  | some scope =>
    let arguments :=
      if capability = "Native" ∧ operation = "open" then host.canonicalize arguments else arguments
    if host.inScope capability operation scope arguments then return arguments
    else
      deny capability operation ("this " ++ capability ++
        " operation is outside the project grant '" ++ scope ++ "'") span

/-- The capability gate: replay first, then promises, grants and scopes. -/
def gate (host : Host β σ ν) (capability operation : String) (arguments : List (Value β))
    (span : Span) : VM β σ (Admission β) := do
  match ← read Interp.effectReplay with
  | some trace => return .replayed (← replayEffect host capability operation arguments trace span)
  | none =>
    match renounces (← read Interp.activePromises) capability with
    | some clause =>
      deny capability operation ("this effect needs " ++ capability ++
        ", but an active 'promise never " ++ clause.capability ++ "' renounces it") span
    | none =>
      if (← read Interp.capabilities).any fun allowed => capability ∉ allowed then
        deny capability operation ("this project does not allow " ++ capability ++ "; add " ++
          capability ++ " = \"allow\" under [capabilities] in niv.toml") span
      else
        let admitted ← authorizeScope host capability operation arguments span
        note (.authorized capability operation)
        return .admitted admitted

/-- Appends the effect's record when a recorder is present. -/
def recordEffect (host : Host β σ ν) (f : NativeFunction) (arguments : List (Value β))
    (result : Except NivError (Value β)) (span : Span) : VM β σ (Value β) := do
  let value ← liftError result
  match f.capability with
  | none => return value
  | some capability =>
    match ← read Interp.effectRecorder with
    | none => return value
    | some records =>
      match host.effectToJson value with
      | .error reason =>
        raise ("niv record cannot capture the " ++ capability ++ ":" ++ f.name ++ " result: " ++
          reason) span
      | .ok json =>
        write fun s => { s with effectRecorder := some (records ++
          [⟨f.name, capability, host.effectDigest arguments, json⟩]) }
        return value

end VM

end Nivren
