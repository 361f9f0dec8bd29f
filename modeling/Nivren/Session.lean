import Nivren.Entry
import Nivren.RootPlan

/-! The entry points `run_bytecode` and `run_native`.

Both verify the chunk, then try to run it as native integer code; a fault there is forgotten and the
chunk is interpreted from its start. A `Session` is such a run between its start and its result.
-/

namespace Nivren

variable {σ ν : Type}

namespace VM

def declares : VM Chunk σ (String → Bool) :=
  read fun s name => ((s.heap.get s.environment).values.lookup name).isSome

/-- `try_root_native` up to the native call. -/
def tryRootNative (chunk : Chunk) : VM Chunk σ (Option RootCode) := do
  let threshold ← read Interp.jitThreshold
  let watched ← read fun s => s.debugged || s.metered
  let declared ← declares
  let limit ← read Interp.maxCallDepth
  return (rootCode limit chunk).filter fun code =>
    threshold ≠ 2 ^ 32 - 1 && !watched && code.persistent.all fun slot => !declared slot.1

/-- The shape types a native run leaves behind. -/
def materializeShapes (chunk : Chunk) : List Nat → VM Chunk σ Unit
  | [] => pure ()
  | site :: rest => do
    match chunk.code[site]? with
    | some ⟨.defineRecord name fields derives, _⟩ =>
      let catalog ← read fun s => s.heap.recordCatalog s.environment
      let choices ← read fun s => s.heap.choiceCatalog s.environment
      insertBinding name (.recordType ⟨← fresh, name, fields, derives,
        catalogInsert catalog name fields, choices⟩) false
    | _ => pure ()
    materializeShapes chunk rest

/-- The functions a native run leaves behind. -/
def materializeFunctions (chunk : Chunk) : List Nat → VM Chunk σ Unit
  | [] => pure ()
  | site :: rest => do
    match chunk.code[site]? with
    | some ⟨.makeFunction name params body, _⟩ =>
      insertBinding name (.function ⟨← fresh, name, params, body, ← environment⟩) false
    | _ => pure ()
    materializeFunctions chunk rest

/-- The top-level numbers a native run leaves behind. -/
def materializeSlots (slots : List Int) : List PersistentSlot → VM Chunk σ Unit
  | [] => pure ()
  | (name, slot, mutable) :: rest => do
    match slots[slot]? with
    | none => throw .panic
    | some value => insertBinding name (.int value) mutable
    materializeSlots slots rest

/-- `try_root_native` after the native call has returned. -/
def finishRootNative (host : Host Chunk σ ν) (chunk : Chunk) (code : RootCode) (value : Int)
    (slots : List Int) : VM Chunk σ (Value Chunk) := do
  materializeShapes chunk code.shapeSites
  materializeFunctions chunk code.functionSites
  materializeSlots slots code.persistent
  if code.printsResult then
    printLine ((Value.int value : Value Chunk).display host.lib)
    return .null
  else return .int value

/-- `push_root_frame`: top-level names live in slots when none of them is declared yet. -/
def pushRootFrame (chunk : Chunk) : VM Chunk σ (Option FastRootSlots) := do
  let watched ← read fun s => s.debugged || s.metered
  let declared ← declares
  match (fastRootSlots chunk).filter fun plan =>
      !watched && plan.persistent.all fun name => !declared name with
  | none => return none
  | some slots =>
    pushFast (FastFrame.enter slots.plan [])
    return some slots

/-- The bindings a finished root frame leaves behind. -/
def persistentBindings (slots : FastRootSlots) (frame : FastFrame Chunk) :
    List (String × Binding Chunk) :=
  slots.persistent.filterMap fun name => do
    let slot ← slots.plan.slotsByName.lookup name
    let binding ← frame.slots[slot]?
    if binding.defined then some (name, ⟨binding.value, binding.mutable⟩) else none

/-- `pop_root_frame`. -/
def popRootFrame (slots : FastRootSlots) : VM Chunk σ Unit := do
  match ← topFrame with
  | none => throw .panic
  | some frame =>
    popFast
    let e ← environment
    write fun s => { s with heap := s.heap.insertAll e (persistentBindings slots frame) }

/-- Everything from the root frame to the first instruction of a top-level chunk. -/
def beginRun (chunk : Chunk) : VM Chunk σ (Option FastRootSlots × Next σ ν) := do
  let slots ← pushRootFrame chunk
  return (slots, ← enterChunk chunk [])

/-- Only `run_native` raises the depth, and lowers it again. -/
def setNativeDepth (native : Bool) (depth : Nat) : VM Chunk σ Unit :=
  if native then write fun s => { s with nativeExecutionDepth := depth } else pure ()

def leaveRoot : Option FastRootSlots → VM Chunk σ Unit
  | some slots => popRootFrame slots
  | none => pure ()

def topLevelValue : VmFlow Chunk → VM Chunk σ (Value Chunk)
  | .continue value => pure value
  | .return _ => throw (.error (NivError.new "give may only appear inside a function" 1 1))
  | _ => throw (.error (loopExitEscapeError ⟨1, 1⟩))

/-- Everything after the result of a top-level chunk is known. An error skips the collection. -/
def finishRun (host : Host Chunk σ ν) (native : Bool) (slots : Option FastRootSlots)
    (report : MarkerReport) (result : Except NivError (VmFlow Chunk)) :
    VM Chunk σ (Value Chunk) := do
  leaveRoot slots
  setNativeDepth native 0
  let flow ← liftError result
  collect host report []
  topLevelValue flow

end VM

/-- A run of `run_bytecode` or `run_native`. -/
inductive Session (σ ν : Type)
  | planned (code : RootCode) (state : IntState) (s : Interp Chunk σ)
  | executing (slots : Option FastRootSlots) (m : Machine σ ν)
  | finished (result : Except NivError (Value Chunk)) (s : Interp Chunk σ)
  | panicked

namespace Session

def outcome : Except Failure (Value Chunk) × Interp Chunk σ → Session σ ν
  | (.ok value, s) => .finished (.ok value) s
  | (.error (.error e), s) => .finished (.error e) s
  | (.error .panic, _) => .panicked

def conclude (program : VM Chunk σ (Value Chunk)) (s : Interp Chunk σ) : Session σ ν :=
  outcome (Program.exec program s)

theorem conclude_bind {α : Type} (program : VM Chunk σ α) (rest : α → VM Chunk σ (Value Chunk))
    (s : Interp Chunk σ) : (conclude (program >>= rest) s : Session σ ν) =
      match Program.exec program s with
      | (.ok a, s) => conclude (rest a) s
      | (.error failure, s) => outcome (.error failure, s) := by
  unfold conclude
  rw [Program.exec_bind]
  rcases Program.exec program s with ⟨failure | a, s'⟩ <;> rfl

def interpret (chunk : Chunk) (s : Interp Chunk σ) : Session σ ν :=
  match (VM.beginRun chunk : VM Chunk σ (Option FastRootSlots × Next σ ν)).run s with
  | (.ok (slots, frames, control), s) => .executing slots ⟨s, frames, control⟩
  | (.error _, _) => .panicked

def begin (chunk : Chunk) (s : Interp Chunk σ) : Session σ ν :=
  match (VM.tryRootNative chunk).run s with
  | (.ok (some code), s) => .planned code code.enter s
  | (.ok none, s) => interpret chunk s
  | (.error _, _) => .panicked

def reentered : NivError :=
  NivError.new "native execution cannot be re-entered through the public entry point" 1 1

/-- `run_bytecode` and `run_native` up to the first instruction. -/
def start (native : Bool) (s : Interp Chunk σ) (chunk : Chunk) : Session σ ν :=
  match verify chunk with
  | .error e => .finished (.error e) s
  | .ok () =>
    if native then
      if s.nativeExecutionDepth ≠ 0 then .finished (.error reentered) s
      else begin chunk { s with nativeExecutionDepth := 1 }
    else begin chunk s

/-- One step of native code, one step of the machine, or the end. -/
def step (host : Host Chunk σ ν) (native : Bool) (chunk : Chunk) (input : VM.Input) :
    Session σ ν → Session σ ν
  | .planned code (.running frame callers) s =>
    .planned code (intStep code.functions code.depthLimit frame callers) s
  | .planned code (.returned value slots) s =>
    conclude (do
      let value ← VM.finishRootNative host chunk code value slots
      VM.setNativeDepth native 0
      VM.collect host (input.trigger.getD .empty) []
      return value) s
  -- planned programs are pure: a fault reruns through the interpreter
  | .planned _ (.fault _) s => interpret chunk s
  | .executing slots m =>
    match m.result with
    | some result =>
      conclude (VM.finishRun host native slots (input.trigger.getD .empty) result) m.interp
    | none => .executing slots (m.step host input)
  | session => session

def cancel : Session σ ν → Session σ ν
  | .planned code state s => .planned code state { s with cancelled := true }
  | .executing slots m => .executing slots { m with interp := { m.interp with cancelled := true } }
  | .finished result s => .finished result { s with cancelled := true }
  | .panicked => .panicked

def apply (host : Host Chunk σ ν) (native : Bool) (chunk : Chunk) (event : Event)
    (session : Session σ ν) : Session σ ν :=
  match event with
  | .step input => session.step host native chunk input
  | .cancel => session.cancel

def run (host : Host Chunk σ ν) (native : Bool) (chunk : Chunk) (events : List Event)
    (session : Session σ ν) : Session σ ν :=
  events.foldl (fun session event => session.apply host native chunk event) session

def During (host : Host Chunk σ ν) (native : Bool) (chunk : Chunk) (P : Session σ ν → Prop) :
    List Event → Session σ ν → Prop
  | [], _ => True
  | event :: events, session =>
    P session ∧ During host native chunk P events (session.apply host native chunk event)

instance decidableDuring (host : Host Chunk σ ν) (native : Bool) (chunk : Chunk)
    (P : Session σ ν → Prop) [DecidablePred P] :
    (events : List Event) → (session : Session σ ν) →
      Decidable (session.During host native chunk P events)
  | [], _ => .isTrue trivial
  | event :: events, session =>
    have := decidableDuring host native chunk P events (session.apply host native chunk event)
    inferInstanceAs (Decidable (P session ∧
      During host native chunk P events (session.apply host native chunk event)))

end Session

def Machine.begin (s : Interp Chunk σ) (chunk : Chunk) : Machine σ ν :=
  match (VM.beginRun chunk : VM Chunk σ (Option FastRootSlots × Next σ ν)).run s with
  | (.ok (_, frames, control), s) => ⟨s, frames, control⟩
  | (.error _, s) => ⟨s, [], .panic⟩

end Nivren
