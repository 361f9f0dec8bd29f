import Nivren.Machine

/-! Fresh interpreters and runs of the machine. -/

namespace Nivren

variable {β σ ν : Type}

/-- `Interpreter::new`, as interpreter number `k` of a heap that already holds its globals. -/
def Interp.new (k : Nat) (heap : Heap β) (world : σ) : Interp β σ where
  heap := heap
  world := world
  nextId := 0
  globals := .globals k
  environment := .globals k
  namespaces := []
  environments := [.globals k]
  roots := []
  gcStress := false
  gcTicks := 0
  collector := ⟨0, [], false⟩
  cancellable := false
  cancelled := false
  metered := false
  debugged := false
  output := []
  jitThreshold := 64
  jit := []
  capabilities := none
  capabilityScopes := []
  instructionBudget := none
  memoryBudget := none
  callDepth := 0
  maxCallDepth := 256
  protocolDispatch := []
  fastFrames := []
  runSamples := false
  effectRecorder := none
  effectReplay := none
  activePromises := []
  payloadLimit := maxTextLiteralBytes
  nativeExecutionDepth := 0
  liveTasks := 0
  spawned := []
  effects := []

def Host.interpreter (host : Host β σ ν) (world : σ) : Interp β σ :=
  Interp.new 0 ⟨[⟨host.prelude, none⟩], []⟩ world

/-- What happens next: the machine takes a step, or somebody cancels it. -/
inductive Event
  | step (input : VM.Input)
  | cancel

def Machine.apply (host : Host Chunk σ ν) (event : Event) (m : Machine σ ν) : Machine σ ν :=
  match event with
  | .step input => m.step host input
  | .cancel => { m with interp := { m.interp with cancelled := true } }

def Machine.run (host : Host Chunk σ ν) (events : List Event) (m : Machine σ ν) : Machine σ ν :=
  events.foldl (fun m event => m.apply host event) m

def Machine.Reaches (host : Host Chunk σ ν) (m m' : Machine σ ν) : Prop :=
  ∃ events, m.run host events = m'

def Machine.result (m : Machine σ ν) : Option (Except NivError (VmFlow Chunk)) :=
  match m.frames, m.control with
  | [], .flow result => some result
  | _, _ => none

theorem Machine.Reaches.invariant {host : Host Chunk σ ν} {P : Machine σ ν → Prop}
    (hst : ∀ m event, P m → P (m.apply host event)) {m m' : Machine σ ν}
    (h : m.Reaches host m') (hm : P m) : P m' := by
  obtain ⟨events, rfl⟩ := h
  induction events generalizing m with
  | nil => exact hm
  | cons event events ih => exact ih (hst m event hm)

def Machine.During (host : Host Chunk σ ν) (P : Machine σ ν → Prop) :
    List Event → Machine σ ν → Prop
  | [], _ => True
  | event :: events, m => P m ∧ Machine.During host P events (m.apply host event)

theorem Machine.During.mono {host : Host Chunk σ ν} {P Q : Machine σ ν → Prop}
    (h : ∀ m, P m → Q m) {events : List Event} {m : Machine σ ν} (hd : m.During host P events) :
    m.During host Q events := by
  induction events generalizing m with
  | nil => trivial
  | cons event events ih => exact ⟨h m hd.1, ih hd.2⟩

theorem Machine.During.invariant {host : Host Chunk σ ν} {P I : Machine σ ν → Prop}
    (hst : ∀ m event, I m → P m → I (m.apply host event)) {events : List Event}
    {m : Machine σ ν} (hd : m.During host P events) (hm : I m) : I (m.run host events) := by
  induction events generalizing m with
  | nil => exact hm
  | cons event events ih => exact ih hd.2 (hst m event hm hd.1)

instance Machine.decidableDuring (host : Host Chunk σ ν) (P : Machine σ ν → Prop) [DecidablePred P] :
    (events : List Event) → (m : Machine σ ν) → Decidable (m.During host P events)
  | [], _ => .isTrue trivial
  | event :: events, m =>
    have := decidableDuring host P events (m.apply host event)
    inferInstanceAs (Decidable (P m ∧ Machine.During host P events (m.apply host event)))

end Nivren
