import Nivren.Entry

/-! Trees of tasks.

`std.tasks.spawn` starts a thread with an interpreter of its own. The interpreters of a tree share
the heap, the outside world, the budgets and the count of live tasks; everything else of a worker is
new or copied from its spawner at the moment of the spawn. The steps of all threads interleave freely.
-/

namespace Nivren

variable {σ ν : Type}

/-- What all interpreters of a tree share. -/
structure Shared (σ : Type) where
  heap : Heap Chunk
  world : σ
  nextId : Nat
  jit : List (Nat × JitState)
  instructionBudget : Option Nat
  memoryBudget : Option Nat
  liveTasks : Nat

def Interp.shared (s : Interp Chunk σ) : Shared σ :=
  ⟨s.heap, s.world, s.nextId, s.jit, s.instructionBudget, s.memoryBudget, s.liveTasks⟩

/-- The interpreter as it sees what others have done to the shared part. -/
def Interp.attach (s : Interp Chunk σ) (shared : Shared σ) : Interp Chunk σ :=
  { s with
    heap := shared.heap
    world := shared.world
    nextId := shared.nextId
    jit := shared.jit
    instructionBudget := shared.instructionBudget
    memoryBudget := shared.memoryBudget
    liveTasks := shared.liveTasks }

def Shared.withGlobals (host : Host Chunk σ ν) (shared : Shared σ) : Shared σ :=
  { shared with heap := { shared.heap with
      globals := shared.heap.globals ++ [⟨host.prelude, none⟩] } }

/-- The worker of a started task: a new interpreter with what `task_spawn` hands on. -/
def TaskStart.worker (start : TaskStart Chunk) (shared : Shared σ) (globals : Nat) :
    Interp Chunk σ :=
  { (Interp.new globals shared.heap shared.world).attach shared with
    capabilities := start.capabilities
    capabilityScopes := start.capabilityScopes
    activePromises := start.activePromises
    maxCallDepth := start.maxCallDepth
    metered := start.metered
    cancellable := true
    nativeExecutionDepth := if start.native then 1 else 0 }

/-- One thread of a tree. `spawner` is the interpreter that started it, as it was then. -/
structure Task (σ ν : Type) where
  machine : Machine σ ν
  spawner : Interp Chunk σ
  live : Bool

structure TaskTree (σ ν : Type) where
  shared : Shared σ
  tasks : List (Task σ ν)

/-- One thread goes on, or a thread that has ended gives its place free. -/
inductive TaskEvent
  | run (task : Nat) (event : Event)
  | finish (task : Nat)

def Task.current (task : Task σ ν) (shared : Shared σ) : Machine σ ν :=
  { task.machine with interp := task.machine.interp.attach shared }

namespace TaskTree

/-- A started task joins the tree and calls its function. -/
def launch (host : Host Chunk σ ν) (spawner : Interp Chunk σ) (tree : TaskTree σ ν)
    (start : TaskStart Chunk) : TaskTree σ ν :=
  let shared := tree.shared.withGlobals host
  let worker := start.worker shared tree.shared.heap.globals.length
  ⟨shared, tree.tasks ++
    [⟨⟨worker, [], .call (.function start.function) [] start.span⟩, spawner, true⟩]⟩

def started (before after : Interp Chunk σ) : List (TaskStart Chunk) :=
  after.spawned.drop before.spawned.length

def runTask (host : Host Chunk σ ν) (tree : TaskTree σ ν) (index : Nat) (task : Task σ ν)
    (event : Event) : TaskTree σ ν :=
  let before := task.current tree.shared
  let after := before.apply host event
  (started before.interp after.interp).foldl (launch host before.interp)
    ⟨after.interp.shared, tree.tasks.set index { task with machine := after }⟩

def apply (host : Host Chunk σ ν) (event : TaskEvent) (tree : TaskTree σ ν) : TaskTree σ ν :=
  match event with
  | .run index event =>
    match tree.tasks[index]? with
    | some task => tree.runTask host index task event
    | none => tree
  | .finish index =>
    match tree.tasks[index]? with
    | some task =>
      if task.live && task.machine.result.isSome then
        ⟨{ tree.shared with liveTasks := tree.shared.liveTasks - 1 },
          tree.tasks.set index { task with live := false }⟩
      else tree
    | none => tree

def run (host : Host Chunk σ ν) (events : List TaskEvent) (tree : TaskTree σ ν) : TaskTree σ ν :=
  events.foldl (fun tree event => tree.apply host event) tree

def acting (tree : TaskTree σ ν) : TaskEvent → Option (Machine σ ν)
  | .run index _ => (tree.tasks[index]?).map fun task => task.current tree.shared
  | .finish _ => none

def During (host : Host Chunk σ ν) (P : Machine σ ν → Prop) : List TaskEvent → TaskTree σ ν → Prop
  | [], _ => True
  | event :: events, tree =>
    (∀ m ∈ tree.acting event, P m) ∧ During host P events (tree.apply host event)

instance decidableDuring (host : Host Chunk σ ν) (P : Machine σ ν → Prop) [DecidablePred P] :
    (events : List TaskEvent) → (tree : TaskTree σ ν) → Decidable (tree.During host P events)
  | [], _ => .isTrue trivial
  | event :: events, tree =>
    have := decidableDuring host P events (tree.apply host event)
    inferInstanceAs (Decidable ((∀ m ∈ tree.acting event, P m) ∧
      During host P events (tree.apply host event)))

theorem During.invariant {host : Host Chunk σ ν} {P : Machine σ ν → Prop} {I : TaskTree σ ν → Prop}
    (hst : ∀ tree event, I tree → (∀ m ∈ tree.acting event, P m) → I (tree.apply host event))
    {events : List TaskEvent} {tree : TaskTree σ ν} (hd : tree.During host P events)
    (ht : I tree) : I (tree.run host events) := by
  induction events generalizing tree with
  | nil => exact ht
  | cons event events ih => exact ih hd.2 (hst tree event ht hd.1)

def single (m : Machine σ ν) : TaskTree σ ν := ⟨m.interp.shared, [⟨m, m.interp, true⟩]⟩

end TaskTree

end Nivren
