import Nivren.ValueOps
import Nivren.FastSlots
import Nivren.IntOps
import Nivren.Library.Reach

/-! The interpreter's state and the primitives its steps are made of.

Scopes live in a heap and are named by address, so that the collector can clear a scope in place as
the source does. Runtime functions are programs in the state-and-failure monad `VM`: a failure keeps
the state changes made before it, as an early `Err` of a `&mut self` method does.

What lies outside the repository (operating system resources, the libraries behind the standard
functions, the concurrent marker's timing) is a `Host`.
-/

namespace Nivren

open List

structure Binding (β : Type) where
  value : Value β
  mutable : Bool

structure Scope (β : Type) where
  values : List (String × Binding β)
  parent : Option Env

/-- The scopes of all interpreters: one global scope for each, and the scopes made while running. -/
structure Heap (β : Type) where
  globals : List (Scope β)
  scopes : List (Scope β)

variable {β σ ν : Type}

namespace Heap

def get (h : Heap β) : Env → Scope β
  | .globals k => (h.globals[k]?).getD ⟨[], none⟩
  | .scope i => (h.scopes[i]?).getD ⟨[], none⟩

def set (h : Heap β) (e : Env) (scope : Scope β) : Heap β :=
  match e with
  | .globals k => { h with globals := h.globals.set k scope }
  | .scope i => { h with scopes := h.scopes.set i scope }

def insert (h : Heap β) (e : Env) (name : String) (binding : Binding β) : Heap β :=
  h.set e { h.get e with
    values := (name, binding) :: (h.get e).values.filter fun entry => entry.1 ≠ name }

def insertAll (h : Heap β) (e : Env) (bindings : List (String × Binding β)) : Heap β :=
  bindings.foldl (fun h entry => h.insert e entry.1 entry.2) h

/-- `Scope::child`: a new scope below `parent`. -/
def child (h : Heap β) (parent : Env) : Env × Heap β :=
  (.scope h.scopes.length, { h with scopes := h.scopes ++ [⟨[], some parent⟩] })

def size (h : Heap β) : Nat := h.globals.length + h.scopes.length

def lookupFrom (h : Heap β) (name : String) : Nat → Env → Option (Value β)
  | 0, _ => none
  | fuel + 1, e =>
    match (h.get e).values.lookup name with
    | some binding => some binding.value
    | none => (h.get e).parent.bind (lookupFrom h name fuel)

/-- `lookup`: the nearest binding along the parent chain. -/
def lookup (h : Heap β) (e : Env) (name : String) : Option (Value β) :=
  h.lookupFrom name (h.size + 1) e

def assignFrom (h : Heap β) (name : String) (value : Value β) (span : Span) :
    Nat → Env → Result (Heap β)
  | 0, _ => fail ("undefined name '" ++ name ++ "'") span
  | fuel + 1, e =>
    match (h.get e).values.lookup name with
    | some binding =>
      if binding.mutable then .ok (h.insert e name { binding with value := value })
      else fail ("cannot assign to immutable binding '" ++ name ++ "'") span
    | none =>
      match (h.get e).parent with
      | some parent => assignFrom h name value span fuel parent
      | none => fail ("undefined name '" ++ name ++ "'") span

/-- `assign`: replaces the nearest binding when it is mutable. -/
def assign (h : Heap β) (e : Env) (name : String) (value : Value β) (span : Span) :
    Result (Heap β) :=
  h.assignFrom name value span (h.size + 1) e

/-- The scopes from `e` outwards. -/
def chainFrom (h : Heap β) : Nat → Env → List (Scope β)
  | 0, _ => []
  | fuel + 1, e => h.get e :: ((h.get e).parent.map (chainFrom h fuel)).getD []

def chain (h : Heap β) (e : Env) : List (Scope β) := h.chainFrom (h.size + 1) e

def clear (h : Heap β) (e : Env) : Heap β := h.set e ⟨[], none⟩

def Holds (h : Heap β) : Env → Prop
  | .globals k => k < h.globals.length
  | .scope i => i < h.scopes.length

variable {h : Heap β} {e : Env}

instance : Decidable (h.Holds e) := by
  cases e <;> unfold Holds <;> infer_instance

theorem get_of_not_holds (he : ¬ h.Holds e) : h.get e = ⟨[], none⟩ := by
  cases e <;> simp_all [Holds, get]

theorem get_set (h : Heap β) (e e' : Env) (scope : Scope β) :
    (h.set e scope).get e' = if e' = e ∧ h.Holds e then scope else h.get e' := by
  cases e <;> cases e' <;> simp only [set, get, Holds, reduceCtorEq, false_and, if_false,
    Env.globals.injEq, Env.scope.injEq, List.getElem?_set]
  all_goals
    split
    next h =>
      subst h
      split
      · simp_all
      next hlt => rw [if_neg (by simpa using hlt), List.getElem?_eq_none (by omega)]
    · rw [if_neg (by omega)]

variable {scope : Scope β} {e' : Env}

@[simp] theorem scopes_length_set : (h.set e scope).scopes.length = h.scopes.length := by
  cases e <;> simp [set]

variable {binding : Binding β} {name : String}

theorem mem_get_insert
    {entry : String × Binding β} (hm : entry ∈ ((h.insert e name binding).get e').values) :
    entry ∈ (h.get e').values ∨ e' = e ∧ entry = (name, binding) := by
  rw [insert, get_set] at hm
  split at hm
  next he =>
    rcases mem_cons.mp hm with rfl | hm
    · exact .inr ⟨he.1, rfl⟩
    · exact .inl (he.1 ▸ (mem_filter.mp hm).1)
  · exact .inl hm

@[simp] theorem parent_get_insert :
    ((h.insert e name binding).get e').parent = (h.get e').parent := by
  rw [insert, get_set]
  split
  next he => rw [he.1]
  · rfl

@[simp] theorem scopes_length_insert : (h.insert e name binding).scopes.length = h.scopes.length := by
  simp [insert]

theorem get_child (h : Heap β) (parent e : Env) : (h.child parent).2.get e =
      if e = (h.child parent).1 then ⟨[], some parent⟩ else h.get e := by
  cases e with
  | globals k => simp [child, get]
  | scope i =>
    simp only [child, get, Env.scope.injEq, List.getElem?_append]
    split
    · rw [if_neg (by omega)]
    · split
      next hi => simp [hi]
      · rw [List.getElem?_eq_none (by simp; omega), List.getElem?_eq_none (by omega)]

theorem insertAll_induction {P : Heap β → Prop} {bindings : List (String × Binding β)}
    (hst : ∀ h entry, entry ∈ bindings → P h → P (h.insert e entry.1 entry.2)) (hh : P h) : P
    (h.insertAll e bindings) := by
  unfold insertAll
  induction bindings generalizing h with
  | nil => exact hh
  | cons entry rest ih =>
    rw [foldl_cons]
    exact ih (fun h entry he => hst h entry (mem_cons_of_mem _ he)) (hst h entry mem_cons_self hh)

end Heap

def renounces (promises : List PromiseClause) (capability : String) : Option PromiseClause :=
  promises.reverse.find? fun clause => clause.capability == capability && clause.never

structure JitState where
  calls : Nat
  compiled : Option CompiledFunction
  disabled : Bool

structure EffectRecord where
  operation : String
  capability : String
  arguments : String
  result : String
deriving DecidableEq, Repr

inductive EffectEvent
  | authorized (capability operation : String)
  | denied (capability operation : String)
deriving DecidableEq, Repr

/-- The generational collector's bookkeeping; `pending` while a concurrent mark is running. -/
structure Collector where
  cycles : Nat
  ages : List (Env × Nat)
  pending : Bool

/-- A task that has been started: the function it calls and what it inherits. -/
structure TaskStart (β : Type) where
  task : Nat
  function : Function β
  span : Span
  capabilities : Option (List String)
  capabilityScopes : List (String × String)
  activePromises : List PromiseClause
  maxCallDepth : Nat
  native : Bool
  metered : Bool

/-- The interpreter. `effects` records every decision of the capability gate; `cancelled` is the
state of the cancellation flags it watches. -/
structure Interp (β σ : Type) where
  heap : Heap β
  world : σ
  nextId : Nat
  globals : Env
  environment : Env
  namespaces : List String
  environments : List Env
  roots : List Env
  gcStress : Bool
  gcTicks : Nat
  collector : Collector
  cancellable : Bool
  cancelled : Bool
  metered : Bool
  debugged : Bool
  output : List String
  jitThreshold : Nat
  jit : List (Nat × JitState)
  capabilities : Option (List String)
  capabilityScopes : List (String × String)
  instructionBudget : Option Nat
  memoryBudget : Option Nat
  callDepth : Nat
  maxCallDepth : Nat
  protocolDispatch : List ((String × String × String) × Value β)
  fastFrames : List (FastFrame β)
  runSamples : Bool
  effectRecorder : Option (List EffectRecord)
  effectReplay : Option (List EffectRecord)
  activePromises : List PromiseClause
  payloadLimit : Nat
  nativeExecutionDepth : Nat
  liveTasks : Nat
  spawned : List (TaskStart β)
  effects : List EffectEvent

/-- How far a native has got: finished, or waiting for a callback into the program. -/
inductive NativeStep (β σ ν : Type)
  | done (result : Except NivError (Value β)) (world : σ)
  | call (callee : Value β) (arguments : List (Value β)) (state : ν) (world : σ)

/-- What the interpreter takes from outside. A native may call back into the program any number of
times; between two callbacks it is in a state of type `ν`. -/
structure Host (β σ ν : Type) where
  lib : RustLibrary
  /-- The names every interpreter starts with. -/
  prelude : List (String × Binding β)
  /-- Starts a native function. -/
  start : NativeFunction → List (Value β) → Span → σ → NativeStep β σ ν
  /-- Continues a native with the result of its callback. -/
  resume : ν → Except NivError (Value β) → σ → NativeStep β σ ν
  /-- Starts draining an iterator handle for `each`. -/
  drain : Nat → Span → σ → NativeStep β σ ν
  /-- The generated methods of shapes. -/
  derived : DerivedMethod → List (Value β) → Span → Except NivError (Value β)
  /-- Whether the arguments of an effect lie inside the granted scope. -/
  inScope : String → String → String → List (Value β) → Bool
  /-- Resolves the path argument of `std.native.open`. -/
  canonicalize : List (Value β) → List (Value β)
  /-- Releases the resource behind a handle. -/
  close : HandleKind → Nat → Span → σ → Except NivError Unit × σ
  effectDigest : List (Value β) → String
  effectToJson : Value β → Except String String
  effectFromJson : String → Span → Except NivError (Value β)
  /-- The closures the collector's `mark_value` finds behind a handle. -/
  held : σ → HandleKind → Nat → List (Function β)
  /-- All closures that resources hold. -/
  stored : σ → List (Function β)
  /-- The closures a waiting native holds. -/
  waiting : ν → List (Function β)
  /-- The estimated size of a resource at a nesting depth; `none` when it nests too deep. -/
  handleBytes : σ → HandleKind → Nat → Nat → Option Nat

abbrev VM (β σ : Type) := Program.Fallible Failure (Interp β σ)

namespace VM

abbrev read {α : Type} (f : Interp β σ → α) : VM β σ α := Program.read f

abbrev write (f : Interp β σ → Interp β σ) : VM β σ Unit := Program.write f

def raise {α : Type} (message : String) (span : Span) : VM β σ α :=
  throw (.error (errorAt message span))

def lift {α : Type} (result : Result α) : VM β σ α :=
  match result with
  | .ok a => pure a
  | .error failure => throw failure

def liftError {α : Type} (result : Except NivError α) : VM β σ α :=
  match result with
  | .ok a => pure a
  | .error e => throw (.error e)

/-- Runs a program and hands an error on as a value; a panic still escapes. -/
def attempt {α : Type} (program : VM β σ α) : VM β σ (Except NivError α) :=
  ExceptT.mk fun s =>
    match Program.exec program s with
    | (.ok a, s) => (.ok (.ok a), s)
    | (.error (.error e), s) => (.ok (.error e), s)
    | (.error .panic, s) => (.error .panic, s)

section Rules

open Program

variable {α : Type} {s : Interp β σ} {Q : α → Interp β σ → Prop} {R : Failure → Interp β σ → Prop}

theorem exec_attempt (program : VM β σ α) : exec (attempt program) s =
      match exec program s with
      | (.ok a, s) => (.ok (.ok a), s)
      | (.error (.error e), s) => (.ok (.error e), s)
      | (.error .panic, s) => (.error .panic, s) := rfl

@[simp] theorem ensures_attempt {program : VM β σ α} {Q : Except NivError α → Interp β σ → Prop} :
    Ensures (attempt program) s Q R ↔ Ensures program s (fun a s => Q (.ok a) s) fun failure s =>
        match failure with
        | .error e => Q (.error e) s
        | .panic => R .panic s := by
  unfold Ensures
  rw [exec_attempt]
  rcases exec program s with ⟨failure | _, _⟩
  · cases failure <;> rfl
  · rfl

end Rules

end VM

end Nivren
