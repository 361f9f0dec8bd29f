import Nivren.References

/-! What a machine refers to.

`Allowed` is a choice of chunks, closure bodies and scopes. An interpreter, a frame or a control state
is allowed when everything it mentions is; the host's natives are `Tame` when they cannot make
closures of their own.
-/

namespace Nivren

open List

variable {σ ν : Type}

/-- What a machine may refer to: chunks to run, bodies of closures, and scopes. The first `floor`
promises are never dropped. -/
structure Allowed where
  chunk : Chunk → Prop
  body : Chunk → Prop
  scope : Env → Prop
  floor : Nat := 0
  chunk_of_body : ∀ {c}, body c → chunk c
  nested : ∀ {c i p l}, chunk c → i ∈ c.code → p ∈ nested i.op l → chunk p.1
  makeFunction : ∀ {c name params b span}, chunk c →
    ⟨.makeFunction name params b, span⟩ ∈ c.code → body b

namespace Allowed

/-- No restriction but the floor. -/
def keeping (floor : Nat) : Allowed where
  chunk _ := True
  body _ := True
  scope _ := True
  floor := floor
  chunk_of_body _ := trivial
  nested _ _ _ := trivial
  makeFunction _ _ := trivial

variable (A : Allowed)

def function (f : Function Chunk) : Prop := A.body f.body ∧ A.scope f.closure

abbrev value (value : Value Chunk) : Prop := value.All A.function

def values (values : List (Value Chunk)) : Prop := ∀ value ∈ values, A.value value

abbrev bindings (bindings : List (String × Value Chunk)) : Prop := AllBindings A.function bindings

def activation (a : Activation) : Prop :=
  (A.chunk a.chunk ∧ A.floor ≤ a.promiseMark) ∧ A.values a.stack

def loop (loop : Loop) : Prop := A.chunk loop.body

def arm (arm : BytecodeArm) : Prop := (∀ guard ∈ arm.guard, A.chunk guard) ∧ A.chunk arm.body

def flow : VmFlow Chunk → Prop
  | .continue value | .return value => A.value value
  | .stop | .skip => True

def result (result : Except NivError (VmFlow Chunk)) : Prop := ∀ flow, result = .ok flow → A.flow flow

def purpose : Purpose → Prop
  | .call _ arguments _ => A.values arguments
  | .drain loop => A.loop loop

def admission : VM.Admission Chunk → Prop
  | .replayed value => A.value value
  | .admitted arguments => A.values arguments

structure heap (h : Heap Chunk) : Prop where
  value : ∀ e, A.scope e → ∀ entry ∈ (h.get e).values, A.value entry.2.value
  parent : ∀ e, A.scope e → ∀ p, (h.get e).parent = some p → A.scope p
  unborn : ∀ i, h.scopes.length ≤ i → A.scope (.scope i)

variable (host : Host Chunk σ ν)

def world (world : σ) : Prop := ∀ f ∈ host.stored world, A.function f

def native (state : ν) : Prop := ∀ f ∈ host.waiting state, A.function f

def nativeStep : NativeStep Chunk σ ν → Prop
  | .done result world => (∀ value, result = .ok value → A.value value) ∧ A.world host world
  | .call callee arguments state world =>
    A.value callee ∧ A.values arguments ∧ A.native host state ∧ A.world host world

structure interp (s : Interp Chunk σ) : Prop where
  heap : A.heap s.heap
  globals : A.scope s.globals
  environment : A.scope s.environment
  roots : ∀ e ∈ s.roots, A.scope e
  fast : ∀ frame ∈ s.fastFrames, ∀ binding ∈ frame.slots, A.value binding.value
  dispatch : ∀ entry ∈ s.protocolDispatch, A.value entry.2
  stored : A.world host s.world
  promises : A.floor ≤ s.activePromises.length
  spawned : ∀ task ∈ s.spawned, A.function task.function

def frame : Frame ν → Prop
  | .activation a | .operands a _ => A.activation a
  | .function _ _ previous _ | .arm previous | .carriesThen previous
  | .sample _ _ _ previous => A.scope previous
  | .native purpose state => A.purpose purpose ∧ A.native host state
  | .guard subject arm rest _ previous =>
    A.value subject ∧ A.arm arm ∧ (∀ arm ∈ rest, A.arm arm) ∧ A.scope previous
  | .module _ _ _ previous moduleScope => A.scope previous ∧ A.scope moduleScope
  | .advance implementation items loop =>
    A.value implementation ∧ A.values items ∧ A.loop loop
  | .iteration loop rest last previous =>
    A.loop loop ∧ A.values rest ∧ A.value last ∧ A.scope previous
  | .repeatCondition condition body last _ | .repeatBody condition body last _ =>
    A.chunk condition ∧ A.chunk body ∧ A.value last
  | .carriesElse => True
  | .using resource _ previous => A.value resource ∧ A.scope previous

def frames (frames : List (Frame ν)) : Prop := ∀ frame ∈ frames, A.frame host frame

def control : Control σ ν → Prop
  | .execute a | .collect a _ _ | .settle a _ _ => A.activation a
  | .flow result => A.result result
  | .call callee arguments _ => A.value callee ∧ A.values arguments
  | .native purpose step => A.purpose purpose ∧ A.nativeStep host step
  | .compiled .. | .panic => True
  | .choose subject arms _ => A.value subject ∧ ∀ arm ∈ arms, A.arm arm
  | .iterate loop values last => A.loop loop ∧ A.values values ∧ A.value last
  | .advance implementation state items loop =>
    A.value implementation ∧ A.value state ∧ A.values items ∧ A.loop loop
  | .repeat condition body last _ => A.chunk condition ∧ A.chunk body ∧ A.value last

def next (next : Next σ ν) : Prop := A.frames host next.1 ∧ A.control host next.2

structure machine (m : Machine σ ν) : Prop where
  interp : A.interp host m.interp
  frames : A.frames host m.frames
  control : A.control host m.control

end Allowed

/-- Natives hand out no closures but those they were given or that resources hold. -/
structure Host.Tame (host : Host Chunk σ ν) : Prop where
  start : ∀ (A : Allowed) f arguments span world, A.values arguments → A.world host world →
    A.nativeStep host (host.start f arguments span world)
  resume : ∀ (A : Allowed) state reply world, A.native host state →
    (∀ value, reply = .ok value → A.value value) → A.world host world →
    A.nativeStep host (host.resume state reply world)
  drain : ∀ (A : Allowed) id span world, A.world host world →
    A.nativeStep host (host.drain id span world)
  derived : ∀ (A : Allowed) method arguments span value, A.values arguments →
    host.derived method arguments span = .ok value → A.value value
  canonicalize : ∀ (A : Allowed) arguments, A.values arguments →
    A.values (host.canonicalize arguments)
  close : ∀ (A : Allowed) kind id span world, A.world host world →
    A.world host (host.close kind id span world).2
  effectFromJson : ∀ (A : Allowed) json span value,
    host.effectFromJson json span = .ok value → A.value value

variable {value : Value Chunk} {flow : VmFlow Chunk} {frame : Frame ν}

namespace Allowed

variable {A : Allowed} {h : Heap Chunk}

variable {name : String} {e : Env}

theorem heap.insert (hh : A.heap h) {binding : Binding Chunk}
    (hv : A.value binding.value) : A.heap (h.insert e name binding) where
  value e' he' entry hm := by
    rcases Heap.mem_get_insert hm with hm | ⟨-, rfl⟩
    · exact hh.value e' he' entry hm
    · exact hv
  parent e' he' q hq := hh.parent e' he' q (by simpa using hq)
  unborn i hi := hh.unborn i (by simpa using hi)

theorem heap.insertAll (hh : A.heap h) {bindings : List (String × Binding Chunk)}
    (hv : ∀ entry ∈ bindings, A.value entry.2.value) : A.heap (h.insertAll e bindings) :=
  Heap.insertAll_induction (fun _ entry he hh => hh.insert (hv entry he)) hh

theorem heap.child (hh : A.heap h) (he : A.scope e) : A.heap (h.child e).2 where
  value e' he' entry hm := by
    rw [Heap.get_child] at hm
    split at hm
    · cases hm
    · exact hh.value e' he' entry hm
  parent e' he' q hq := by
    rw [Heap.get_child] at hq
    split at hq
    · cases hq
      exact he
    · exact hh.parent e' he' q hq
  unborn i hi := by
    refine hh.unborn i ?_
    simp only [Heap.child, length_append, length_singleton] at hi
    omega

theorem heap.lookupFrom (hh : A.heap h) {fuel : Nat} (he : A.scope e)
    (hl : h.lookupFrom name fuel e = some value) : A.value value := by
  induction fuel generalizing e with
  | zero => cases hl
  | succ fuel ih =>
    rw [Heap.lookupFrom] at hl
    split at hl
    next hb =>
      cases hl
      exact hh.value e he _ (lookup_mem hb)
    · obtain ⟨q, hq, hl⟩ := Option.bind_eq_some_iff.mp hl
      exact ih (hh.parent e he q hq) hl

variable {span : Span} {h' : Heap Chunk}

theorem heap.assignFrom (hh : A.heap h) (hv : A.value value) {fuel : Nat}
    (ha : h.assignFrom name value span fuel e = .ok h') : A.heap h' := by
  induction fuel generalizing e with
  | zero => cases ha
  | succ fuel ih =>
    rw [Heap.assignFrom] at ha
    split at ha
    · split at ha
      · cases ha
        exact hh.insert hv
      · cases ha
    · split at ha
      · exact ih ha
      · cases ha

theorem heap.assign (hh : A.heap h)
    (hv : A.value value) (ha : h.assign e name value span = .ok h') :
    A.heap h' :=
  hh.assignFrom hv ha

@[simp] theorem values_nil : A.values [] := fun _ h => nomatch h

@[simp] theorem values_cons {rest : List (Value Chunk)} :
    A.values (value :: rest) ↔ A.value value ∧ A.values rest :=
  forall_mem_cons

variable {stack : List (Value Chunk)}

theorem values.drop (h : A.values stack) (n : Nat) : A.values (stack.drop n) :=
  fun value hv => h value (mem_of_mem_drop hv)

theorem bindings_zip {names : List String} {arguments : List (Value Chunk)}
    (h : A.values arguments) : A.bindings (names.zip arguments) :=
  fun entry he => h entry.2 (of_mem_zip he).2

variable {host : Host Chunk σ ν}

@[simp] theorem frames_nil : A.frames host [] := fun _ h => nomatch h

@[simp] theorem frames_cons {rest : List (Frame ν)} :
    A.frames host (frame :: rest) ↔ A.frame host frame ∧ A.frames host rest :=
  forall_mem_cons

@[simp] theorem result_error {e : NivError} : A.result (.error e) := fun _ h => nomatch h

@[simp] theorem result_ok : A.result (.ok flow) ↔ A.flow flow :=
  ⟨fun h => h flow rfl, fun h _ hf => by cases hf; exact h⟩

theorem bodyValue_value {result : Except NivError (VmFlow Chunk)}
    (h : A.result result) (hv : VM.bodyValue result span = .ok value) :
    A.value value := by
  unfold VM.bodyValue at hv
  split at hv <;> cases hv
  · exact result_ok.mp h
  · exact result_ok.mp h

theorem parameterSlots_value {plan : FastSlotPlan} {parameters : List (String × Value Chunk)}
    (h : A.bindings parameters) :
    ∀ binding ∈ parameterSlots plan parameters, A.value binding.value := by
  have hs : ∀ binding ∈ replicate plan.slotCount (⟨.null, false, false⟩ : FastBinding Chunk),
      A.value binding.value := by
    intro binding hb
    rw [eq_of_mem_replicate hb]
    exact Value.all_null
  rw [parameterSlots]
  generalize replicate plan.slotCount (⟨.null, false, false⟩ : FastBinding Chunk) = slots at hs ⊢
  induction parameters generalizing slots with
  | nil => exact hs
  | cons entry rest ih =>
    rw [foldl_cons]
    refine ih (fun entry he => h entry (mem_cons_of_mem _ he)) _ ?_
    split
    · intro binding hb
      rcases mem_or_eq_of_mem_set hb with hb | rfl
      · exact hs binding hb
      · exact h entry mem_cons_self
    · exact hs

end Allowed

namespace Allowed

/-- What all choices of a family allow. -/
def inter (I : Allowed → Prop) : Allowed where
  chunk c := ∀ A, I A → A.chunk c
  body c := ∀ A, I A → A.body c
  scope e := ∀ A, I A → A.scope e
  chunk_of_body h A hA := A.chunk_of_body (h A hA)
  nested h hi hp A hA := A.nested (h A hA) hi hp
  makeFunction h hi A hA := A.makeFunction (h A hA) hi

variable {I : Allowed → Prop} {host : Host Chunk σ ν}

theorem inter_function {f : Function Chunk} (h : ∀ A, I A → A.function f) : (inter I).function f :=
  ⟨fun A hA => (h A hA).1, fun A hA => (h A hA).2⟩

theorem inter_value (h : ∀ A, I A → A.value value) : (inter I).value value :=
  fun f hf => inter_function fun A hA => h A hA f hf

theorem inter_values {values : List (Value Chunk)} (h : ∀ A, I A → A.values values) :
    (inter I).values values :=
  fun value hv => inter_value fun A hA => h A hA value hv

theorem inter_activation {a : Activation} (h : ∀ A, I A → A.activation a) :
    (inter I).activation a :=
  ⟨⟨fun A hA => (h A hA).1.1, Nat.zero_le _⟩, inter_values fun A hA => (h A hA).2⟩

theorem inter_arm {arm : BytecodeArm} (h : ∀ A, I A → A.arm arm) : (inter I).arm arm :=
  ⟨fun guard hg A hA => (h A hA).1 guard hg, fun A hA => (h A hA).2⟩

theorem inter_flow (h : ∀ A, I A → A.flow flow) : (inter I).flow flow := by
  cases flow with
  | «continue» value | «return» value => exact inter_value h
  | stop | skip => trivial

theorem inter_purpose {purpose : Purpose} (h : ∀ A, I A → A.purpose purpose) :
    (inter I).purpose purpose := by
  cases purpose with
  | call f arguments span => exact inter_values h
  | drain loop => exact h

theorem inter_world {world : σ} (h : ∀ A, I A → A.world host world) : (inter I).world host world :=
  fun f hf => inter_function fun A hA => h A hA f hf

theorem inter_native {state : ν} (h : ∀ A, I A → A.native host state) :
    (inter I).native host state :=
  fun f hf => inter_function fun A hA => h A hA f hf

theorem inter_nativeStep {step : NativeStep Chunk σ ν} (h : ∀ A, I A → A.nativeStep host step) :
    (inter I).nativeStep host step := by
  cases step with
  | done result world =>
    exact ⟨fun value hv => inter_value fun A hA => (h A hA).1 value hv,
      inter_world fun A hA => (h A hA).2⟩
  | call callee arguments state world =>
    exact ⟨inter_value fun A hA => (h A hA).1, inter_values fun A hA => (h A hA).2.1,
      inter_native fun A hA => (h A hA).2.2.1, inter_world fun A hA => (h A hA).2.2.2⟩

variable {s : Interp Chunk σ}

theorem inter_interp (h : ∀ A, I A → A.interp host s) : (inter I).interp host s where
  heap :=
    { value := fun e he entry hm => inter_value fun A hA =>
        (h A hA).heap.value e (he A hA) entry hm
      parent := fun e he p hp A hA => (h A hA).heap.parent e (he A hA) p hp
      unborn := fun i hi A hA => (h A hA).heap.unborn i hi }
  globals A hA := (h A hA).globals
  environment A hA := (h A hA).environment
  roots e he A hA := (h A hA).roots e he
  fast frame hf binding hb := inter_value fun A hA => (h A hA).fast frame hf binding hb
  dispatch entry he := inter_value fun A hA => (h A hA).dispatch entry he
  stored := inter_world fun A hA => (h A hA).stored
  promises := Nat.zero_le _
  spawned task ht := inter_function fun A hA => (h A hA).spawned task ht

theorem inter_frame (h : ∀ A, I A → A.frame host frame) : (inter I).frame host frame := by
  cases frame with
  | activation a | operands a count => exact inter_activation h
  | function name span previous fast | arm previous | carriesThen previous
  | sample title shows span previous => exact h
  | native purpose state =>
    exact ⟨inter_purpose fun A hA => (h A hA).1, inter_native fun A hA => (h A hA).2⟩
  | guard subject arm rest span previous =>
    exact ⟨inter_value fun A hA => (h A hA).1, inter_arm fun A hA => (h A hA).2.1,
      fun arm ha => inter_arm fun A hA => (h A hA).2.2.1 arm ha, fun A hA => (h A hA).2.2.2⟩
  | module name exports span previous moduleScope =>
    exact ⟨fun A hA => (h A hA).1, fun A hA => (h A hA).2⟩
  | advance implementation items loop =>
    exact ⟨inter_value fun A hA => (h A hA).1, inter_values fun A hA => (h A hA).2.1,
      fun A hA => (h A hA).2.2⟩
  | iteration loop rest last previous =>
    exact ⟨fun A hA => (h A hA).1, inter_values fun A hA => (h A hA).2.1,
      inter_value fun A hA => (h A hA).2.2.1, fun A hA => (h A hA).2.2.2⟩
  | repeatCondition condition body last span | repeatBody condition body last span =>
    exact ⟨fun A hA => (h A hA).1, fun A hA => (h A hA).2.1, inter_value fun A hA => (h A hA).2.2⟩
  | carriesElse => trivial
  | «using» resource span previous =>
    exact ⟨inter_value fun A hA => (h A hA).1, fun A hA => (h A hA).2⟩

theorem inter_control {control : Control σ ν} (h : ∀ A, I A → A.control host control) :
    (inter I).control host control := by
  cases control with
  | execute a | collect a next memory | settle a next memory => exact inter_activation h
  | flow result => exact fun flow hf => inter_flow fun A hA => h A hA flow hf
  | call callee arguments span =>
    exact ⟨inter_value fun A hA => (h A hA).1, inter_values fun A hA => (h A hA).2⟩
  | native purpose step =>
    exact ⟨inter_purpose fun A hA => (h A hA).1, inter_nativeStep fun A hA => (h A hA).2⟩
  | compiled name span state | panic => trivial
  | choose subject arms span =>
    exact ⟨inter_value fun A hA => (h A hA).1,
      fun arm ha => inter_arm fun A hA => (h A hA).2 arm ha⟩
  | iterate loop values last =>
    exact ⟨fun A hA => (h A hA).1, inter_values fun A hA => (h A hA).2.1,
      inter_value fun A hA => (h A hA).2.2⟩
  | advance implementation state items loop =>
    exact ⟨inter_value fun A hA => (h A hA).1, inter_value fun A hA => (h A hA).2.1,
      inter_values fun A hA => (h A hA).2.2.1, fun A hA => (h A hA).2.2.2⟩
  | «repeat» condition body last span =>
    exact ⟨fun A hA => (h A hA).1, fun A hA => (h A hA).2.1, inter_value fun A hA => (h A hA).2.2⟩

theorem keeping_value (floor : Nat) (value : Value Chunk) : (keeping floor).value value :=
  fun _ _ => ⟨trivial, trivial⟩

theorem keeping_interp {floor : Nat} (h : floor ≤ s.activePromises.length) :
    (keeping floor).interp host s where
  heap := ⟨fun _ _ _ _ => keeping_value _ _, fun _ _ _ _ => trivial, fun _ _ => trivial⟩
  globals := trivial
  environment := trivial
  roots _ _ := trivial
  fast _ _ _ _ := keeping_value _ _
  dispatch _ _ := keeping_value _ _
  stored _ _ := ⟨trivial, trivial⟩
  promises := h
  spawned _ _ := ⟨trivial, trivial⟩

theorem inter_machine {m : Machine σ ν} (h : ∀ A, I A → A.machine host m) :
    (inter I).machine host m where
  interp := inter_interp fun A hA => (h A hA).interp
  frames frame hf := inter_frame fun A hA => (h A hA).frames frame hf
  control := inter_control fun A hA => (h A hA).control

def unrestricted : Allowed := inter fun _ => False

theorem unrestricted_machine (host : Host Chunk σ ν) (m : Machine σ ν) :
    unrestricted.machine host m :=
  inter_machine fun _ h => h.elim

end Allowed

end Nivren
