import Nivren.Value

/-! Fast local slots.

When no nested chunk can see a local of a function, the runtime keeps it in a numbered slot instead
of an environment binding. `fastLocalSlots` decides which instruction uses which slot; a
`FastSlotPlan` carries the proof that every slot it names exists.
-/

namespace Nivren

open List

mutual

def patternBoundNames : Pattern → List String
  | .any _ | .literal _ _ => []
  | .name name _ | .binding name _ => [name]
  | .carries _ inner _ => patternBoundNames inner
  | .shape _ fields _ => fieldsBoundNames fields

def fieldsBoundNames : List (String × Pattern) → List String
  | [] => []
  | (_, field) :: rest => patternBoundNames field ++ fieldsBoundNames rest

end

def opName : Op → List String
  | .load name | .store name | .define name _ => [name]
  | _ => []

mutual

def chunkReferencedNames : Chunk → List String
  | ⟨_, code⟩ => codeReferencedNames code

def codeReferencedNames : List Instruction → List String
  | [] => []
  | ⟨op, _⟩ :: rest => opName op ++ opResidentNames op ++ codeReferencedNames rest

/-- The names an op keeps in the environment: those its nested chunks touch, those its patterns
bind and those it declares. -/
def opResidentNames : Op → List String
  | .makeFunction name params body => name :: params ++ chunkReferencedNames body
  | .matchArms arms => armsReferencedNames arms
  | .defineModule name body _ => name :: chunkReferencedNames body
  | .iterate name pattern body =>
    name :: (pattern.toList.flatMap patternBoundNames ++ chunkReferencedNames body)
  | .definePattern pattern => patternBoundNames pattern
  | .sample _ body _ => chunkReferencedNames body
  | .repeat condition body => chunkReferencedNames condition ++ chunkReferencedNames body
  | .ifCarries patterns thenBranch elseBranch =>
    patterns.flatMap patternBoundNames ++ chunkReferencedNames thenBranch ++
      optionalReferencedNames elseBranch
  | .using name body => name :: chunkReferencedNames body
  | .defineRecord name _ _ | .defineEnum name _ _ | .defineProtocol name _ => [name]
  | .prepare name => [name]
  | _ => []

def armsReferencedNames : List BytecodeArm → List String
  | [] => []
  | ⟨patterns, guard, body, _⟩ :: rest =>
    patterns.flatMap patternBoundNames ++ optionalReferencedNames guard ++
      chunkReferencedNames body ++ armsReferencedNames rest

def optionalReferencedNames : Option Chunk → List String
  | none => []
  | some chunk => chunkReferencedNames chunk

end

def environmentResidentNames (body : Chunk) : List String :=
  body.code.flatMap fun instruction => opResidentNames instruction.op

/-- What `fast_local_slots` tracks: the open scopes, innermost first. -/
structure SlotState where
  scopes : List (List (String × Nat))
  slotsByName : List (String × Nat)
  slotCount : Nat
  needsEnvironment : Bool

/-- Parameters take the first slots; a duplicate gives the plan up. -/
def slotParameters (excluded : List String) : List String → SlotState → Option SlotState
  | [], state => some state
  | parameter :: rest, state =>
    if parameter ∈ excluded then slotParameters excluded rest state
    else if (state.slotsByName.lookup parameter).isSome then none
    else
      let entry := (parameter, state.slotCount)
      slotParameters excluded rest { state with
        scopes := [entry :: state.slotsByName]
        slotsByName := entry :: state.slotsByName
        slotCount := state.slotCount + 1 }

/-- The slot of one instruction, and the scopes after it. -/
def slotInstruction (excluded : List String) (op : Op) (state : SlotState) :
    Option (Option Nat × SlotState) :=
  match op with
  | .load name | .store name =>
    if name ∈ excluded then some (none, state)
    else some (state.scopes.findSome? fun scope => scope.lookup name, state)
  | .define name _ =>
    if name ∈ excluded then
      if 1 < state.scopes.length then none
      else some (none, { state with needsEnvironment := true })
    else match state.scopes with
      | [] => none
      | scope :: outer =>
        if (scope.lookup name).isSome then none
        else
          let entry := (name, state.slotCount)
          some (some state.slotCount, { state with
            scopes := (entry :: scope) :: outer
            slotsByName := if outer = [] then entry :: state.slotsByName else state.slotsByName
            slotCount := state.slotCount + 1 })
  | .enterScope => some (none, { state with scopes := [] :: state.scopes })
  | .exitScope =>
    if state.scopes.length = 1 then none
    else some (none, { state with scopes := state.scopes.tail })
  | .makeFunction .. | .defineRecord .. | .defineEnum .. | .defineProtocol .. | .defineModule ..
  | .adoptProtocol .. | .definePattern _ | .prepare _ =>
    if 1 < state.scopes.length then none
    else some (none, { state with needsEnvironment := true })
  | _ => some (none, state)

def slotInstructions (excluded : List String) :
    List Instruction → SlotState → Option (List (Option Nat) × SlotState)
  | [], state => some ([], state)
  | instruction :: rest, state => do
    let (slot, state) ← slotInstruction excluded instruction.op state
    let (slots, state) ← slotInstructions excluded rest state
    some (slot :: slots, state)

structure SlotTable where
  needsEnvironment : Bool
  slotsByName : List (String × Nat)
  instructionSlots : List (Option Nat)
  slotCount : Nat

def slotTable (parameters : List String) (body : Chunk) : Option SlotTable := do
  let excluded := environmentResidentNames body
  let state ← slotParameters excluded parameters ⟨[[]], [], 0, false⟩
  let (slots, state) ← slotInstructions excluded body.code state
  if state.scopes.length ≠ 1 then none
  else some ⟨state.needsEnvironment, state.slotsByName, slots, state.slotCount⟩

structure SlotTable.Bounded (table : SlotTable) : Prop where
  instructions : ∀ slot, some slot ∈ table.instructionSlots → slot < table.slotCount
  names : ∀ entry ∈ table.slotsByName, entry.2 < table.slotCount

structure SlotState.Bounded (state : SlotState) : Prop where
  scopes : ∀ scope ∈ state.scopes, ∀ entry ∈ scope, entry.2 < state.slotCount
  names : ∀ entry ∈ state.slotsByName, entry.2 < state.slotCount

theorem lookup_mem {κ α : Type} [BEq κ] [LawfulBEq κ] {name : κ} {value : α}
    {entries : List (κ × α)}
    (h : entries.lookup name = some value) : (name, value) ∈ entries := by
  induction entries with
  | nil => simp at h
  | cons entry rest ih =>
    rw [lookup_cons] at h
    split at h
    next heq =>
      cases h
      have hn : name = entry.1 := by simpa using heq
      simp [hn]
    next => exact mem_cons_of_mem _ (ih h)

variable {excluded : List String} {state out : SlotState} {parameters : List String}

theorem slotParameters_bounded
    (h : slotParameters excluded parameters state = some out) (hs : state.Bounded) :
    out.Bounded := by
  induction parameters generalizing state with
  | nil =>
    cases h
    exact hs
  | cons parameter rest ih =>
    rw [slotParameters] at h
    split at h
    · exact ih h hs
    · split at h
      · cases h
      · refine ih h ⟨?_, ?_⟩
        all_goals
          simp only [mem_singleton, forall_eq, forall_mem_cons]
          refine ⟨Nat.lt_succ_self _, fun entry he => Nat.lt_succ_of_lt (hs.names entry he)⟩

theorem slotInstruction_bounded {op : Op}
    {slot : Option Nat} (h : slotInstruction excluded op state = some (slot, out))
    (hs : state.Bounded) :
    out.Bounded ∧ state.slotCount ≤ out.slotCount ∧ ∀ s ∈ slot, s < out.slotCount := by
  have keep : state.Bounded ∧ state.slotCount ≤ state.slotCount ∧
      ∀ s ∈ (none : Option Nat), s < state.slotCount := ⟨hs, Nat.le_refl _, by simp⟩
  unfold slotInstruction at h
  split at h
  case h_1 | h_2 =>
    split at h
    · cases h
      exact keep
    · cases h
      refine ⟨hs, Nat.le_refl _, fun s hsl => ?_⟩
      obtain ⟨scope, hsp, hl⟩ := List.exists_of_findSome?_eq_some hsl
      exact hs.scopes scope hsp _ (lookup_mem hl)
  case h_3 name mutable =>
    split at h
    · split at h
      · cases h
      · cases h
        exact ⟨⟨hs.scopes, hs.names⟩, keep.2⟩
    · split at h
      · cases h
      next scope outer hsc =>
        split at h
        · cases h
        · cases h
          have grow : ∀ scope ∈ state.scopes, ∀ entry ∈ scope, entry.2 < state.slotCount + 1 :=
            fun sc hm entry he => Nat.lt_succ_of_lt (hs.scopes sc hm entry he)
          have growNames : ∀ entry ∈ state.slotsByName, entry.2 < state.slotCount + 1 :=
            fun entry he => Nat.lt_succ_of_lt (hs.names entry he)
          rw [hsc] at grow
          refine ⟨⟨?_, ?_⟩, Nat.le_succ _, by simp⟩
          · intro sc hm
            rcases mem_cons.mp hm with rfl | hm
            · exact forall_mem_cons.mpr ⟨Nat.lt_succ_self _, grow scope (by simp)⟩
            · exact grow sc (mem_cons_of_mem _ hm)
          · dsimp only
            split
            · exact forall_mem_cons.mpr ⟨Nat.lt_succ_self _, growNames⟩
            · exact growNames
  case h_4 =>
    cases h
    exact ⟨⟨by simpa using hs.scopes, hs.names⟩, keep.2⟩
  case h_5 =>
    split at h
    · cases h
    · cases h
      exact ⟨⟨fun sc hm => hs.scopes sc (mem_of_mem_tail hm), hs.names⟩, keep.2⟩
  case h_14 =>
    cases h
    exact keep
  all_goals
    split at h
    · cases h
    · cases h
      exact ⟨⟨hs.scopes, hs.names⟩, keep.2⟩

theorem slotInstructions_bounded {code : List Instruction} {slots : List (Option Nat)}
    (h : slotInstructions excluded code state = some (slots, out)) (hs : state.Bounded) :
    out.Bounded ∧ state.slotCount ≤ out.slotCount ∧ ∀ s, some s ∈ slots → s < out.slotCount := by
  induction code generalizing state slots with
  | nil =>
    cases h
    exact ⟨hs, Nat.le_refl _, by simp⟩
  | cons instruction rest ih =>
    simp only [slotInstructions, Option.bind_eq_bind, Option.bind_eq_some_iff, Option.some.injEq,
      Prod.exists, Prod.mk.injEq] at h
    obtain ⟨slot, mid, hm, slots', out', hr, rfl, rfl⟩ := h
    obtain ⟨hb, hle, hsl⟩ := slotInstruction_bounded hm hs
    obtain ⟨hb', hle', hre⟩ := ih hr hb
    refine ⟨hb', Nat.le_trans hle hle', fun s hmem => ?_⟩
    rcases mem_cons.mp hmem with rfl | hmem
    · exact Nat.lt_of_lt_of_le (hsl s rfl) hle'
    · exact hre s hmem

theorem slotTable_bounded {body : Chunk} {table : SlotTable}
    (h : slotTable parameters body = some table) : table.Bounded := by
  simp only [slotTable, Option.bind_eq_bind, Option.bind_eq_some_iff, Prod.exists] at h
  obtain ⟨start, hst, slots, out, hsl, h⟩ := h
  split at h
  · cases h
  · cases h
    have hb : start.Bounded := slotParameters_bounded hst ⟨by simp, by simp⟩
    obtain ⟨hout, -, hs⟩ := slotInstructions_bounded hsl hb
    exact ⟨hs, hout.names⟩

structure FastSlotPlan extends SlotTable where
  bounded : toSlotTable.Bounded

/-- `fast_local_slots`. -/
def fastLocalSlots (parameters : List String) (body : Chunk) : Option FastSlotPlan :=
  (slotTable parameters body).attach.map fun table => ⟨table.1, slotTable_bounded table.2⟩

structure FastRootSlots where
  plan : FastSlotPlan
  persistent : List String

/-- The names defined outside every block, in order. -/
def persistentNames : Nat → List Instruction → List String
  | _, [] => []
  | depth, instruction :: rest =>
    match instruction.op with
    | .enterScope => persistentNames (depth + 1) rest
    | .exitScope => persistentNames (depth - 1) rest
    | .define name _ =>
      if depth = 0 then name :: persistentNames depth rest else persistentNames depth rest
    | _ => persistentNames depth rest

/-- `fast_root_slots`. -/
def fastRootSlots (chunk : Chunk) : Option FastRootSlots :=
  (fastLocalSlots [] chunk).map fun plan => ⟨plan, persistentNames 0 chunk.code⟩

structure FastBinding (β : Type) where
  value : Value β
  mutable : Bool
  defined : Bool

/-- The slots of one activation; a frame without a plan masks the frames below it. -/
structure FastFrame (β : Type) where
  plan : Option FastSlotPlan
  slots : List (FastBinding β)
  sized : ∀ p ∈ plan, slots.length = p.slotCount

variable {β : Type}

def FastFrame.slotOf (frame : FastFrame β) (instruction : Nat) : Option Nat := do
  let plan ← frame.plan
  (plan.instructionSlots[instruction]?).join

theorem FastFrame.slotOf_lt {frame : FastFrame β} {instruction slot : Nat}
    (h : frame.slotOf instruction = some slot) : slot < frame.slots.length := by
  simp only [slotOf, Option.bind_eq_bind, Option.bind_eq_some_iff, Option.join_eq_some_iff] at h
  obtain ⟨plan, hp, hi⟩ := h
  rw [frame.sized plan hp]
  exact plan.bounded.instructions slot (mem_of_getElem? hi)

def FastFrame.setSlot (frame : FastFrame β) (slot : Nat) (binding : FastBinding β) :
    FastFrame β where
  plan := frame.plan
  slots := frame.slots.set slot binding
  sized p hp := by rw [length_set, frame.sized p hp]

def FastFrame.mask : FastFrame β := ⟨none, [], by simp⟩

end Nivren
