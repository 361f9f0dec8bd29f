import Nivren.Verify
import Nivren.Arith

/-! Native integer code.

Hot functions and whole programs over Ints are lowered to a small register code, `IntOp`, that the
JIT compiles. This module models the code, its meaning, and the planner for a single function:
`integerOperations` lowers a body one instruction at a time and `verifyIntegerKinds` rejects plans
that could mix integers with booleans.
-/

namespace Nivren

inductive IntCondition
  | equal | notEqual | less | lessEqual | greater | greaterEqual
deriving DecidableEq, Repr

inductive IntOp
  | constant (value : Int)
  | load (slot : Nat)
  | define (slot : Nat)
  | store (slot : Nat)
  | pop
  | add | subtract | multiply | divide | modulo
  | negate
  | not
  | compare (condition : IntCondition)
  | jump (target : Nat)
  | jumpIfFalse (target : Nat)
  | nop
  | callPlanned (function arity : Nat)
  | nullConstant
  | return
deriving DecidableEq, Repr

def IntCondition.holds (condition : IntCondition) (a b : Int) : Bool :=
  match condition with
  | .equal => a == b
  | .notEqual => a != b
  | .less => a < b
  | .lessEqual => a ≤ b
  | .greater => b < a
  | .greaterEqual => b ≤ a

/-- The faults native code reports, codes 1 to 4. -/
inductive JitCallError
  | overflow | divisionByZero | remainderByZero | callDepth
deriving DecidableEq, Repr

structure PlanFunction where
  parameters : Nat
  slots : Nat
  operations : List IntOp
deriving DecidableEq, Repr

/-- One native frame: the code it runs, its program counter, operand stack and slots. -/
structure IntFrame where
  operations : List IntOp
  pc : Nat
  stack : List Int
  slots : List Int
deriving DecidableEq, Repr

/-- The state of running native code; `callers` are the frames below the running one. -/
inductive IntState
  | running (frame : IntFrame) (callers : List IntFrame)
  | returned (value : Int) (slots : List Int)
  | fault (error : JitCallError)
deriving DecidableEq, Repr

def initialSlots (slots : Nat) (arguments : List Int) : List Int :=
  arguments ++ List.replicate (slots - arguments.length) 0

/-- Checked arithmetic of native code, with the fault each failure raises. -/
def intArithmetic (op : IntOp) (a b : Int) : Except JitCallError Int :=
  let checked (value : Option Int) : Except JitCallError Int :=
    match value with
    | some value => .ok value
    | none => .error .overflow
  match op with
  | .add => checked (Width.i64.checkedAdd a b)
  | .subtract => checked (Width.i64.checkedSub a b)
  | .multiply => checked (Width.i64.checkedMul a b)
  | .divide => if b = 0 then .error .divisionByZero else checked (Width.i64.checkedDiv a b)
  | .modulo => if b = 0 then .error .remainderByZero else checked (Width.i64.checkedRem a b)
  | _ => .error .overflow

/-- One native operation. The outermost frame runs at depth zero, a planned call one deeper, and a
callee that starts at `depthLimit` faults. Operands and code the planner's checks rule out read as
zero. -/
def intStep (functions : List PlanFunction) (depthLimit : Nat) (frame : IntFrame)
    (callers : List IntFrame) : IntState :=
  let top := frame.stack.headD 0
  let below := frame.stack.tail
  let next (stack : List Int) : IntState :=
    .running { frame with pc := frame.pc + 1, stack := stack } callers
  let leave (value : Int) : IntState :=
    match callers with
    | [] => .returned value frame.slots
    | caller :: rest => .running { caller with stack := value :: caller.stack } rest
  match frame.operations[frame.pc]? with
  | none => leave 0
  | some .return => leave top
  | some (.constant value) => next (value :: frame.stack)
  | some .nullConstant => next (0 :: frame.stack)
  | some .nop => next frame.stack
  | some (.load slot) => next ((frame.slots[slot]?).getD 0 :: frame.stack)
  | some (.define slot) | some (.store slot) =>
    .running ⟨frame.operations, frame.pc + 1, frame.stack, frame.slots.set slot top⟩ callers
  | some .pop => next below
  | some .negate =>
    match Width.i64.checkedNeg top with
    | some value => next (value :: below)
    | none => .fault .overflow
  | some .not => next ((if top = 0 then 1 else 0) :: below)
  | some (.compare condition) =>
    next ((if condition.holds (below.headD 0) top then 1 else 0) :: below.tail)
  | some (.jump target) => .running { frame with pc := target } callers
  | some (.jumpIfFalse target) =>
    .running { frame with pc := if top = 0 then target else frame.pc + 1 } callers
  | some (.callPlanned function arity) =>
    if depthLimit ≤ callers.length + 1 then .fault .callDepth
    else
      let callee := (functions[function]?).getD ⟨0, 0, []⟩
      .running ⟨callee.operations, 0, [],
          initialSlots callee.slots (frame.stack.take arity).reverse⟩
        ({ frame with pc := frame.pc + 1, stack := frame.stack.drop arity } :: callers)
  | some op =>
    match intArithmetic op (below.headD 0) top with
    | .ok value => next (value :: below.tail)
    | .error error => .fault error

/-- Reachability over the plain jump structure, as the planner computes it: a stack of indices to
visit and the indices visited so far. -/
def reachableFrom (code : List Instruction) : Nat → List Nat → List Nat → List Nat
  | 0, _, seen => seen
  | _ + 1, [], seen => seen
  | fuel + 1, index :: worklist, seen =>
    match code[index]? with
    | none => reachableFrom code fuel worklist seen
    | some instruction =>
      if index ∈ seen then reachableFrom code fuel worklist seen
      else
        let pushed := match instruction.op with
          | .return => []
          | .jump target => [target]
          | .jumpIfFalse target => [index + 1, target]
          | _ => [index + 1]
        reachableFrom code fuel (pushed ++ worklist) (index :: seen)

def reachableInstructions (code : List Instruction) : List Nat :=
  reachableFrom code (code.length * 2 + 1) [0] []

/-- `u32::try_from`. -/
def u32 (n : Nat) : Option Nat := if n < 2 ^ 32 then some n else none

abbrev PersistentSlot := String × Nat × Bool

structure Lowering where
  slots : List (String × Nat)
  nextSlot : Nat
  scopes : List (List String)
  persistent : List PersistentSlot
  returned : Bool
deriving DecidableEq, Repr

def lowerBinary : TokenKind → Option IntOp
  | .plus => some .add
  | .minus => some .subtract
  | .star => some .multiply
  | .slash => some .divide
  | .percent => some .modulo
  | .equalEqual => some (.compare .equal)
  | .bangEqual => some (.compare .notEqual)
  | .less => some (.compare .less)
  | .lessEqual => some (.compare .lessEqual)
  | .greater => some (.compare .greater)
  | .greaterEqual => some (.compare .greaterEqual)
  | _ => none

/-- Lowers one reachable instruction; `none` gives the plan up. -/
def lowerInstruction (state : Lowering) (op : Op) : Option (IntOp × Lowering) :=
  match op with
  | .constant (.int value) => some (.constant value, state)
  | .constant .null => some (.nullConstant, state)
  | .load name => (state.slots.lookup name).map fun slot => (.load slot, state)
  | .define name mutable =>
    if (state.slots.lookup name).isSome then none
    else match state.scopes with
      | [] => none
      | scope :: outer =>
        (u32 (state.nextSlot + 1)).map fun nextSlot => (.define state.nextSlot, { state with
            slots := (name, state.nextSlot) :: state.slots
            nextSlot := nextSlot
            scopes := (name :: scope) :: outer
            persistent := if outer.isEmpty then
              state.persistent ++ [(name, state.nextSlot, mutable)] else state.persistent })
  | .store name => (state.slots.lookup name).map fun slot => (.store slot, state)
  | .pop => some (.pop, state)
  | .unary .minus => some (.negate, state)
  | .unary .bang => some (.not, state)
  | .binary operator => (lowerBinary operator).map fun lowered => (lowered, state)
  | .jump target => (u32 target).map fun target => (.jump target, state)
  | .jumpIfFalse target => (u32 target).map fun target => (.jumpIfFalse target, state)
  | .enterScope => some (.nop, { state with scopes := [] :: state.scopes })
  | .exitScope =>
    -- block locals stop resolving, their slots stay allocated
    match state.scopes with
    | ended :: scope :: outer =>
      some (.nop, { state with
        slots := state.slots.filter fun entry => entry.1 ∉ ended
        scopes := scope :: outer })
    | _ => none
  | .return => some (.return, { state with returned := true })
  | _ => none

def lowerInstructions (reachable : List Nat) :
    Nat → List Instruction → Lowering → Option (List IntOp × Lowering)
  | _, [], state => some ([], state)
  | index, instruction :: rest, state =>
    if index ∈ reachable then do
      let (operation, state) ← lowerInstruction state instruction.op
      let (operations, state) ← lowerInstructions reachable (index + 1) rest state
      some (operation :: operations, state)
    else do
      -- dead code keeps its place so that jump targets stay aligned
      let (operations, state) ← lowerInstructions reachable (index + 1) rest state
      some (.nop :: operations, state)

/-- `integer_operations`: the slot count, the operations and the top-level bindings. -/
def integerOperations (parameters : List String) (code : List Instruction) :
    Option (Nat × List IntOp × List PersistentSlot) := do
  let start : Lowering := ⟨(parameters.zipIdx).reverse, parameters.length, [parameters], [], false⟩
  let (operations, state) ← lowerInstructions (reachableInstructions code) 0 code start
  if parameters ≠ [] ∧ ¬state.returned then none
  else some (state.nextSlot, operations, state.persistent)

/-- What a planned operand may hold. `word` joins an integer with the loop-seed null. -/
inductive Kind
  | int | bool | null | word
deriving DecidableEq, Repr

def Kind.join (left right : Kind) : Option Kind :=
  if left = right then some left
  else if left = .bool ∨ right = .bool then none
  else some .word

def joinStacks : List Kind → List Kind → Option (List Kind)
  | [], [] => some []
  | a :: as, b :: bs => do
    let joined ← a.join b
    let rest ← joinStacks as bs
    some (joined :: rest)
  | _, _ => none

/-- The successors of one operation with the operand kinds it leaves, or `none` when it would use
an operand of the wrong kind. -/
def kindStep (op : IntOp) (index : Nat) (root : Bool) (stack : List Kind) :
    Option (List (Nat × List Kind)) :=
  let next (stack : List Kind) : Option (List (Nat × List Kind)) := some [(index + 1, stack)]
  match op, stack with
  | .constant _, stack | .load _, stack => next (.int :: stack)
  | .nullConstant, stack => next (.null :: stack)
  | .define _, .int :: stack | .store _, .int :: stack => next (.int :: stack)
  | .pop, _ :: stack => next stack
  | .add, .int :: .int :: stack | .subtract, .int :: .int :: stack
  | .multiply, .int :: .int :: stack | .divide, .int :: .int :: stack
  | .modulo, .int :: .int :: stack => next (.int :: stack)
  | .compare _, .int :: .int :: stack => next (.bool :: stack)
  | .negate, .int :: stack => next (.int :: stack)
  | .not, .bool :: stack => next (.bool :: stack)
  | .nop, stack => next stack
  | .callPlanned _ arity, stack =>
    if arity ≤ stack.length ∧ (stack.take arity).all (· = .int) then
      next (.int :: stack.drop arity)
    else none
  | .jump target, stack => some [(target, stack)]
  | .jumpIfFalse target, .bool :: stack =>
    some [(index + 1, .bool :: stack), (target, .bool :: stack)]
  | .return, .int :: stack => if root ∧ stack ≠ [] then none else some []
  | _, _ => none

/-- `verify_integer_kinds` as a flow, which control may not leave. -/
@[simps]
def kindFlow (operations : List IntOp) (root : Bool) : Worklist.Flow (List Kind) where
  size := operations.length
  exit _ := false
  join := joinStacks
  transfer index stack := operations[index]?.bind fun op => kindStep op index root stack

/-- The kinds `verify_integer_kinds` has recorded when it succeeds; its worklist is last in first
out. A point is recorded again only after one of its operands became a `word`, which bounds the
rounds by the fuel given here. -/
def integerKinds (operations : List IntOp) (root : Bool) : Option (List (Nat × List Kind)) :=
  ((kindFlow operations root).run (· ++ ·) (2 * operations.length * (operations.length + 1) + 1)
    [(0, [])] []).join

/-- `verify_integer_kinds`. -/
def verifyIntegerKinds (operations : List IntOp) (root : Bool) : Bool :=
  (integerKinds operations root).isSome

/-- `integer_native_plan`: the slots and operations of a hot function. -/
def integerNativePlan (parameters : List String) (body : Chunk) : Option (Nat × List IntOp) := do
  let (slots, operations, _) ← integerOperations parameters body.code
  if verifyIntegerKinds operations false then some (slots, operations) else none

/-- Operands an operation pops and pushes. -/
def intOpEffect : IntOp → Nat × Nat
  | .constant _ | .nullConstant | .load _ => (0, 1)
  | .define _ | .store _ | .nop | .jump _ => (0, 0)
  | .pop | .return => (1, 0)
  | .jumpIfFalse _ => (0, 0)
  | .add | .subtract | .multiply | .divide | .modulo | .compare _ => (2, 1)
  | .negate | .not => (1, 1)
  | .callPlanned _ arity => (arity, 1)

/-- The operations control can go to next. -/
def intSuccessors (op : IntOp) (index : Nat) : List Nat :=
  match op with
  | .jump target => [target]
  | .jumpIfFalse target => [index + 1, target]
  | .return => []
  | _ => [index + 1]

/-- `int_stack_depths` as a flow. -/
@[simps]
def depthFlow (operations : List IntOp) : Worklist.Flow Nat where
  size := operations.length
  exit _ := false
  join g f := if g = f then some g else none
  transfer index depth := operations[index]?.bind fun op =>
    if depth < (intOpEffect op).1 then none
    else some ((intSuccessors op index).map (·, depth - (intOpEffect op).1 + (intOpEffect op).2))

/-- `int_stack_depths`: the operand depth of every operation that is reached. -/
def intStackDepths (operations : List IntOp) : Option (List (Nat × Nat)) :=
  ((depthFlow operations).run (· ++ ·) (operations.length * 2 + 1) [(0, 0)] []).join

structure CompiledFunction where
  parameters : Nat
  slots : Nat
  operations : List IntOp
deriving DecidableEq, Repr

/-- `CompiledFunction::compile`: the limits and the depth analysis the JIT insists on. -/
def CompiledFunction.compile (parameters slots : Nat) (operations : List IntOp) :
    Option CompiledFunction :=
  if slots < parameters ∨ 4096 < slots ∨ 1000000 < operations.length then none
  else if (intStackDepths operations).isSome then some ⟨parameters, slots, operations⟩
  else none

def CompiledFunction.enter (f : CompiledFunction) (arguments : List Int) : IntState :=
  .running ⟨f.operations, 0, [], initialSlots f.slots arguments⟩ []

end Nivren
