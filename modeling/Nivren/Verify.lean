import Nivren.Syntax
import Nivren.Library.Worklist
import Nivren.Library.Program

/-! The bytecode verifier.

`verifyStack` walks the control-flow graph of one chunk and records the operand and scope depth of
every instruction it reaches; `verifyInContext` checks a chunk and all chunks nested in it.
-/

namespace Nivren

open List

/-- How many operands an op reads from the stack before it runs. -/
def stackPops : Op → Nat
  | .constant _ | .load _ | .makeFunction .. | .defineRecord .. | .defineEnum ..
  | .defineProtocol .. | .adoptProtocol .. | .defineModule .. | .repeat .. | .sample ..
  | .jump _ | .enterScope | .exitScope | .loopExit _ | .prepare _ | .perform | .promise _ => 0
  | .pop | .store _ | .define .. | .unary _ | .jumpIfFalse _ | .coalesce _ | .propagate | .get _
  | .print | .return | .matchArms _ | .iterate .. | .ifCarries .. | .definePattern _
  | .using .. => 1
  | .binary _ | .index => 2
  | .call count | .performCall count => count + 1
  | .makeArray count | .makeText count => count

/-- The net change of the operand depth. -/
def stackEffect : Op → Int
  | .constant _ | .load _ | .makeFunction .. | .defineRecord .. | .defineEnum ..
  | .defineProtocol .. | .adoptProtocol .. | .defineModule .. | .repeat .. | .sample .. => 1
  | .pop => -1
  | .binary _ | .index => -1
  | .call count | .performCall count => -(count : Int)
  | .makeArray count | .makeText count => 1 - (count : Int)
  | .store _ | .define .. | .unary _ | .jump _ | .jumpIfFalse _ | .coalesce _ | .propagate
  | .get _ | .print | .enterScope | .exitScope | .return | .matchArms _ | .iterate ..
  | .loopExit _ | .ifCarries .. | .definePattern _ | .using .. => 0
  | .prepare _ | .perform | .promise _ => 0

def scopeEffect : Op → Int
  | .enterScope => 1
  | .exitScope => -1
  | _ => 0

/-- The instructions control can reach next inside the chunk. -/
def successors (op : Op) (index : Nat) : List Nat :=
  match op with
  | .jump target => [target]
  | .jumpIfFalse target | .coalesce target => [target, index + 1]
  | .return | .loopExit _ => []
  | _ => [index + 1]

/-- The operand and scope depth the verifier records for an instruction. -/
structure Depths where
  operands : Int
  scopes : Int
deriving DecidableEq, Repr

/-- One round of `verify_stack` at an instruction inside the chunk. -/
def verifyStackStep (code : List Instruction) (index : Nat) (depths : Depths) :
    Except NivError (List (Nat × Depths)) :=
  match code[index]? with
  | none => .error (NivError.new "bytecode jump is out of bounds" 1 1)
  | some ⟨op, span⟩ =>
    if depths.operands < stackPops op then .error (errorAt "bytecode stack underflow" span)
    else
      let next : Depths := ⟨depths.operands + stackEffect op, depths.scopes + scopeEffect op⟩
      if next.operands < 0 then .error (errorAt "bytecode stack underflow" span)
      else if next.scopes < 0 then .error (errorAt "bytecode scope underflow" span)
      else .ok ((successors op index).map (·, next))

/-- What `verify_stack` demands where control falls off the end. -/
def verifyStackEnd (depths : Depths) : Except NivError Unit :=
  if depths.operands < 1 then .error (NivError.new "bytecode leaves no result" 1 1)
  else if depths.scopes ≠ 0 then .error (NivError.new "bytecode leaves an open scope" 1 1)
  else .ok ()

/-- The position of an instruction, for the error of two paths that disagree. -/
def spanAt (code : List Instruction) (index : Nat) : Span :=
  (code[index]?.map Instruction.span).getD ⟨1, 1⟩

/-- The data-flow analysis behind `verify_stack`. -/
def stackAnalysis (code : List Instruction) : Worklist.Analysis Depths NivError where
  size := code.length
  exit := verifyStackEnd
  outside := NivError.new "bytecode jump is out of bounds" 1 1
  conflict index := errorAt "bytecode paths disagree on stack depth" (spanAt code index)
  transfer := verifyStackStep code

theorem successors_length_le (op : Op) (index : Nat) : (successors op index).length ≤ 2 := by
  unfold successors
  split <;> simp

variable {code : List Instruction} {next : List (Nat × Depths)}

theorem verifyStackStep_length_le {index : Nat} {depths : Depths}
    (h : verifyStackStep code index depths = .ok next) :
    next.length ≤ 2 := by
  unfold verifyStackStep at h
  split at h
  · cases h
  · simp only at h
    split at h
    · cases h
    · split at h
      · cases h
      · split at h
        · cases h
        · cases h
          simpa using successors_length_le _ _

theorem fifo_perm (next queue : List (Nat × Depths)) : queue ++ next ~ next ++ queue :=
  perm_append_comm

theorem stackAnalysis_loop_isSome (code : List Instruction) :
    ((stackAnalysis code).loop (code.length * 2 + 1) [(0, ⟨0, 0⟩)] []).isSome := by
  have hr : (stackAnalysis code).flow.Ranked 0 0 2 0 := .of_eq (fun _ _ => rfl) fun _ _ _ h =>
    verifyStackStep_length_le (Worklist.toOption_eq_some.mp h)
  rw [← Option.isSome_map (f := Except.toOption), Worklist.Analysis.loop_eq_run]
  exact Worklist.Flow.run_start_isSome fifo_perm hr rfl (by simp [stackAnalysis])

/-- `verify_stack`, returning the depths it recorded. -/
def verifyStack (code : List Instruction) : Except NivError (List (Nat × Depths)) :=
  if code.isEmpty then .error (NivError.new "bytecode chunk is empty" 1 1)
  else ((stackAnalysis code).loop (code.length * 2 + 1) [(0, ⟨0, 0⟩)] []).get
    (stackAnalysis_loop_isSome code)

/-- The operands `validate_instruction` lets through: known operators and jumps that stay within
the chunk. -/
def validOperand (op : Op) (length : Nat) : Bool :=
  match op with
  | .unary operator => operator ∈ [.minus, .bang]
  | .binary operator => operator ∈ [.plus, .minus, .star, .slash, .percent, .equalEqual,
      .bangEqual, .greater, .greaterEqual, .less, .lessEqual]
  | .jump target | .jumpIfFalse target | .coalesce target => target ≤ length
  | _ => true

def validateInstruction (instruction : Instruction) (length : Nat) : Except NivError Unit :=
  if validOperand instruction.op length then .ok ()
  else .error (errorAt "invalid bytecode operand" instruction.span)

mutual

/-- Verifies a chunk and every chunk nested in it; `inLoop` allows `stop` and `skip`. -/
def verifyInContext : Chunk → Bool → Except NivError Unit
  | ⟨version, code⟩, inLoop =>
    if version ≠ bytecodeVersion then
      .error (NivError.new s!"unsupported bytecode version {version}" 1 1)
    else do
      verifyInstructions code code.length inLoop
      let _ ← verifyStack code
      .ok ()

def verifyInstructions : List Instruction → Nat → Bool → Except NivError Unit
  | [], _, _ => .ok ()
  | instruction :: rest, length, inLoop => do
    validateInstruction instruction length
    verifyNested instruction inLoop
    verifyInstructions rest length inLoop

/-- The chunks inside one instruction. Only loop bodies may hold loop exits, and only the
branches of `when … carries` pass the permission on. -/
def verifyNested : Instruction → Bool → Except NivError Unit
  | ⟨.makeFunction _ _ body, _⟩, _ => verifyInContext body false
  | ⟨.defineModule _ body _, _⟩, _ => verifyInContext body false
  | ⟨.sample _ body _, _⟩, _ => verifyInContext body false
  | ⟨.using _ body, _⟩, _ => verifyInContext body false
  | ⟨.iterate _ _ body, _⟩, _ => verifyInContext body true
  | ⟨.repeat condition body, _⟩, _ => do
    verifyInContext condition false
    verifyInContext body true
  | ⟨.ifCarries _ thenBranch elseBranch, _⟩, inLoop => do
    verifyInContext thenBranch inLoop
    verifyOptional elseBranch inLoop
  | ⟨.loopExit skip, span⟩, inLoop =>
    if inLoop then .ok ()
    else .error (errorAt
      ("'" ++ (if skip then "skip" else "stop") ++ "' bytecode outside a loop body") span)
  | ⟨.matchArms arms, _⟩, _ => verifyArms arms
  | _, _ => .ok ()

def verifyOptional : Option Chunk → Bool → Except NivError Unit
  | none, _ => .ok ()
  | some chunk, inLoop => verifyInContext chunk inLoop

def verifyArms : List BytecodeArm → Except NivError Unit
  | [] => .ok ()
  | ⟨_, guard, body, _⟩ :: rest => do
    verifyOptional guard false
    verifyInContext body false
    verifyArms rest

end

/-- `verify`: the check every chunk passes before it runs. -/
def verify (chunk : Chunk) : Except NivError Unit := verifyInContext chunk false

/-- The chunks nested in an op, with the loop context each is verified in. -/
def nested (op : Op) (inLoop : Bool) : List (Chunk × Bool) :=
  match op with
  | .makeFunction _ _ body | .defineModule _ body _ | .sample _ body _ | .using _ body =>
    [(body, false)]
  | .iterate _ _ body => [(body, true)]
  | .repeat condition body => [(condition, false), (body, true)]
  | .ifCarries _ thenBranch elseBranch =>
    (thenBranch, inLoop) :: elseBranch.toList.map (·, inLoop)
  | .matchArms arms =>
    arms.flatMap fun arm => arm.guard.toList.map (·, false) ++ [(arm.body, false)]
  | _ => []

def Verified (chunk : Chunk) (inLoop : Bool) : Prop := verifyInContext chunk inLoop = .ok ()

variable {inLoop : Bool} {c : Chunk}

theorem verifyOptional_eq_ok {chunk : Option Chunk}
    (h : verifyOptional chunk inLoop = .ok ()) (hc : c ∈ chunk) :
    Verified c inLoop := by
  cases hc
  simpa [verifyOptional, Verified] using h

theorem verifyArms_eq_ok {arms : List BytecodeArm} (h : verifyArms arms = .ok ())
    {arm : BytecodeArm} (harm : arm ∈ arms) :
    (∀ guard ∈ arm.guard, Verified guard false) ∧ Verified arm.body false := by
  induction arms with
  | nil => cases harm
  | cons head rest ih =>
    obtain ⟨patterns, guard, body, span⟩ := head
    simp only [verifyArms, bind_eq_ok_iff] at h
    obtain ⟨⟨⟩, hg, ⟨⟩, hb, hr⟩ := h
    rcases mem_cons.mp harm with rfl | harm
    · exact ⟨fun g hg' => verifyOptional_eq_ok hg hg', hb⟩
    · exact ih hr harm

variable {instruction : Instruction}

theorem verifyNested_eq_ok (h : verifyNested instruction inLoop = .ok ()) {l : Bool}
    (hc : (c, l) ∈ nested instruction.op inLoop) : Verified c l := by
  obtain ⟨op, span⟩ := instruction
  cases op
  all_goals simp only [nested, not_mem_nil, mem_cons,
    Prod.mk.injEq, or_false, mem_map, mem_flatMap, mem_append] at hc
  case makeFunction | defineModule | sample | «using» | iterate =>
    obtain ⟨rfl, rfl⟩ := hc
    simpa [verifyNested, Verified] using h
  case «repeat» =>
    simp only [verifyNested, bind_eq_ok_iff] at h
    obtain ⟨⟨⟩, hco, hb⟩ := h
    rcases hc with ⟨rfl, rfl⟩ | ⟨rfl, rfl⟩
    · exact hco
    · exact hb
  case ifCarries =>
    simp only [verifyNested, bind_eq_ok_iff] at h
    obtain ⟨⟨⟩, hth, hel⟩ := h
    rcases hc with ⟨rfl, rfl⟩ | ⟨a, ha, rfl, rfl⟩
    · exact hth
    · exact verifyOptional_eq_ok hel (by simpa using ha)
  case matchArms arms =>
    simp only [verifyNested] at h
    obtain ⟨arm, harm, ⟨g, hg, rfl, rfl⟩ | ⟨rfl, rfl⟩⟩ := hc
    · exact (verifyArms_eq_ok h harm).1 _ (by simpa using hg)
    · exact (verifyArms_eq_ok h harm).2

theorem verifyInstructions_eq_ok {length : Nat} (h : verifyInstructions code length inLoop = .ok ())
    (hi : instruction ∈ code) :
    validateInstruction instruction length = .ok () ∧ verifyNested instruction inLoop = .ok () := by
  induction code with
  | nil => cases hi
  | cons head rest ih =>
    simp only [verifyInstructions, bind_eq_ok_iff] at h
    obtain ⟨⟨⟩, hv, ⟨⟩, hn, hr⟩ := h
    rcases mem_cons.mp hi with rfl | hi
    · exact ⟨hv, hn⟩
    · exact ih hr hi

/-- The depths recorded for a chunk; none for a chunk `verify_stack` rejects. -/
def depthAt (chunk : Chunk) (index : Nat) : Option Depths :=
  match verifyStack chunk.code with
  | .ok depths => depths.lookup index
  | .error _ => none

/-- A place control may reach with the given depths: a recorded instruction, or the end of the
chunk with a result and no open scope. -/
def Reaches (chunk : Chunk) (index : Nat) (depths : Depths) : Prop :=
  (index = chunk.code.length ∧ 1 ≤ depths.operands ∧ depths.scopes = 0) ∨
    depthAt chunk index = some depths

variable {span : Span} {d : Depths} {i : Nat}

theorem covered_iff_reaches {chunk : Chunk} {facts : List (Nat × Depths)}
    (hf : ∀ i, depthAt chunk i = facts.lookup i) :
    (stackAnalysis chunk.code).flow.Covered facts (i, d) ↔ Reaches chunk i d := by
  have het : (verifyStackEnd d).isOk ↔ 1 ≤ d.operands ∧ d.scopes = 0 := by
    unfold verifyStackEnd
    split
    · simp [Except.isOk, Except.toBool]; omega
    · split <;> simp_all [Except.isOk, Except.toBool]
  simp [Worklist.Flow.Covered, Reaches, hf, stackAnalysis, het]

theorem verifyStackStep_eq_ok {index : Nat} {op : Op} (hi : code[index]? = some ⟨op, span⟩)
    (h : verifyStackStep code index d = .ok next) :
    stackPops op ≤ d.operands ∧ 0 ≤ d.operands + stackEffect op ∧ 0 ≤ d.scopes + scopeEffect op ∧
      next = (successors op index).map
        (·, ⟨d.operands + stackEffect op, d.scopes + scopeEffect op⟩) := by
  rw [verifyStackStep, hi] at h
  simp only at h
  split at h
  · cases h
  · split at h
    · cases h
    · split at h
      · cases h
      · cases h
        refine ⟨by omega, by omega, by omega, rfl⟩

theorem verifyStack_solution {depths : List (Nat × Depths)} (h : verifyStack code = .ok depths) :
    code ≠ [] ∧ (stackAnalysis code).flow.Solution (0, ⟨0, 0⟩) depths := by
  unfold verifyStack at h
  split at h
  · cases h
  next hne =>
    have hr := (stackAnalysis code).loop_eq_run (code.length * 2 + 1) [(0, ⟨0, 0⟩)] []
    rw [← Option.some_get (stackAnalysis_loop_isSome _), h] at hr
    exact ⟨by simpa using hne, Worklist.Flow.run_solution fifo_perm (.of_eq fun _ _ => rfl) hr.symm⟩

namespace Verified

variable {chunk : Chunk} {inLoop : Bool} (h : Verified chunk inLoop)

include h

theorem parts :
    verifyInstructions chunk.code chunk.code.length inLoop = .ok () ∧
      ∃ depths, verifyStack chunk.code = .ok depths := by
  obtain ⟨version, code⟩ := chunk
  unfold Verified verifyInContext at h
  split at h
  · cases h
  · simp only [bind_eq_ok_iff, and_true] at h
    obtain ⟨⟨⟩, h₁, d, h₂⟩ := h
    exact ⟨h₁, d, h₂⟩

theorem nested (hi : instruction ∈ chunk.code) {l : Bool}
    (hc : (c, l) ∈ nested instruction.op inLoop) : Verified c l :=
  verifyNested_eq_ok (verifyInstructions_eq_ok h.parts.1 hi).2 hc

theorem validOperand (hi : instruction ∈ chunk.code) :
    validOperand instruction.op chunk.code.length := by
  have hv := (verifyInstructions_eq_ok h.parts.1 hi).1
  unfold validateInstruction at hv
  split at hv
  · assumption
  · cases hv

theorem inLoop_of_loopExit {skip : Bool}
    (hi : ⟨.loopExit skip, span⟩ ∈ chunk.code) : inLoop = true := by
  have hn := (verifyInstructions_eq_ok h.parts.1 hi).2
  rw [verifyNested] at hn
  split at hn
  · assumption
  · cases hn

theorem solution :
    ∃ facts, (∀ i, depthAt chunk i = facts.lookup i) ∧ chunk.code ≠ [] ∧
      (stackAnalysis chunk.code).flow.Solution (0, ⟨0, 0⟩) facts := by
  obtain ⟨depths, hd⟩ := h.parts.2
  exact ⟨depths, fun i => by simp only [depthAt, hd], verifyStack_solution hd⟩

theorem reaches_zero : Reaches chunk 0 ⟨0, 0⟩ := by
  obtain ⟨facts, hf, -, hs⟩ := h.solution
  exact (covered_iff_reaches hf).mp hs.start

/-- What the verifier establishes for an instruction control can reach: enough operands, no
negative depth, and the depths after it at every place control can go. -/
theorem reaches_step {op : Op} (hr : Reaches chunk i d) (hi : chunk.code[i]? = some ⟨op, span⟩) :
    stackPops op ≤ d.operands ∧ 0 ≤ d.operands + stackEffect op ∧
      0 ≤ d.scopes + scopeEffect op ∧ ∀ j ∈ successors op i,
        Reaches chunk j ⟨d.operands + stackEffect op, d.scopes + scopeEffect op⟩ := by
  obtain ⟨facts, hf, -, hs⟩ := h.solution
  have hlt : i < chunk.code.length := (List.getElem?_eq_some_iff.mp hi).1
  have hd : facts.lookup i = some d := by
    rcases hr with ⟨rfl, -⟩ | hr
    · omega
    · rwa [← hf]
  obtain ⟨-, next, hn, hc⟩ := hs.closed i d hd
  obtain ⟨h₁, h₂, h₃, rfl⟩ := verifyStackStep_eq_ok hi (Worklist.toOption_eq_some.mp hn)
  refine ⟨h₁, h₂, h₃, fun j hj => ?_⟩
  exact (covered_iff_reaches hf).mp (hc _ (mem_map_of_mem hj))

theorem reaches_le (hr : Reaches chunk i d) : i ≤ chunk.code.length := by
  obtain ⟨facts, hf, -, hs⟩ := h.solution
  rcases hr with ⟨rfl, -⟩ | hr
  · exact Nat.le_refl _
  · exact Nat.le_of_lt (hs.closed i d (by rwa [← hf])).1

theorem reaches_end (hr : Reaches chunk i d)
    (hi : chunk.code[i]? = none) : 1 ≤ d.operands ∧ d.scopes = 0 := by
  obtain ⟨facts, hf, -, hs⟩ := h.solution
  rcases hr with ⟨-, hr⟩ | hr
  · exact hr
  · have hlt : i < chunk.code.length := (hs.closed i d (by rwa [← hf])).1
    exact absurd hi (by simpa using hlt)

omit h in
theorem depthAt_of_reaches (hr : Reaches chunk i d) (hi : i < chunk.code.length) :
    depthAt chunk i = some d := by
  rcases hr with ⟨rfl, -⟩ | hr
  · exact absurd hi (Nat.lt_irrefl _)
  · exact hr

end Verified

end Nivren
