import Nivren.IntOps

/-! The verifiers' worklists.

`verifyIntegerKinds` of the planner and `intStackDepths` of the JIT are written apart. Both are
flows over the same graph: the first joins operand kinds, the second demands equal depths. Their
walks end, the facts they record are fixpoints, and the depths of the second are the lengths of the
first.
-/

namespace Nivren

open List Worklist

def intEdges (operations : List IntOp) (index : Nat) : List Nat :=
  (operations[index]?.map (intSuccessors · index)).getD []

def intEffect (operations : List IntOp) (index depth : Nat) : Nat :=
  (operations[index]?.map fun op => depth - (intOpEffect op).1 + (intOpEffect op).2).getD depth

/-- The operations control can reach from the first, whatever the operands decide. -/
def IntReachable (operations : List IntOp) (index : Nat) : Prop :=
  Relation.ReflTransGen (fun i j => j ∈ intEdges operations i) 0 index ∧ index < operations.length

variable {operations : List IntOp} {root : Bool} {op : IntOp} {index : Nat}

theorem Kind.join_join {g f h e : Kind} (hm : g.join f = some h)
    (he : e = f ∨ g.join e = some g) : h.join e = some h := by
  grind [Kind.join]

theorem joinStacks_self (stack : List Kind) : joinStacks stack stack = some stack := by
  induction stack with
  | nil => rfl
  | cons kind stack ih => simp [joinStacks, Kind.join, ih]

/-- Joining keeps the depth, and an operand it changes becomes a word. -/
theorem joinStacks_eq_some {g f h : List Kind} (hm : joinStacks g f = some h) :
    f.length = g.length ∧ h.length = g.length ∧
      (h = g ∨ h.countP (· ≠ .word) < g.countP (· ≠ .word)) := by
  fun_induction joinStacks g f generalizing h with
  | case1 => simp_all
  | case2 a as b bs ih =>
    simp only [Option.bind_eq_bind, Option.bind_eq_some_iff, Option.some.injEq] at hm
    obtain ⟨k, hk, rest, hr, rfl⟩ := hm
    obtain ⟨hf, hl, hc⟩ := ih hr
    have hk : k = a ∨ (k = .word ∧ a ≠ .word) := by grind [Kind.join]
    refine ⟨by simpa using hf, by simpa using hl, ?_⟩
    grind
  | case3 => cases hm

theorem joinStacks_join {g f h e : List Kind} (hm : joinStacks g f = some h)
    (he : e = f ∨ joinStacks g e = some g) : joinStacks h e = some h := by
  fun_induction joinStacks g f generalizing h e with
  | case1 =>
    cases hm
    grind [joinStacks]
  | case2 a as b bs ih =>
    simp only [Option.bind_eq_bind, Option.bind_eq_some_iff, Option.some.injEq] at hm
    obtain ⟨k, hk, rest, hr, rfl⟩ := hm
    obtain _ | ⟨c, cs⟩ := e
    · simp [joinStacks] at he
    have he : (c = b ∨ a.join c = some a) ∧ (cs = bs ∨ joinStacks as cs = some as) := by
      rcases he with he | he
      · cases he
        simp
      · simp only [joinStacks, Option.bind_eq_bind, Option.bind_eq_some_iff, Option.some.injEq,
          cons.injEq] at he
        obtain ⟨_, hc, _, hcs, rfl, rfl⟩ := he
        exact ⟨.inr hc, .inr hcs⟩
    simp [joinStacks, Kind.join_join hk he.1, ih hr he.2]
  | case3 => cases hm

theorem kindFlow_lawful : (kindFlow operations root).Lawful :=
  ⟨joinStacks_self, fun _ _ _ _ => joinStacks_join⟩

/-- Where the kinds go on, the depths go on with their lengths. -/
theorem transfer_kinds_depths {stack : List Kind} {next : List (Nat × List Kind)}
    (h : (kindFlow operations root).transfer index stack = some next) :
    (depthFlow operations).transfer index stack.length =
      some (next.map fun p => (p.1, p.2.length)) := by
  simp only [kindFlow_transfer, depthFlow_transfer, Option.bind_eq_some_iff] at h ⊢
  obtain ⟨op, hop, h⟩ := h
  refine ⟨op, hop, ?_⟩
  revert h
  fun_cases kindStep op index root stack
  all_goals simp +contextual [intOpEffect, intSuccessors]
  all_goals grind

theorem transfer_depths {depth : Nat} {next : List (Nat × Nat)}
    (h : (depthFlow operations).transfer index depth = some next) :
    next = (intEdges operations index).map (·, intEffect operations index depth) ∧
      next.length ≤ 2 ∧ intEffect operations index depth ≤ depth + 1 := by
  simp only [depthFlow_transfer, Option.bind_eq_some_iff] at h
  obtain ⟨op, hop, h⟩ := h
  have hpush : (intOpEffect op).2 ≤ 1 := by cases op <;> simp [intOpEffect]
  split at h
  · cases h
  · cases h
    refine ⟨by simp [intEdges, intEffect, hop], ?_, by simp [intEffect, hop]; omega⟩
    rw [length_map]
    fun_cases intSuccessors op index <;> simp

theorem depthFlow_ranked : (depthFlow operations).Ranked 0 0 2 0 :=
  .of_eq (fun _ _ => rfl) fun _ _ _ h => (transfer_depths h).2.1

theorem kindFlow_ranked : (kindFlow operations root).Ranked (countP (· ≠ .word)) length 2
    operations.length := by
  refine ⟨fun i stack next h => ?_, fun g f h hm => ?_, fun stack hs => ?_⟩
  · obtain ⟨hn, hl, he⟩ := transfer_depths (transfer_kinds_depths h)
    refine ⟨by simpa using hl, fun p hp => ?_⟩
    obtain ⟨j, -, hj⟩ := mem_map.mp (hn ▸ mem_map_of_mem hp)
    exact (congrArg Prod.snd hj).symm.trans_le he
  · obtain ⟨-, hl, hc⟩ := joinStacks_eq_some hm
    exact ⟨hl, hc.resolve_left⟩
  · exact countP_le_length.trans hs

theorem run_kinds_isSome (operations : List IntOp) (root : Bool) :
    ((kindFlow operations root).run (· ++ ·)
      (2 * operations.length * (operations.length + 1) + 1) [(0, [])] []).isSome := by
  refine Flow.run_start_isSome (fun _ _ => .rfl) kindFlow_ranked rfl ?_
  rw [kindFlow_size, Nat.mul_comm _ 2, Nat.mul_assoc]

variable {states : List (Nat × List Kind)}

theorem integerKinds_solution (h : integerKinds operations root = some states) :
    (kindFlow operations root).Solution (0, []) states :=
  Flow.run_solution (fun _ _ => .rfl) kindFlow_lawful (Option.join_eq_some_iff.mp h)

theorem integerKinds_fixpoint (h : integerKinds operations root = some states) :
    Fixpoint operations.length (intEdges operations) (intEffect operations) 0
      (fun i => (states.lookup i).map length) :=
  (integerKinds_solution h).fixpoint length (by simp)
    (fun _ _ hj => (joinStacks_eq_some hj).1.symm)
    fun _ _ _ hn => (transfer_depths (transfer_kinds_depths hn)).1

theorem intStackDepths_fixpoint {depths : List (Nat × Nat)}
    (h : intStackDepths operations = some depths) :
    Fixpoint operations.length (intEdges operations) (intEffect operations) 0
      (fun i => depths.lookup i) :=
  (Flow.run_solution (fun _ _ => .rfl) (.of_eq fun _ _ => rfl)
    (Option.join_eq_some_iff.mp h)).fixpoint_of_eq (by simp) (fun _ _ => rfl)
    fun _ _ _ hn => (transfer_depths hn).1

/-- The walk over depths only meets the lengths of the recorded stacks. -/
theorem intStackDepths_isSome (h : integerKinds operations root = some states) :
    ∃ depths, intStackDepths operations = some depths := by
  have hs := integerKinds_solution h
  have covered {p : Nat × List Kind} (hp : (kindFlow operations root).Covered states p) :
      ∃ stack, states.lookup p.1 = some stack ∧ p.2.length = stack.length := by
    obtain ⟨stack, hl, hj⟩ := hp.resolve_left (by simp)
    exact ⟨stack, hl, (joinStacks_eq_some hj).1⟩
  have hrun : ((depthFlow operations).run (· ++ ·) (operations.length * 2 + 1) [(0, 0)] []).isSome :=
    Flow.run_start_isSome (fun _ _ => .rfl) depthFlow_ranked rfl (by simp)
  obtain ⟨result, hr⟩ := Option.isSome_iff_exists.mp hrun
  obtain ⟨depths, rfl⟩ := Flow.run_ok (fun _ _ => .rfl)
    (fun i d => ∃ stack, states.lookup i = some stack ∧ d = stack.length)
    (by
      rintro i _ ⟨stack, hl, rfl⟩
      obtain ⟨hi, next, hn, hc⟩ := hs.closed i stack hl
      refine .inr ⟨hi, _, transfer_kinds_depths hn, fun p hp => ?_⟩
      obtain ⟨q, hq, rfl⟩ := mem_map.mp hp
      exact covered (hc q hq))
    (by
      rintro i _ _ ⟨stack, hl, rfl⟩ ⟨_, hl', rfl⟩
      rw [Option.some.inj (hl.symm.trans hl')]
      exact if_pos rfl) hr (covered hs.start)
  exact ⟨depths, by rw [intStackDepths, hr]; rfl⟩

/-- The two verifiers agree: where the planner accepts the operand kinds the depth analysis of the
JIT succeeds, and every operation control can reach has as many operands in both. -/
theorem verifyIntegerKinds_depths (operations : List IntOp) (root : Bool)
    (h : verifyIntegerKinds operations root = true) :
    ∃ states depths, integerKinds operations root = some states ∧
      intStackDepths operations = some depths ∧ ∀ i, IntReachable operations i →
        ∃ stack, states.lookup i = some stack ∧ depths.lookup i = some stack.length := by
  obtain ⟨states, hs⟩ := Option.isSome_iff_exists.mp h
  obtain ⟨depths, hd⟩ := intStackDepths_isSome hs
  refine ⟨states, depths, hs, hd, fun i hi => ?_⟩
  obtain ⟨d, hk, hd⟩ := (integerKinds_fixpoint hs).agree (intStackDepths_fixpoint hd)
    (fun i h => by simp [intEdges, h]) hi.1 hi.2
  obtain ⟨stack, hl, rfl⟩ := Option.map_eq_some_iff.mp hk
  exact ⟨stack, hl, hd⟩

theorem verifyIntegerKinds_depths_constant :
    verifyIntegerKinds [.constant 1, .return] false = true ∧ ∃ states depths,
      integerKinds [.constant 1, .return] false = some states ∧
      intStackDepths [.constant 1, .return] = some depths ∧
      ∀ i, IntReachable [.constant 1, .return] i →
        ∃ stack, states.lookup i = some stack ∧ depths.lookup i = some stack.length :=
  ⟨by decide, verifyIntegerKinds_depths _ _ (by decide)⟩

def stackEdges (code : List Instruction) (index : Nat) : List Nat :=
  (code[index]?.map fun instruction => successors instruction.op index).getD []

def stackChange (code : List Instruction) (index : Nat) (d : Depths) : Depths :=
  (code[index]?.map fun instruction =>
    ⟨d.operands + stackEffect instruction.op, d.scopes + scopeEffect instruction.op⟩).getD d

theorem verifyStack_fixpoint {code : List Instruction} {depths : List (Nat × Depths)}
    (h : verifyStack code = .ok depths) :
    Fixpoint code.length (stackEdges code) (stackChange code) ⟨0, 0⟩ (fun i => depths.lookup i) := by
  obtain ⟨hne, hs⟩ := verifyStack_solution h
  refine hs.fixpoint_of_eq (fun h => hne (length_eq_zero_iff.mp h.1.symm)) (fun _ _ => rfl)
    fun i d next hn => ?_
  have hn : verifyStackStep code i d = .ok next := toOption_eq_some.mp hn
  cases hi : code[i]? with
  | none => simp [verifyStackStep, hi] at hn
  | some instruction =>
    obtain ⟨op, span⟩ := instruction
    simp [(verifyStackStep_eq_ok hi hn).2.2.2, stackEdges, stackChange, hi]

end Nivren
