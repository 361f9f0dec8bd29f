import Nivren.CompileFlow

/-! Which programs the verifier accepts once they are compiled.

The only thing that makes `compile` refuse a parsed program is a `stop` or `skip` outside the chunk
of a loop body. Everything else about compiled code (operands, jumps, stack and scope depths, nested
chunks) is always in order.
-/

namespace Nivren

open Depths (after enter mk nonneg_zero push pushes pushes_one pushes_push)

mutual

/-- The operators and pipeline stages of an expression are ones the parser builds. -/
def Expr.parsed : Expr → Bool
  | .literal .. | .variable .. => true
  | .text pieces _ => TextPiece.allParsed pieces
  | .assign _ value _ | .propagate value _ | .perform value _ | .get value _ _ => value.parsed
  | .unary operator value _ => validOperand (.unary operator) 0 && value.parsed
  | .binary left operator right _ =>
    validOperand (.binary operator) 0 && left.parsed && right.parsed
  | .logical left _ right _ | .index left right _ | .coalesce left right _ =>
    left.parsed && right.parsed
  | .call callee arguments _ _ => callee.parsed && Expr.allParsed arguments
  | .array values _ => Expr.allParsed values
  | .through input (.call callee arguments _ _) _ =>
    input.parsed && callee.parsed && Expr.allParsed arguments
  | .through input (.variable ..) _ => input.parsed
  | .through input (.get object _ _) _ => input.parsed && object.parsed
  | .through .. => false
  | .matchArms subject arms _ => subject.parsed && MatchArm.allParsed arms

def Expr.allParsed : List Expr → Bool
  | [] => true
  | value :: rest => value.parsed && Expr.allParsed rest

def TextPiece.allParsed : List TextPiece → Bool
  | [] => true
  | .literal _ :: rest => TextPiece.allParsed rest
  | .hole value :: rest => value.parsed && TextPiece.allParsed rest

def MatchArm.allParsed : List MatchArm → Bool
  | [] => true
  | ⟨_, guard, value, _⟩ :: rest =>
    Expr.optionalParsed guard && value.parsed && MatchArm.allParsed rest

def Expr.optionalParsed : Option Expr → Bool
  | none => true
  | some value => value.parsed

end

mutual

def Stmt.parsed : Stmt → Bool
  | .prepare _ _ value _ | .letStmt _ _ _ value _ | .letPattern _ value _ | .expression value
  | .print value _ => value.parsed
  | .block body _ | .sample _ body _ _ | .function _ _ _ _ _ _ body _ | .module _ body _ _ =>
    Stmt.allParsed body
  | .ifStmt value thenBranch elseBranch _ | .ifCarries value _ thenBranch elseBranch _ =>
    value.parsed && thenBranch.parsed && Stmt.optionalParsed elseBranch
  | .whileStmt value body _ | .forStmt _ _ value body _ | .using _ value body _ =>
    value.parsed && body.parsed
  | .returnStmt value _ => Expr.optionalParsed value
  -- the bodies and arguments of generators are not compiled
  | .generator .. | .expand .. | .stop _ | .skip _ | .promise .. | .trusted .. | .record ..
  | .enum .. | .protocol .. | .adoption .. | .importStmt .. | .exportStmt .. | .doc .. => true

def Stmt.allParsed : List Stmt → Bool
  | [] => true
  | statement :: rest => statement.parsed && Stmt.allParsed rest

def Stmt.optionalParsed : Option Stmt → Bool
  | none => true
  | some branch => branch.parsed

end

mutual

/-- Every `stop` and `skip` stands in a loop body. Blocks and branches pass the permission of
their context on; functions, modules, samples and `using` bodies start without it. -/
def Stmt.exitsPlaced (inLoop : Bool) : Stmt → Bool
  | .stop _ | .skip _ => inLoop
  | .block body _ => Stmt.allPlaced inLoop body
  | .ifStmt _ thenBranch elseBranch _ | .ifCarries _ _ thenBranch elseBranch _ =>
    thenBranch.exitsPlaced inLoop && Stmt.optionalPlaced inLoop elseBranch
  | .whileStmt _ body _ | .forStmt _ _ _ body _ => body.exitsPlaced true
  | .using _ _ body _ => body.exitsPlaced false
  | .sample _ body _ _ | .function _ _ _ _ _ _ body _ | .module _ body _ _ =>
    Stmt.allPlaced false body
  | _ => true

def Stmt.allPlaced (inLoop : Bool) : List Stmt → Bool
  | [] => true
  | statement :: rest => statement.exitsPlaced inLoop && Stmt.allPlaced inLoop rest

def Stmt.optionalPlaced (inLoop : Bool) : Option Stmt → Bool
  | none => true
  | some branch => branch.exitsPlaced inLoop

end

variable {span : Span} {op : Op}

/-- The op takes `n` operands, leaves `m` and goes on to the next instruction. -/
structure Op.Collects (op : Op) (n m : ℕ) : Prop where
  pops : stackPops op = n := by rfl
  effect : stackEffect op = m - (n : Int) := by rfl
  scopes : scopeEffect op = 0 := by rfl
  next : ∀ i, successors op i = [i + 1] := by exact fun _ => rfl
  valid : ∀ length, validOperand op length = true := by exact fun _ => rfl

def Op.tests (op : Op) (target : ℕ) : Prop := op = .jumpIfFalse target ∨ op = .coalesce target

/-- Code added behind an index, with the depths before and after it and the places outside that it
jumps to. The operands are valid in any code that holds it and those places, and the chunks inside
verify where `placed` allows. -/
structure Emits (base : ℕ) (added : List Instruction) (d e : Depths) (exits : List (ℕ × Depths))
    (placed : Bool → Prop) : Prop where
  stretch : Stretch base added d e exits
  operands : ∀ i ∈ added, ∀ length ≥ base + added.length, (∀ x ∈ exits, x.1 ≤ length) →
    validOperand i.op length = true
  nested : ∀ inLoop, (∀ i ∈ added, verifyNested i inLoop = .ok ()) ↔ placed inLoop

namespace Emits

variable {base target n m : ℕ} {a b : List Instruction} {d e f : Depths} {X Y : List (ℕ × Depths)}
  {P Q : Bool → Prop}

theorem append (ha : Emits base a d e X P) (Z : List (ℕ × Depths))
    (hb : Emits (base + a.length) b e f Y Q)
    (hc : ∀ x ∈ X ++ Y,
      x ∈ Z ∨ x ∈ [(base, d), (base + a.length, e), (base + a.length + b.length, f)]) :
    Emits base (a ++ b) d f Z fun inLoop => P inLoop ∧ Q inLoop where
  stretch := ha.stretch.append hb.stretch hc
  operands := by
    intro i hi length hl hZ
    rw [List.length_append, ← Nat.add_assoc] at hl
    have hall : ∀ x ∈ X ++ Y, x.1 ≤ length := by
      intro x hx
      rcases hc x hx with hx | hx
      · exact hZ x hx
      · simp only [List.mem_cons, List.not_mem_nil, or_false] at hx
        rcases hx with rfl | rfl | rfl <;> dsimp only <;> omega
    rw [List.forall_mem_append] at hall
    rcases List.mem_append.mp hi with hi | hi
    · exact ha.operands i hi length (by omega) hall.1
    · exact hb.operands i hi length hl hall.2
  nested := by
    intro inLoop
    rw [List.forall_mem_append, ha.nested, hb.nested]

theorem moved {base' : ℕ} (h : Emits base a d e X P) (hb : base = base') :
    Emits base' a d e X P :=
  hb ▸ h

theorem join (ha : Emits base a d e X P) (hb : Emits (base + a.length) b e f Y Q) :
    Emits base (a ++ b) d f (X ++ Y) fun inLoop => P inLoop ∧ Q inLoop :=
  ha.append _ hb fun _ => .inl

theorem one (hp : stackPops op ≤ d.operands) (ha : d.after op = f) (hf : f.Nonneg)
    (hs : ∀ j ∈ successors op base, j = base + 1 ∧ e = f ∨ (j, f) ∈ X)
    (hv : ∀ length, (∀ x ∈ X, x.1 ≤ length) → validOperand op length = true)
    (hn : ∀ inLoop, verifyNested ⟨op, span⟩ inLoop = .ok () ↔ P inLoop) :
    Emits base [⟨op, span⟩] d e X P where
  stretch := .one hp ha hf hs
  operands := by simpa using fun length _ => hv length
  nested := by simpa using hn

theorem tests (hop : op.tests target) (hd : d.Nonneg) :
    Emits base [⟨op, span⟩] d.push d.push [(target, d.push)] fun _ => True := by
  rcases hop with rfl | rfl <;> exact .one hd.one_le_push (Depths.after_eq_self rfl rfl) hd.push
    (by simp [successors]) (by simp [validOperand]) (by simp [verifyNested])

theorem jump (hd : d.Nonneg) :
    Emits base [⟨.jump target, span⟩] d e [(target, d)] fun _ => True :=
  .one hd.operands (Depths.after_eq_self rfl rfl) hd (by simp [successors]) (by simp [validOperand])
    (by simp [verifyNested])

theorem collect (hd : d.Nonneg) (hop : op.Collects n m) :
    Emits base [⟨op, span⟩] (d.pushes n) (d.pushes m) []
      fun inLoop => verifyNested ⟨op, span⟩ inLoop = .ok () := by
  have hops := hd.operands
  refine @one _ op base _ _ (d.pushes m) _ _ ?_ ?_ ⟨?_, hd.scopes⟩ ?_ (fun _ _ => hop.valid _)
    fun _ => .rfl
  · simp only [hop.pops, pushes]
    omega
  · simp only [after, pushes, hop.effect, hop.scopes, mk.injEq]
    omega
  · simp only [pushes]
    omega
  · simp [hop.next]

theorem pop (hd : d.Nonneg) : Emits base [⟨.pop, span⟩] d.push d [] fun _ => True := by
  simpa [verifyNested] using @collect span .pop base 1 0 d hd {}

end Emits

def Grows (code code' : List Instruction) (d e : Depths) (placed : Bool → Prop) : Prop :=
  ∃ added, code' = code ++ added ∧ Emits code.length added d e [] placed

/-- The code grows by what verifies inside a loop and outside. -/
abbrev Yields (code code' : List Instruction) (d e : Depths) : Prop :=
  Grows code code' d e fun _ => True

namespace Grows

open Compiler
open List (append_assoc cons_append nil_append length_append length_cons length_nil)

variable {code code₁ code₂ code₃ : List Instruction} {d e f : Depths} {P Q : Bool → Prop}
  {span : Span} {op : Op}

theorem refl : Yields code code d d :=
  ⟨[], by simp, .nil, by simp, by simp⟩

theorem trans (h₁ : Grows code code₁ d e P) (h₂ : Grows code₁ code₂ e f Q) :
    Grows code code₂ d f fun inLoop => P inLoop ∧ Q inLoop := by
  obtain ⟨a, rfl, ha⟩ := h₁
  obtain ⟨b, rfl, hb⟩ := h₂
  rw [List.length_append] at hb
  exact ⟨a ++ b, by simp, ha.append [] hb nofun⟩

theorem congr (h : Grows code code₁ d e P) (hP : ∀ inLoop, P inLoop ↔ Q inLoop) :
    Grows code code₁ d e Q := by
  obtain ⟨a, ha, hem⟩ := h
  exact ⟨a, ha, hem.stretch, hem.operands, fun inLoop => (hem.nested inLoop).trans (hP inLoop)⟩

theorem next (h₁ : Yields code code₁ d e) (h₂ : Yields code₁ code₂ e f) : Yields code code₂ d f :=
  (h₁.trans h₂).congr (by simp)

variable {n m : ℕ}

theorem collect (hd : d.Nonneg) (hop : op.Collects n m) :
    Grows code (emit code op span) (d.pushes n) (d.pushes m)
      fun inLoop => verifyNested ⟨op, span⟩ inLoop = .ok () :=
  ⟨_, rfl, .collect hd hop⟩

theorem quiet (hd : d.Nonneg) (hop : op.Collects n m)
    (hn : ∀ inLoop, verifyNested ⟨op, span⟩ inLoop = .ok ()) :
    Yields code (emit code op span) (d.pushes n) (d.pushes m) :=
  (collect hd hop).congr (by simp [hn])

theorem keep (hd : d.Nonneg) (hop : op.Collects 0 0)
    (hn : ∀ inLoop, verifyNested ⟨op, span⟩ inLoop = .ok ()) :
    Yields code (emit code op span) d d := by
  simpa using @quiet code d span op 0 0 hd hop hn

theorem discard (span : Span) (hd : d.Nonneg) : Yields code (emit code .pop span) d.push d :=
  ⟨_, rfl, .pop hd⟩

theorem leaveReturn (span : Span) (hd : d.Nonneg) :
    Yields code (emit code .return span) d.push e :=
  ⟨_, rfl, .one hd.one_le_push (Depths.after_eq_self rfl rfl) hd.push (by simp [successors])
    (by simp [validOperand]) (by simp [verifyNested])⟩

theorem leaveLoop (span : Span) (hd : d.Nonneg) (skip : Bool) :
    Grows code (emit code (.loopExit skip) span) d e fun inLoop => inLoop = true := by
  refine ⟨_, rfl, .one hd.operands (Depths.after_eq_self rfl rfl) hd (by simp [successors])
    (by simp [validOperand]) fun inLoop => ?_⟩
  rw [verifyNested]
  cases inLoop <;> simp

theorem enterScope (hd : d.Nonneg) :
    Yields code (emit code .enterScope span) d d.enter := by
  refine ⟨_, rfl, .one hd.operands ?_ hd.enter (by simp [successors]) (by simp [validOperand])
    (by simp [verifyNested])⟩
  simp [after, enter, stackEffect, scopeEffect]

theorem exitScope (hd : d.Nonneg) :
    Yields code (emit code .exitScope span) d.enter d := by
  refine ⟨_, rfl, .one hd.operands ?_ hd (by simp [successors]) (by simp [validOperand])
    (by simp [verifyNested])⟩
  simp [after, enter, stackEffect, scopeEffect]

@[simp] theorem emit_length : (emit code op span).length = code.length + 1 := by simp [emit]

section Patch

variable {a b : List Instruction} {n target : ℕ} {i : Instruction}

theorem patch_append : patch (a ++ b) (a.length + n) target = a ++ patch b n target := by
  induction a with
  | nil => rw [List.nil_append, List.length_nil, Nat.zero_add, List.nil_append]
  | cons head a ih =>
    rw [List.cons_append, List.length_cons, Nat.add_right_comm, patch, List.modify_succ_cons]
    exact congrArg (head :: ·) ih

theorem patch_append_zero : patch (a ++ b) a.length target = a ++ patch b 0 target :=
  @patch_append a b 0 target

theorem patch_zero : patch (i :: b) 0 target = ⟨retarget target i.op, i.span⟩ :: b := rfl

theorem patch_succ : patch (i :: b) (n + 1) target = i :: patch b n target := rfl

end Patch

theorem of_emits {added : List Instruction} (h : Emits code.length added d e [] P)
    (hP : ∀ inLoop, P inLoop ↔ Q inLoop) : Grows code (code ++ added) d e Q :=
  congr ⟨added, rfl, h⟩ hP

theorem keepOr (hd : d.Nonneg) (hop : ∀ target, (retarget target op).tests target)
    (h₁ : Yields code code₁ d d.push)
    (h₂ : Yields (emit (emit code₁ op span) .pop span) code₂ d d.push) :
    Yields code (patch code₂ code₁.length code₂.length) d d.push := by
  obtain ⟨a, rfl, ha⟩ := h₁
  obtain ⟨b, rfl, hb⟩ := h₂
  simp only [emit, append_assoc, cons_append, nil_append, length_append, length_cons, length_nil,
    patch_append, patch_append_zero, patch_zero] at hb ⊢
  refine of_emits (ha.append [] ((Emits.tests (hop _) hd).append []
    ((Emits.pop hd).join hb) ?_) ?_) (by simp)
  all_goals simp
  omega

theorem orElse (hd : d.Nonneg) {m m' : ℕ} (h₁ : Yields code code₁ d d.push)
    (h₂ : Yields (emit (patch (emit (emit code₁ (.jumpIfFalse m) span) (.jump m') span) code₁.length
      (code₁.length + 2)) .pop span) code₂ d d.push) :
    Yields code (patch code₂ (code₁.length + 1) code₂.length) d d.push := by
  obtain ⟨a, rfl, ha⟩ := h₁
  obtain ⟨b, rfl, hb⟩ := h₂
  simp only [emit, append_assoc, cons_append, nil_append, length_append, length_cons, length_nil,
    patch_append, patch_append_zero, patch_zero, patch_succ, retarget, Nat.add_assoc] at hb ⊢
  refine of_emits (ha.append [] (((Emits.tests (.inl rfl) hd).join
    (Emits.jump hd.push)).append [] ((Emits.pop hd).join hb) ?_) ?_) (by simp)
  all_goals simp
  all_goals omega

theorem branches (hd : d.Nonneg) {m m' : ℕ} (h₁ : Yields code code₁ d d.push)
    (h₂ : Grows (emit (emit code₁ (.jumpIfFalse m) span) .pop span) code₂ d d.push P)
    (h₃ : Grows (emit (patch (emit code₂ (.jump m') span) code₁.length (code₂.length + 1)) .pop span)
      code₃ d d.push Q) :
    Grows code (patch code₃ code₂.length code₃.length) d d.push
      fun inLoop => P inLoop ∧ Q inLoop := by
  obtain ⟨a, rfl, ha⟩ := h₁
  obtain ⟨b, rfl, hb⟩ := h₂
  obtain ⟨c, rfl, hc⟩ := h₃
  simp only [emit, append_assoc, cons_append, nil_append, length_append, length_cons, length_nil,
    patch_append, patch_append_zero, patch_zero, patch_succ, retarget, Nat.add_assoc] at hb hc ⊢
  rw [List.append_cons b]
  refine of_emits (ha.append [] (((Emits.tests (.inl rfl) hd).join ((Emits.pop hd).join
    (hb.join (Emits.jump hd.push)))).append [] ((Emits.pop hd).join (hc.moved ?_)) ?_) ?_) (by simp)
  all_goals simp
  all_goals omega

theorem loop (span : Span) (hd : d.Nonneg) {m : ℕ} (h₁ : Yields code code₁ d.push d.push.push)
    (h₂ : Grows (emit (emit (emit code₁ (.jumpIfFalse m) span) .pop span) .pop span) code₂ d d.push
      P) :
    Grows code (emit (patch (emit code₂ (.jump code.length) span) code₁.length (code₂.length + 1))
      .pop span) d.push d.push P := by
  obtain ⟨a, rfl, ha⟩ := h₁
  obtain ⟨b, rfl, hb⟩ := h₂
  simp only [emit, append_assoc, cons_append, nil_append, length_append, length_cons, length_nil,
    patch_append, patch_append_zero, patch_zero, retarget, Nat.add_assoc] at hb ⊢
  rw [List.append_cons b]
  refine of_emits (ha.append [] (((Emits.tests (.inl rfl) hd.push).join
    ((Emits.pop hd.push).join ((Emits.pop hd).join (hb.join (Emits.jump hd.push))))).append
      [(code.length, d.push)] (Emits.pop hd.push) ?_) ?_) (by simp)
  all_goals simp
  all_goals omega

end Grows

variable {code : List Instruction}

theorem verifyInstructions_iff {length : ℕ} {inLoop : Bool} :
    verifyInstructions code length inLoop = .ok () ↔ ∀ i ∈ code,
      validateInstruction i length = .ok () ∧ verifyNested i inLoop = .ok () := by
  refine ⟨fun h i hi => verifyInstructions_eq_ok h hi, fun h => ?_⟩
  induction code with
  | nil => rfl
  | cons head rest ih =>
    obtain ⟨hv, hn⟩ := h head List.mem_cons_self
    have hr := ih fun i hi => h i (List.mem_cons_of_mem _ hi)
    rw [verifyInstructions, hv, hn]
    exact hr

theorem Grows.verified_iff {placed : Bool → Prop} {e : Depths}
    (h : Grows [] code ⟨0, 0⟩ e placed) (inLoop : Bool) (hr : 1 ≤ e.operands := by decide)
    (hsc : e.scopes = 0 := by rfl) :
    verifyInContext ⟨bytecodeVersion, code⟩ inLoop = .ok () ↔ placed inLoop := by
  obtain ⟨_, rfl, hem⟩ := h
  have hne : code ≠ [] := by
    rintro rfl
    have hsa := hem.stretch.eq_of_nil
    subst hsa
    exact absurd hr (by decide)
  have hv : ∀ i ∈ code, validOperand i.op code.length = true :=
    fun i hi => hem.operands i hi _ (by simp) nofun
  obtain ⟨facts, hf⟩ := verifyStack_of_stretch hne hem.stretch hr hsc hv
  have hch : verifyInContext ⟨bytecodeVersion, code⟩ inLoop = .ok () ↔
      verifyInstructions code code.length inLoop = .ok () := by
    rw [verifyInContext, if_neg (by simp), hf]
    cases verifyInstructions code code.length inLoop <;> simp [bind, Except.bind]
  rw [hch, verifyInstructions_iff, ← hem.nested]
  constructor
  · intro h i hi
    exact (h i hi).2
  · intro h i hi
    exact ⟨if_pos (hv i hi), h i hi⟩

namespace Compiler

theorem verified_of_grows (h : Yields [] code ⟨0, 0⟩ (push ⟨0, 0⟩)) (inLoop : Bool) :
    verifyInContext ⟨bytecodeVersion, code⟩ inLoop = .ok () :=
  (h.verified_iff inLoop).mpr trivial

section Ops

variable {code : List Instruction} {span : Span} {d : Depths} (hd : d.Nonneg)
include hd

theorem grows_constant (value : Literal) :
    Yields code (emit code (.constant value) span) d d.push := by
  simpa using @Grows.quiet code d span (.constant value) 0 1 hd {} fun _ => rfl

theorem grows_load (name : String) :
    Yields code (emit code (.load name) span) d d.push := by
  simpa using @Grows.quiet code d span (.load name) 0 1 hd {} fun _ => rfl

theorem grows_replace (hop : op.Collects 1 1)
    (hn : ∀ inLoop, verifyNested ⟨op, span⟩ inLoop = .ok ()) :
    Yields code (emit code op span) d.push d.push :=
  Grows.quiet hd hop hn

theorem grows_get (name : String) :
    Yields code (emit code (.get name) span) d.push d.push :=
  grows_replace hd {} fun _ => rfl

theorem grows_call (count : ℕ) :
    Yields code (emit code (.call count) span) (d.pushes (count + 1)) d.push := by
  refine Grows.quiet hd { effect := ?_ } fun _ => rfl
  simp only [stackEffect]
  omega

theorem grows_performCall (count : ℕ) :
    Yields code (emit code (.performCall count) span) (d.pushes (count + 1)) d.push := by
  refine Grows.quiet hd { effect := ?_ } fun _ => rfl
  simp only [stackEffect]
  omega

end Ops

mutual

theorem grows_expression (value : Expr) (h : value.parsed = true) (code : List Instruction)
    (d : Depths) (hd : d.Nonneg) : Yields code (expression value code) d d.push := by
  cases value
  case perform value span =>
    rw [Expr.parsed] at h
    have hv := grows_expression value h code d hd
    cases value
    case call callee arguments labels at_ =>
      rw [Expr.parsed, Bool.and_eq_true] at h
      rw [expression]
      have hall := (grows_expression callee h.1 code d hd).next
        (grows_expressions arguments h.2 _ d.push hd.push)
      rw [pushes_push] at hall
      exact hall.next (grows_performCall hd _)
    all_goals
      rw [expression]
      · exact hv.next (Grows.keep hd.push {} fun _ => rfl)
      · nofun
  case through input stage span =>
    cases stage
    case call callee arguments labels at_ =>
      rw [Expr.parsed, Bool.and_eq_true, Bool.and_eq_true] at h
      have hc := (grows_expression callee h.1.2 code d hd).next
        (grows_expression input h.1.1 _ d.push hd.push)
      have hall := hc.next (grows_expressions arguments h.2 _ d.push.push hd.push.push)
      rw [pushes_push, pushes_push] at hall
      exact hall.next (grows_call hd _)
    case «variable» name at_ =>
      have hall := (grows_load hd name).next
        (grows_expression input h (emit code (.load name) at_) d.push hd.push)
      rw [← pushes_one, pushes_push] at hall
      exact hall.next (grows_call hd 1)
    case get object name at_ =>
      rw [Expr.parsed, Bool.and_eq_true] at h
      have hst : Yields code (emit (expression object code) (.get name) at_) d d.push :=
        (grows_expression object h.2 code d hd).next (grows_get hd name)
      have hall := hst.next
        (grows_expression input h.1 (emit (expression object code) (.get name) at_) d.push hd.push)
      rw [← pushes_one, pushes_push] at hall
      exact hall.next (grows_call hd 1)
    all_goals simp [Expr.parsed] at h
  all_goals
    try rw [Expr.parsed] at h
    try simp only [Bool.and_eq_true] at h
    rw [expression]
  case literal value span =>
    exact grows_constant hd value
  case text parts span =>
    exact (grows_pieces parts h span code d hd).next (Grows.quiet hd {} fun _ => rfl)
  case «variable» name span =>
    exact grows_load hd name
  case unary operator value span =>
    exact (grows_expression value h.2 code d hd).next
      (grows_replace hd { valid := fun _ => h.1 } fun _ => rfl)
  case binary left operator right span =>
    have hop := (grows_expression left h.1.2 code d hd).next
      (grows_expression right h.2 _ d.push hd.push)
    rw [← pushes_one, pushes_push] at hop
    exact hop.next (Grows.quiet hd { valid := fun _ => h.1.1 } fun _ => rfl)
  case logical left operator right span =>
    have hl := grows_expression left h.1 code d hd
    simp only [Grows.emit_length]
    split
    · exact Grows.orElse hd hl (grows_expression right h.2 _ d hd)
    · exact Grows.keepOr hd (fun _ => .inl rfl) hl (grows_expression right h.2 _ d hd)
  case call callee arguments labels span =>
    have hall := (grows_expression callee h.1 code d hd).next
      (grows_expressions arguments h.2 _ d.push hd.push)
    rw [pushes_push] at hall
    exact hall.next (grows_call hd _)
  case array values span =>
    exact (grows_expressions values h code d hd).next (Grows.quiet hd {} fun _ => rfl)
  case index value position span =>
    have hop := (grows_expression value h.1 code d hd).next
      (grows_expression position h.2 _ d.push hd.push)
    rw [← pushes_one, pushes_push] at hop
    exact hop.next (Grows.quiet hd {} fun _ => rfl)
  case coalesce left right span =>
    exact Grows.keepOr hd (fun _ => .inr rfl) (grows_expression left h.1 code d hd)
      (grows_expression right h.2 _ d hd)
  case assign _ value _ | propagate value _ =>
    exact (grows_expression value h code d hd).next (grows_replace hd {} fun _ => rfl)
  case get object name span =>
    exact (grows_expression object h code d hd).next (grows_get hd name)
  case matchArms subject cases span =>
    exact (grows_expression subject h.1 code d hd).next (grows_replace hd {} fun inLoop => by
        rw [verifyNested, verifyArms_arms cases h.2])

theorem grows_expressions : (values : List Expr) → Expr.allParsed values = true →
    ∀ (code : List Instruction) (d : Depths), d.Nonneg →
      Yields code (expressions values code) d (d.pushes values.length)
  | [], _, code, d, _ => by
    simpa [expressions] using Grows.refl
  | value :: rest, h, code, d, hd => by
    rw [Expr.allParsed, Bool.and_eq_true] at h
    have hv := grows_expression value h.1 code d hd
    have hr := grows_expressions rest h.2 (expression value code) d.push hd.push
    rw [pushes_push] at hr
    rw [expressions, List.length_cons]
    exact hv.next hr

theorem grows_pieces : (parts : List TextPiece) → TextPiece.allParsed parts = true → ∀ (span : Span)
    (code : List Instruction) (d : Depths), d.Nonneg →
      Yields code (pieces parts span code) d (d.pushes parts.length)
  | [], _, span, code, d, _ => by
    simpa [pieces] using Grows.refl
  | .literal part :: rest, h, span, code, d, hd => by
    have hr := grows_pieces rest h span (emit code (.constant (.string part)) span) d.push hd.push
    rw [pushes_push] at hr
    exact (grows_constant hd _).next hr
  | .hole value :: rest, h, span, code, d, hd => by
    rw [TextPiece.allParsed, Bool.and_eq_true] at h
    have hr := grows_pieces rest h.2 span (expression value code) d.push hd.push
    rw [pushes_push] at hr
    rw [pieces, List.length_cons]
    exact (grows_expression value h.1 code d hd).next hr

theorem verifyArms_arms : (cases : List MatchArm) → MatchArm.allParsed cases = true →
    verifyArms (arms cases) = .ok ()
  | [], _ => by rw [arms, verifyArms]
  | ⟨patterns, guard, value, span⟩ :: rest, h => by
    rw [MatchArm.allParsed, Bool.and_eq_true, Bool.and_eq_true] at h
    have hb := verified_of_grows (grows_expression value h.1.2 [] ⟨0, 0⟩ nonneg_zero) false
    rw [arms, verifyArms, verifyOptional_optionalExpression guard h.1.1, hb]
    exact verifyArms_arms rest h.2

theorem verifyOptional_optionalExpression : (guard : Option Expr) →
    Expr.optionalParsed guard = true → verifyOptional (optionalExpression guard) false = .ok ()
  | none, _ => by rw [optionalExpression, verifyOptional]
  | some value, h => by
    rw [Expr.optionalParsed] at h
    rw [optionalExpression, verifyOptional]
    exact verified_of_grows (grows_expression value h [] ⟨0, 0⟩ nonneg_zero) false

end

mutual

theorem exitsPlaced_of_not_containsLoopExit (s : Stmt) (h : containsLoopExit s = false)
    (inLoop inLoop' : Bool) : s.exitsPlaced inLoop = s.exitsPlaced inLoop' := by
  cases s
  case stop | skip => simp [containsLoopExit] at h
  case block body _ =>
    rw [Stmt.exitsPlaced, Stmt.exitsPlaced]
    exact allPlaced_of_not_anyLoopExit body h inLoop inLoop'
  case ifStmt _ thenBranch elseBranch _ | ifCarries _ _ thenBranch elseBranch _ =>
    rw [containsLoopExit, Bool.or_eq_false_iff] at h
    rw [Stmt.exitsPlaced, Stmt.exitsPlaced,
      exitsPlaced_of_not_containsLoopExit thenBranch h.1 inLoop inLoop',
      optionalPlaced_of_not_optionalLoopExit elseBranch h.2 inLoop inLoop']
  case whileStmt | forStmt | «using» | sample | function | module =>
    rw [Stmt.exitsPlaced, Stmt.exitsPlaced]
  all_goals rfl

theorem allPlaced_of_not_anyLoopExit : (body : List Stmt) → anyLoopExit body = false →
    ∀ inLoop inLoop', Stmt.allPlaced inLoop body = Stmt.allPlaced inLoop' body
  | [], _, _, _ => rfl
  | s :: rest, h, inLoop, inLoop' => by
    rw [anyLoopExit, Bool.or_eq_false_iff] at h
    rw [Stmt.allPlaced, Stmt.allPlaced, exitsPlaced_of_not_containsLoopExit s h.1 inLoop inLoop',
      allPlaced_of_not_anyLoopExit rest h.2 inLoop inLoop']

theorem optionalPlaced_of_not_optionalLoopExit : (branch : Option Stmt) →
    optionalLoopExit branch = false →
    ∀ inLoop inLoop', Stmt.optionalPlaced inLoop branch = Stmt.optionalPlaced inLoop' branch
  | none, _, _, _ => rfl
  | some s, h, inLoop, inLoop' => by
    rw [optionalLoopExit] at h
    exact exitsPlaced_of_not_containsLoopExit s h inLoop inLoop'

end

section StatementOps

variable {code : List Instruction} {span : Span} {d : Depths} (hd : d.Nonneg) {op : Op}
include hd

theorem grows_value (hop : op.Collects 0 1) : Grows code (emit code op span) d d.push
    fun inLoop => verifyNested ⟨op, span⟩ inLoop = .ok () := by
  simpa using @Grows.collect code d span op 0 1 hd hop

theorem grows_on {value : Expr} (hv : value.parsed = true) (hop : op.Collects 1 1) :
    Grows code (emit (expression value code) op span) d d.push
      fun inLoop => verifyNested ⟨op, span⟩ inLoop = .ok () := by
  refine ((grows_expression value hv code d hd).trans (Grows.collect hd hop)).congr ?_
  simp

theorem grows_valueOrNull (value : Option Expr) (hv : Expr.optionalParsed value = true) :
    Yields code (valueOrNull value span code) d d.push := by
  cases value with
  | none => exact grows_constant hd .null
  | some value =>
    rw [Expr.optionalParsed] at hv
    exact grows_expression value hv code d hd

end StatementOps

mutual

theorem grows_statement (s : Stmt) (h : s.parsed = true) (code : List Instruction) (d : Depths)
    (hd : d.Nonneg) :
    Grows code (statement s code) d d.push fun inLoop => s.exitsPlaced inLoop = true := by
  cases s
  all_goals
    try rw [Stmt.parsed] at h
    try simp only [Bool.and_eq_true] at h
    rw [statement]
  case prepare name planType initializer span =>
    have hin := (grows_expression initializer h code d hd).next
      (@Grows.keep _ _ span (.prepare planType) hd.push {} fun _ => rfl)
    refine (hin.trans (Grows.collect hd {})).congr ?_
    simp [verifyNested, Stmt.exitsPlaced]
  case letStmt | letPattern | print =>
    refine (grows_on hd h {}).congr ?_
    simp [verifyNested, Stmt.exitsPlaced]
  case expression value =>
    exact (grows_expression value h code d hd).congr (by simp [Stmt.exitsPlaced])
  case block body span =>
    have hb := (Grows.enterScope hd).trans
      (grows_statements body h (emit code .enterScope span) d.enter hd.enter)
    refine (hb.trans (Grows.exitScope hd.push)).congr ?_
    simp [Stmt.exitsPlaced]
  case ifStmt condition thenBranch elseBranch span =>
    simp only [Grows.emit_length]
    refine (Grows.branches hd (grows_expression condition h.1.1 code d hd)
      (grows_statement thenBranch h.1.2 _ d hd)
      (grows_elseOrNull elseBranch h.2 span _ d hd)).congr ?_
    simp [Stmt.exitsPlaced]
  case whileStmt condition body span =>
    have hp (inLoop : Bool) : (Stmt.whileStmt condition body span).exitsPlaced inLoop =
        body.exitsPlaced true := by rw [Stmt.exitsPlaced]
    split
    · have hb := (grows_statement body h.2 [] ⟨0, 0⟩ nonneg_zero).verified_iff true
      have hc := verified_of_grows (grows_expression condition h.1 [] ⟨0, 0⟩ nonneg_zero) false
      refine (grows_value hd {}).congr fun inLoop => ?_
      rw [hp, ← hb, verifyNested, compileExpression, hc]
      rfl
    next het =>
      have hsa := exitsPlaced_of_not_containsLoopExit body (by simpa using het)
      have hl := Grows.loop (m := usizeMax) span hd
        (grows_expression condition h.1 (emit code (.constant .null) span) d.push hd.push)
        (grows_statement body h.2 _ d hd)
      simp only [Grows.emit_length] at hl ⊢
      refine ((grows_constant hd .null).trans hl).congr fun inLoop => ?_
      simp [hp, hsa inLoop true]
  case ifCarries subject patterns thenBranch elseBranch span =>
    refine (grows_on hd h.1.1 {}).congr fun inLoop => ?_
    have hth := (grows_statement thenBranch h.1.2 [] ⟨0, 0⟩ nonneg_zero).verified_iff inLoop
    rw [verifyNested, Stmt.exitsPlaced, Bool.and_eq_true, ← hth,
      ← verifyOptional_optional elseBranch h.2 inLoop, bind_eq_ok_iff]
    exact ⟨fun ⟨_, hth, hel⟩ => ⟨hth, hel⟩, fun ⟨hth, hel⟩ => ⟨(), hth, hel⟩⟩
  case stop | skip =>
    exact (Grows.leaveLoop _ hd _).congr (by simp [Stmt.exitsPlaced])
  case promise clauses span =>
    refine ((Grows.keep hd {} fun _ => rfl).next (grows_constant hd .null)).congr ?_
    simp [Stmt.exitsPlaced]
  case trusted | doc | generator | expand | importStmt | exportStmt =>
    exact (grows_constant hd .null).congr (by simp [Stmt.exitsPlaced])
  case sample _ body _ _ | module _ body _ _ =>
    refine (grows_value hd {}).congr fun inLoop => ?_
    rw [verifyNested, Stmt.exitsPlaced]
    exact (grows_statements body h [] ⟨0, 0⟩ nonneg_zero).verified_iff false
  case forStmt name pattern iterable body span =>
    refine (grows_on hd h.1 {}).congr fun inLoop => ?_
    exact (grows_statement body h.2 [] ⟨0, 0⟩ nonneg_zero).verified_iff true
  case «using» name resource body span =>
    refine (grows_on hd h.1 {}).congr fun inLoop => ?_
    exact (grows_statement body h.2 [] ⟨0, 0⟩ nonneg_zero).verified_iff false
  case function name _ params _ _ _ body span =>
    have hz : (push ⟨0, 0⟩).Nonneg := nonneg_zero.push
    have hend : Yields (statements body [])
        (emit (emit (statements body []) (.constant .null) span) .return span)
        (push ⟨0, 0⟩) (push ⟨0, 0⟩) :=
      (grows_constant hz .null).next (Grows.leaveReturn span hz)
    have hb := ((grows_statements body h [] ⟨0, 0⟩ nonneg_zero).trans hend).verified_iff false
    refine ((grows_value hd {}).trans (grows_replace hd {} fun _ => rfl)).congr fun inLoop => ?_
    rw [verifyNested, Stmt.exitsPlaced, hb]
    simp
  case returnStmt value span =>
    refine ((grows_valueOrNull hd value h).next (Grows.leaveReturn span hd)).congr ?_
    simp [Stmt.exitsPlaced]
  case record | enum | protocol | adoption =>
    refine (grows_value hd {}).congr ?_
    simp [verifyNested, Stmt.exitsPlaced]

theorem grows_statements : (body : List Stmt) → Stmt.allParsed body = true →
    ∀ (code : List Instruction) (d : Depths), d.Nonneg →
      Grows code (statements body code) d d.push fun inLoop => Stmt.allPlaced inLoop body = true
  | [], _, code, d, hd => by
    exact (grows_constant hd .null).congr (by simp [Stmt.allPlaced])
  | [last], h, code, d, hd => by
    rw [Stmt.allParsed, Bool.and_eq_true] at h
    exact (grows_statement last h.1 code d hd).congr (by simp [Stmt.allPlaced])
  | first :: second :: rest, h, code, d, hd => by
    rw [Stmt.allParsed, Bool.and_eq_true] at h
    rw [statements]
    have hf := (grows_statement first h.1 code d hd).trans (Grows.discard first.span hd)
    refine (hf.trans (grows_statements (second :: rest) h.2 _ d hd)).congr ?_
    simp [Stmt.allPlaced]

theorem grows_elseOrNull : (branch : Option Stmt) → Stmt.optionalParsed branch = true →
    ∀ (span : Span) (code : List Instruction) (d : Depths), d.Nonneg →
      Grows code (elseOrNull branch span code) d d.push
        fun inLoop => Stmt.optionalPlaced inLoop branch = true
  | none, _, span, code, d, hd => by
    rw [elseOrNull]
    exact (grows_constant hd .null).congr (by simp [Stmt.optionalPlaced])
  | some branch, h, span, code, d, hd => by
    rw [Stmt.optionalParsed] at h
    rw [elseOrNull]
    exact (grows_statement branch h code d hd).congr (by simp [Stmt.optionalPlaced])

theorem verifyOptional_optional : (branch : Option Stmt) → Stmt.optionalParsed branch = true →
    ∀ inLoop, verifyOptional (optional branch) inLoop = .ok () ↔
      Stmt.optionalPlaced inLoop branch = true
  | none, _, inLoop => by simp [optional, verifyOptional, Stmt.optionalPlaced]
  | some branch, h, inLoop => by
    rw [Stmt.optionalParsed] at h
    rw [optional, verifyOptional, Stmt.optionalPlaced]
    exact (grows_statement branch h [] ⟨0, 0⟩ nonneg_zero).verified_iff inLoop

end

end Compiler

/-- A parsed program compiles exactly when every `stop` and `skip` in it stands in a loop body,
outside any function, module, sample or `using` body of its own. -/
theorem compile_isOk_iff {program : List Stmt} (h : Stmt.allParsed program = true) :
    (∃ chunk, compile program = .ok chunk) ↔ Stmt.allPlaced false program = true := by
  have hg := Compiler.grows_statements program h [] ⟨0, 0⟩ nonneg_zero
  rw [← hg.verified_iff false]
  constructor
  · rintro ⟨chunk, hc⟩
    obtain ⟨⟨⟩, hv, -⟩ := bind_eq_ok_iff.mp hc
    exact hv
  · intro hv
    exact ⟨Compiler.compileStatements program, bind_eq_ok_iff.mpr ⟨(), hv, rfl⟩⟩

end Nivren
