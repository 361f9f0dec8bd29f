import Nivren.CheckKeeps
import Nivren.CompileVerify

/-! What checks, compiles, but for samples.

The checker follows loops through samples, while the compiler gives a sample a chunk of its own.
So a checked program compiles exactly when every `stop` and `skip` in a sample ends a loop of that
sample.
-/

namespace Nivren

set_option synthInstance.maxSize 1000

open Along

mutual

/-- Every `stop` and `skip` in a sample stands in a loop body of the sample itself. -/
def Stmt.samplesClosed : Stmt → Bool
  | .sample _ body _ _ => Stmt.allPlaced false body && Stmt.allClosed body
  | .block body _ | .function _ _ _ _ _ _ body _ | .module _ body _ _ => Stmt.allClosed body
  | .ifStmt _ thenBranch elseBranch _ | .ifCarries _ _ thenBranch elseBranch _ =>
    thenBranch.samplesClosed && Stmt.optionalClosed elseBranch
  | .whileStmt _ body _ | .forStmt _ _ _ body _ | .using _ _ body _ => body.samplesClosed
  | _ => true

def Stmt.allClosed : List Stmt → Bool
  | [] => true
  | statement :: rest => statement.samplesClosed && Stmt.allClosed rest

def Stmt.optionalClosed : Option Stmt → Bool
  | none => true
  | some branch => branch.samplesClosed

end

mutual

theorem Stmt.samplesClosed_of_exitsPlaced (s : Stmt) {inLoop : Bool}
    (h : s.exitsPlaced inLoop = true) : s.samplesClosed = true := by
  cases s
  any_goals rfl
  all_goals
    rw [Stmt.exitsPlaced] at h
    rw [Stmt.samplesClosed]
  case sample _ body _ _ =>
    rw [h, Stmt.allClosed_of_allPlaced body h]
    rfl
  case block body _ | function _ _ _ _ _ _ body _ | module _ body _ _ =>
    exact Stmt.allClosed_of_allPlaced body h
  case ifStmt _ thenBranch elseBranch _ | ifCarries _ _ thenBranch elseBranch _ =>
    rw [Bool.and_eq_true] at h
    rw [Stmt.samplesClosed_of_exitsPlaced thenBranch h.1,
      Stmt.optionalClosed_of_optionalPlaced elseBranch h.2]
    rfl
  case whileStmt _ body _ | forStmt _ _ _ body _ | «using» _ _ body _ =>
    exact Stmt.samplesClosed_of_exitsPlaced body h

theorem Stmt.allClosed_of_allPlaced : (body : List Stmt) → ∀ {inLoop},
    Stmt.allPlaced inLoop body = true → Stmt.allClosed body = true
  | [], _, _ => rfl
  | s :: rest, _, h => by
    rw [Stmt.allPlaced, Bool.and_eq_true] at h
    rw [Stmt.allClosed, Stmt.samplesClosed_of_exitsPlaced s h.1,
      Stmt.allClosed_of_allPlaced rest h.2]
    rfl

theorem Stmt.optionalClosed_of_optionalPlaced : (branch : Option Stmt) → ∀ {inLoop},
    Stmt.optionalPlaced inLoop branch = true → Stmt.optionalClosed branch = true
  | none, _, _ => rfl
  | some s, _, h => by
    rw [Stmt.optionalPlaced] at h
    rw [Stmt.optionalClosed]
    exact Stmt.samplesClosed_of_exitsPlaced s h

end

namespace Checker

/-- From some state inside so many loops the check ends without an error. -/
def Clean {α : Type} (depth : ℕ) (m : Check α) : Prop :=
  ∃ s : Checker, s.loopDepth = depth ∧ Ends m s (·.errors = [])

section Peel

variable {α β : Type} {m : Check α} {f : α → Check β} {d : ℕ}

theorem Clean.bind [hm : Steady m] [∀ a, Steady (f a)]
    (h : Clean d (m >>= f)) : Clean d m ∧ ∃ a, Clean d (f a) := by
  obtain ⟨s, hd, h⟩ := h
  obtain ⟨hf, hse⟩ := ends_bind (fun _ _ (hk : Keeps _ _) hs' =>
    List.prefix_nil.mp (hs' ▸ hk.errors)) h
  exact ⟨⟨s, hd, hf⟩, _, _, (hm.moves s).loopDepth.trans hd, hse⟩

theorem Clean.seqRight {n : Check β} [hm : Steady m] (h : Clean d (m *> n)) :
    Clean d n := by
  obtain ⟨s, hd, h⟩ := h
  exact ⟨_, (hm.moves s).loopDepth.trans hd, h⟩

variable {walk : Check Unit}

theorem Clean.inScope (h : Clean d (Checker.inScope walk)) : Clean d walk := by
  obtain ⟨s, hd, h⟩ := h
  exact ⟨{ s with scopes := [] :: s.scopes }, hd, h⟩

theorem Clean.insideLoop (h : Clean d (Checker.insideLoop walk)) : Clean (d + 1) walk := by
  obtain ⟨s, hd, h⟩ := h
  exact ⟨{ s with loopDepth := s.loopDepth + 1 }, congrArg (· + 1) hd, h⟩

theorem Clean.outsideLoops {boundary : String} (h : Clean d (Checker.outsideLoops boundary walk)) :
    Clean 0 walk := by
  obtain ⟨s, -, h⟩ := h
  exact ⟨_, rfl, h⟩

end Peel

section Bodies

variable {walk : Check Unit} {span : Span} {d : ℕ}

theorem clean_reportIf {condition : Bool} {message : String}
    (h : Clean d (reportIf condition message span)) : condition = false := by
  cases condition with
  | false => rfl
  | true =>
    obtain ⟨s, -, h⟩ := h
    have her : s.errors ++ [errorAt message span] = [] := h
    exact absurd her (List.append_ne_nil_of_right_ne_nil _ (List.cons_ne_nil _ _))

theorem clean_loopExit {word : String} (h : Clean d (loopExit word span)) : 0 < d := by
  obtain ⟨s, rfl, h⟩ := h
  have hz : (s.loopDepth == 0) = false := clean_reportIf ⟨s, rfl, h⟩
  exact Nat.pos_of_ne_zero (beq_eq_false_iff_ne.mp hz)

variable {name : String} {body : List Stmt} {exports : List String}

theorem clean_declareModule {found : Checker}
    (h : Clean d (declareModule name found body exports span)) : found.errors = [] := by
  obtain ⟨_, h⟩ := h.bind.2
  obtain ⟨s, -, h⟩ := h.bind.1
  have hm : (merge found s).errors = [] := h
  exact (List.append_eq_nil_iff.mp hm).2

theorem clean_module (h : Clean d (module name body exports walk span)) : Clean 0 walk := by
  obtain ⟨start, h⟩ := h.bind.2
  exact ⟨withNamespace (start.qualified name), rfl, clean_declareModule h⟩

variable [hwalk : Steady walk]

theorem clean_carries {subject : Expr} {patterns : List Pattern}
    (h : Clean d (carries subject patterns walk span)) : Clean d walk := by
  obtain ⟨_, h⟩ := h.bind.2
  obtain ⟨_, h⟩ := h.bind.2
  obtain ⟨_, h⟩ := h.bind.2
  obtain ⟨_, h⟩ := h.bind.2
  obtain ⟨_, h⟩ := h.inScope.bind.2
  exact h

theorem clean_each {pattern : Option Pattern} {iterable : Expr}
    (h : Clean d (each name pattern iterable walk span)) : Clean (d + 1) walk := by
  obtain ⟨_, h⟩ := h.bind.2
  obtain ⟨_, h⟩ := h.bind.2
  obtain ⟨_, h⟩ := h.inScope.bind.2
  exact h.insideLoop

theorem clean_usingScope {resource : Expr} (h : Clean d (usingScope name resource walk span)) :
    Clean 0 walk := by
  obtain ⟨_, h⟩ := h.bind.2
  obtain ⟨_, h⟩ := h.bind.2
  obtain ⟨_, h⟩ := h.bind.2
  obtain ⟨_, h⟩ := h.outsideLoops.inScope.bind.2
  exact h

theorem clean_function {typeParams : List TypeParam} {params : List Param}
    {returnType : Option TypeRef} {needs : List String} {capabilityNeeds : List CapabilityNeed}
    (h : Clean d
      (function name typeParams params returnType needs capabilityNeeds body walk span)) :
    Clean 0 walk := by
  obtain ⟨_, h⟩ := h.bind.2
  obtain ⟨found, h⟩ := h.bind.2
  obtain ⟨_, s, hd, h⟩ := h.bind.2
  have h : Clean d (declareFunction name (typeParams.map (·.name))
      (found.genericConstraints typeParams) params returnType needs body walk span) :=
    ⟨{ s with
      generics := typeParams.map (·.name) :: s.generics
      constraints := found.genericConstraints typeParams :: s.constraints }, hd, h⟩
  obtain ⟨paramTypes, h⟩ := h.bind.2
  obtain ⟨gives, h⟩ := h.bind.2
  obtain ⟨_, h⟩ := h.bind.2
  obtain ⟨_, h⟩ := h.bind.2
  obtain ⟨_, s, hd, h⟩ := h.bind.2
  have h : Clean d (functionBody params paramTypes walk) :=
    ⟨{ s with returns := gives :: s.returns, needs := needs :: s.needs }, hd, h⟩
  obtain ⟨_, h⟩ := h.outsideLoops.inScope.bind.2
  exact h

end Bodies

mutual

/-- The exits of a statement that was checked without an error are placed, given that the samples
in it are closed. -/
theorem exitsPlaced_of_clean (st : Stmt) (hc : st.samplesClosed = true) {d : ℕ}
    (h : Clean d (statement st)) : st.exitsPlaced (decide (0 < d)) = true := by
  cases st
  any_goals rfl
  case stop _ | skip _ =>
    exact decide_eq_true (clean_loopExit h)
  all_goals
    rw [Stmt.exitsPlaced]
    rw [Stmt.samplesClosed] at hc
    try rw [Bool.and_eq_true] at hc
  case block body _ =>
    obtain ⟨_, h⟩ := h.inScope.bind.2
    exact allPlaced_of_clean body hc h
  case ifStmt _ thenBranch elseBranch _ =>
    obtain ⟨_, h⟩ := h.bind.2
    obtain ⟨hth, _, hel⟩ := h.bind
    rw [exitsPlaced_of_clean thenBranch hc.1 hth, optionalPlaced_of_clean elseBranch hc.2 hel]
    rfl
  case ifCarries _ _ thenBranch elseBranch _ =>
    obtain ⟨hth, _, hel⟩ := h.bind
    rw [exitsPlaced_of_clean thenBranch hc.1 (clean_carries hth),
      optionalPlaced_of_clean elseBranch hc.2 hel]
    rfl
  case whileStmt _ body _ =>
    obtain ⟨_, h⟩ := h.bind.2
    exact exitsPlaced_of_clean body hc h.insideLoop
  case forStmt _ _ _ body _ => exact exitsPlaced_of_clean body hc (clean_each h)
  case «using» _ _ body _ => exact exitsPlaced_of_clean body hc (clean_usingScope h)
  case sample _ body _ _ => exact hc.1
  case function _ _ _ _ _ _ body _ => exact allPlaced_of_clean body hc (clean_function h).seqRight
  case module _ body _ _ => exact allPlaced_of_clean body hc (clean_module h).seqRight

theorem allPlaced_of_clean : (body : List Stmt) → Stmt.allClosed body = true → ∀ {d : ℕ},
    Clean d (eachStatement body) → Stmt.allPlaced (decide (0 < d)) body = true
  | [], _, _, _ => rfl
  | first :: rest, hc, s, h => by
    rw [Stmt.allClosed, Bool.and_eq_true] at hc
    rw [eachStatement] at h
    obtain ⟨hf, _, hr⟩ := h.bind
    rw [Stmt.allPlaced, exitsPlaced_of_clean first hc.1 hf, allPlaced_of_clean rest hc.2 hr]
    rfl

theorem optionalPlaced_of_clean : (branch : Option Stmt) → Stmt.optionalClosed branch = true →
    ∀ {d : ℕ}, Clean d (optionalStatement branch) →
      Stmt.optionalPlaced (decide (0 < d)) branch = true
  | none, _, _, _ => rfl
  | some branch, hc, _, h => by
    rw [Stmt.optionalClosed] at hc
    rw [optionalStatement] at h
    rw [Stmt.optionalPlaced]
    exact exitsPlaced_of_clean branch hc h

end

theorem clean_of_checkWithEdition {program : List Stmt} {edition : ℕ}
    (h : checkWithEdition program edition = .ok ()) : Clean 0 (statements program) := by
  refine ⟨forEdition edition, by unfold forEdition; split <;> rfl, ?_⟩
  by_contra hc
  have hem : ((statements program).run (forEdition edition)).2.errors.isEmpty = false :=
    List.isEmpty_eq_false_iff.mpr hc
  rw [checkWithEdition, hem] at h
  cases h

end Checker

/-- A parsed and checked program compiles exactly when, in each of its samples, every `stop` and
`skip` ends a loop of that sample. -/
theorem checked_compiles_iff {program : List Stmt} (hparsed : Stmt.allParsed program = true)
    (hchecked : check program = .ok ()) :
    (∃ chunk, compile program = .ok chunk) ↔ Stmt.allClosed program = true := by
  rw [compile_isOk_iff hparsed]
  constructor
  · exact Stmt.allClosed_of_allPlaced program
  · intro hclosed
    have hclean := (Checker.clean_of_checkWithEdition hchecked).seqRight
    exact Checker.allPlaced_of_clean program hclosed hclean

/-- `repeat while yes { sample "s" { repeat while yes { stop } } stop }`. -/
def loopingSample : List Stmt :=
  [.whileStmt (.literal (.bool true) ⟨1, 14⟩) (.block [.sample "s"
        [.whileStmt (.literal (.bool true) ⟨2, 30⟩) (.block [.stop ⟨2, 36⟩] ⟨2, 34⟩) ⟨2, 16⟩]
        none ⟨2, 3⟩,
       .stop ⟨3, 3⟩] ⟨1, 18⟩) ⟨1, 1⟩]

theorem checked_compiles_iff_loopingSample :
    check loopingSample = .ok () ∧ ∃ chunk, compile loopingSample = .ok chunk :=
  have hchecked : check loopingSample = .ok () := by decide +kernel
  ⟨hchecked, (checked_compiles_iff (by decide +kernel) hchecked).mpr (by decide +kernel)⟩

/-- `repeat while yes { sample "s" { stop } }`. -/
def straySample : List Stmt :=
  [.whileStmt (.literal (.bool true) ⟨1, 14⟩)
    (.block [.sample "s" [.stop ⟨1, 33⟩] none ⟨1, 20⟩] ⟨1, 18⟩) ⟨1, 1⟩]

/-- The checker accepts a `stop` that leaves a sample, and the verifier refuses its chunk. -/
theorem straySample_checks_not_compiles :
    Stmt.allParsed straySample = true ∧ check straySample = .ok () ∧
      ¬ ∃ chunk, compile straySample = .ok chunk := by
  refine ⟨by decide +kernel, by decide +kernel, ?_⟩
  rw [compile_isOk_iff (by decide +kernel)]
  decide +kernel

end Nivren
