import Nivren.IntentWalk

/-! Pipelines in intent analysis.

The analysis visits the input and the stage of a pipeline but does not see the call between them. If
the stage is itself a call, its effect is seen there; if the stage is a bare function, nothing
reports its effect. `missed` lists the effects that only appear once pipelines are replaced by their
calls.
-/

namespace Nivren.Intent

open List

def calleeMissed (t : Tables) (w : Bool) (callee : Expr) : List Effect :=
  match callablePath callee with
  | some _ => []
  | none => t.callEffects w (callablePath callee.lowered)

mutual

/-- The effects the analysis does not see before lowering. -/
def missed (t : Tables) (w : Bool) : Expr → List Effect
  | .perform value _ => missed t true value
  | .text pieces _ => piecesMissed t w pieces
  | .through input (.call callee arguments _ _) _ =>
    calleeMissed t w callee ++ missed t w callee ++ missed t w input ++ allMissed t w arguments
  | .through input (.variable name _) _ => t.callEffects w (some name) ++ missed t w input
  | .through input (.get object name span) _ =>
    t.callEffects w (callablePath (.get object.lowered name span)) ++ missed t w object ++
      missed t w input
  | .through input stage _ => missed t w input ++ missed t w stage
  | .call callee arguments _ _ =>
    calleeMissed t w callee ++ missed t w callee ++ allMissed t w arguments
  | .assign _ value _ | .unary _ value _ | .propagate value _ | .get value _ _ => missed t w value
  | .binary left _ right _ | .logical left _ right _ | .coalesce left right _
  | .index left right _ => missed t w left ++ missed t w right
  | .array values _ => allMissed t w values
  | .matchArms subject arms _ => missed t w subject ++ armsMissed t w arms
  | .literal .. | .variable .. => []

def allMissed (t : Tables) (w : Bool) : List Expr → List Effect
  | [] => []
  | value :: rest => missed t w value ++ allMissed t w rest

def piecesMissed (t : Tables) (w : Bool) : List TextPiece → List Effect
  | [] => []
  | .literal _ :: rest => piecesMissed t w rest
  | .hole value :: rest => missed t w value ++ piecesMissed t w rest

def armsMissed (t : Tables) (w : Bool) : List MatchArm → List Effect
  | [] => []
  | ⟨_, guard, value, _⟩ :: rest =>
    optionalMissed t w guard ++ missed t w value ++ armsMissed t w rest

def optionalMissed (t : Tables) (w : Bool) : Option Expr → List Effect
  | none => []
  | some value => missed t w value

end

variable {t : Tables}

section Stages

variable {input stage : Expr} {span : Span}

theorem lowered_through (hs : stage.isStage = false) :
    (Expr.through input stage span).lowered = .through input.lowered stage.lowered span := by
  cases stage
  case call | «variable» | get => cases hs
  all_goals rfl

theorem missed_through {w : Bool} (hs : stage.isStage = false) :
    missed t w (.through input stage span) = missed t w input ++ missed t w stage := by
  cases stage
  case call | «variable» | get => cases hs
  all_goals rfl

end Stages

theorem callablePath_lowered {path : String} : (e : Expr) → callablePath e = some path →
    callablePath e.lowered = some path
  | .variable .., h => h
  | .get parent name _, h => by
    rw [callablePath, Option.map_eq_some_iff] at h
    obtain ⟨below, hb, rfl⟩ := h
    rw [Expr.lowered, callablePath, callablePath_lowered parent hb]
    rfl
  | .call callee _ _ _, h => by
    rw [callablePath] at h
    rw [Expr.lowered, callablePath, callablePath_lowered callee h]

/-- No function is called `dynamic-call`, the name calls without a path are looked up as. -/
def Tables.Named (t : Tables) : Prop := t.needs "dynamic-call" = none

theorem callEffects_lowered (ht : t.Named) (w : Bool) (callee : Expr) :
    t.callEffects w (callablePath callee.lowered) =
      t.callEffects w (callablePath callee) ++ calleeMissed t w callee := by
  rw [calleeMissed]
  cases hp : callablePath callee with
  | some path => rw [callablePath_lowered callee hp, append_nil]
  | none =>
    have hn : t.callEffects w none = [] := by
      rw [Tables.callEffects, Option.getD_none, ht]
      rfl
    rw [hn, nil_append]

mutual

/-- In no pipeline do the input and the call's own path and callee both have effects. The walk takes
the input first; the lowered call comes before its arguments. -/
def inOrder (t : Tables) (w : Bool) : Expr → Bool
  | .perform value _ => inOrder t true value
  | .text pieces _ => piecesInOrder t w pieces
  | .through input (.call callee arguments _ _) _ =>
    ((effects t w input).isEmpty ||
        (t.callEffects w (callablePath callee) ++ effects t w callee).isEmpty) &&
      inOrder t w input && inOrder t w callee && allInOrder t w arguments
  | .through input (.get object _ _) _ =>
    ((effects t w input).isEmpty || (effects t w object).isEmpty) && inOrder t w input &&
      inOrder t w object
  | .through input stage _ => inOrder t w input && inOrder t w stage
  | .call callee arguments _ _ => inOrder t w callee && allInOrder t w arguments
  | .assign _ value _ | .unary _ value _ | .propagate value _ | .get value _ _ => inOrder t w value
  | .binary left _ right _ | .logical left _ right _ | .coalesce left right _
  | .index left right _ => inOrder t w left && inOrder t w right
  | .array values _ => allInOrder t w values
  | .matchArms subject arms _ => inOrder t w subject && armsInOrder t w arms
  | .literal .. | .variable .. => true

def allInOrder (t : Tables) (w : Bool) : List Expr → Bool
  | [] => true
  | value :: rest => inOrder t w value && allInOrder t w rest

def piecesInOrder (t : Tables) (w : Bool) : List TextPiece → Bool
  | [] => true
  | .literal _ :: rest => piecesInOrder t w rest
  | .hole value :: rest => inOrder t w value && piecesInOrder t w rest

def armsInOrder (t : Tables) (w : Bool) : List MatchArm → Bool
  | [] => true
  | ⟨_, guard, value, _⟩ :: rest =>
    optionalInOrder t w guard && inOrder t w value && armsInOrder t w rest

def optionalInOrder (t : Tables) (w : Bool) : Option Expr → Bool
  | none => true
  | some value => inOrder t w value

end

theorem inOrder_through {w : Bool} {input stage : Expr} {span : Span} (hs : stage.isStage = false) :
    inOrder t w (.through input stage span) = (inOrder t w input && inOrder t w stage) := by
  cases stage
  case call | «variable» | get => cases hs
  all_goals rfl

/-- Lowering adds the missed effects of a part to those before it. With none missed and the walk in
order, it leaves them as they were. -/
structure Lowers (before missed : List Effect) (ordered : Bool) (after : List Effect) : Prop where
  perm : after.Perm (before ++ missed)
  same : missed = [] → ordered = true → after = before

namespace Lowers

variable {a a' b b' m n : List Effect} {o p : Bool}

theorem nil : Lowers [] [] true [] := ⟨.nil, fun _ _ => rfl⟩

theorem append (h : Lowers a m o a') (h' : Lowers b n p b') :
    Lowers (a ++ b) (m ++ n) (o && p) (a' ++ b') where
  perm := by
    refine (h.perm.append h'.perm).trans (perm_iff_count.mpr fun x => ?_)
    simp only [count_append]
    omega
  same hm ho := by
    obtain ⟨hm, hn⟩ := append_eq_nil_iff.mp hm
    obtain ⟨ho, hp⟩ := Bool.and_eq_true_iff.mp ho
    rw [h.same hm ho, h'.same hn hp]

/-- The second part comes first before lowering, which is seen if both have effects. -/
theorem swap (h : Lowers a m o a') (h' : Lowers b n p b') :
    Lowers (b ++ a) (m ++ n) ((b.isEmpty || a.isEmpty) && p && o) (a' ++ b') where
  perm := (h.append h').perm.trans (perm_append_comm.append_right _)
  same hm ho := by
    simp only [Bool.and_eq_true, Bool.or_eq_true, List.isEmpty_iff] at ho
    rw [(h.append h').same hm (by simp [ho])]
    rcases ho.1.1 with he | he <;> simp [he]

theorem ahead (c : List Effect) (h : Lowers a m o a') : Lowers a (c ++ m) o (c ++ a') where
  perm := by
    refine (h.perm.append_left c).trans (perm_iff_count.mpr fun x => ?_)
    simp only [count_append]
    omega
  same hm ho := by
    obtain ⟨rfl, hm⟩ := append_eq_nil_iff.mp hm
    exact h.same hm ho

end Lowers

theorem lowers_callee (ht : t.Named) (w : Bool) (callee : Expr) :
    Lowers (t.callEffects w (callablePath callee)) (calleeMissed t w callee) true
      (t.callEffects w (callablePath callee.lowered)) := by
  rw [callEffects_lowered ht]
  exact ⟨.rfl, fun hm _ => by rw [hm, append_nil]⟩

section Lowered

variable (ht : t.Named)
include ht

mutual

theorem lowers_effects (w : Bool) (e : Expr) :
    Lowers (effects t w e) (missed t w e) (inOrder t w e) (effects t w e.lowered) := by
  cases e
  case through input stage span =>
    have hin := lowers_effects w input
    have hst := lowers_effects w stage
    cases stage
    case call callee arguments _ _ =>
      have hc := (lowers_callee ht w callee).append (lowers_effects w callee)
      have h := (hc.swap hin).append (lowers_allEffects w arguments)
      simp only [Expr.lowered, effects, allEffects, missed, inOrder]
      simpa only [append_assoc, Bool.true_and] using h
    case «variable» name _ =>
      have h := hin.ahead (t.callEffects w (some name))
      simpa [Expr.lowered, effects, allEffects, missed, inOrder, callablePath] using h
    case get object name at_ =>
      have h := ((lowers_effects w object).swap hin).ahead
        (t.callEffects w (callablePath (.get object.lowered name at_)))
      simpa [Expr.lowered, effects, allEffects, missed, inOrder] using h
    all_goals
      rw [lowered_through rfl, missed_through rfl, inOrder_through rfl, effects, effects]
      exact hin.append hst
  case literal | «variable» => exact .nil
  all_goals rw [Expr.lowered, effects, effects, missed, inOrder]
  case perform value _ => exact lowers_effects true value
  case text pieces _ => exact lowers_piecesEffects w pieces
  case array values _ => exact lowers_allEffects w values
  case assign _ value _ | unary _ value _ | propagate value _ | get value _ _ =>
    exact lowers_effects w value
  case call callee arguments _ _ =>
    exact ((lowers_callee ht w callee).append (lowers_effects w callee)).append
      (lowers_allEffects w arguments)
  case binary left _ right _ | logical left _ right _ | coalesce left right _
      | index left right _ =>
    exact (lowers_effects w left).append (lowers_effects w right)
  case matchArms subject arms _ =>
    exact (lowers_effects w subject).append (lowers_armsEffects w arms)

theorem lowers_allEffects (w : Bool) : (es : List Expr) → Lowers (allEffects t w es)
    (allMissed t w es) (allInOrder t w es) (allEffects t w (Expr.loweredAll es))
  | [] => .nil
  | value :: rest => (lowers_effects w value).append (lowers_allEffects w rest)

theorem lowers_piecesEffects (w : Bool) : (pieces : List TextPiece) →
    Lowers (piecesEffects t w pieces) (piecesMissed t w pieces) (piecesInOrder t w pieces)
      (piecesEffects t w (Expr.loweredPieces pieces))
  | [] => .nil
  | .literal _ :: rest => lowers_piecesEffects w rest
  | .hole value :: rest => (lowers_effects w value).append (lowers_piecesEffects w rest)

theorem lowers_armsEffects (w : Bool) : (arms : List MatchArm) →
    Lowers (armsEffects t w arms) (armsMissed t w arms) (armsInOrder t w arms)
      (armsEffects t w (Expr.loweredArms arms))
  | [] => .nil
  | ⟨_, guard, value, _⟩ :: rest =>
    ((lowers_optionalEffects w guard).append (lowers_effects w value)).append
      (lowers_armsEffects w rest)

theorem lowers_optionalEffects (w : Bool) : (guard : Option Expr) →
    Lowers (optionalEffects t w guard) (optionalMissed t w guard) (optionalInOrder t w guard)
      (optionalEffects t w (Expr.loweredOptional guard))
  | none => .nil
  | some value => lowers_effects w value

end

end Lowered

theorem declare_lowered (t : Tables) (body : List Stmt) :
    t.declare (Stmt.allLowered body) = t.declare body := by
  obtain ⟨standard, functions⟩ := t
  rw [Tables.declare, Tables.declare]
  congr 1
  induction body generalizing functions with
  | nil => rfl
  | cons head rest ih =>
    rw [Stmt.allLowered, foldl_cons, foldl_cons]
    cases head <;> exact ih _

def loweredVisits (visited : List (Tables × Expr) × Tables) : List (Tables × Expr) × Tables :=
  (visited.1.map fun visit => (visit.1, visit.2.lowered), visited.2)

mutual

theorem visits_lowered (s : Stmt) (t : Tables) :
    visits s.lowered t = loweredVisits (visits s t) := by
  cases s
  case block body _ | module _ body _ _ | function _ _ _ _ _ _ body _ =>
    rw [Stmt.lowered, visits, visits, declare_lowered]
    exact allVisits_lowered body (t.declare body)
  case ifStmt condition thenBranch elseBranch _ | ifCarries condition _ thenBranch elseBranch _ =>
    rw [Stmt.lowered, visits, visits, visits_lowered thenBranch t]
    simp only [loweredVisits, optionalVisits_lowered elseBranch (visits thenBranch t).2,
      map_cons, map_append]
  case whileStmt _ body _ | forStmt _ _ _ body _ | «using» _ _ body _ =>
    rw [Stmt.lowered, visits, visits, visits_lowered body t]
    rfl
  case returnStmt value _ => cases value <;> rfl
  case prepare | letStmt | letPattern | expression | print =>
    rw [Stmt.lowered, visits, visits]
    rfl
  all_goals rfl

theorem allVisits_lowered : (body : List Stmt) → (t : Tables) →
    allVisits (Stmt.allLowered body) t = loweredVisits (allVisits body t)
  | [], t => rfl
  | head :: rest, t => by
    rw [Stmt.allLowered, allVisits, allVisits, visits_lowered head t]
    simp only [loweredVisits, allVisits_lowered rest (visits head t).2, map_append]

theorem optionalVisits_lowered : (branch : Option Stmt) → (t : Tables) →
    optionalVisits (Stmt.optionalLowered branch) t = loweredVisits (optionalVisits branch t)
  | none, _ => rfl
  | some branch, t => visits_lowered branch t

end

theorem programVisits_lowered (program : List Stmt) : programVisits (Stmt.allLowered program) =
    (programVisits program).map fun visit => (visit.1, visit.2.lowered) := by
  rw [programVisits, declare_lowered, allVisits_lowered]
  rfl

mutual

/-- The names of the functions the walk comes across. -/
def functionNames : Stmt → List String
  | .function name _ _ _ _ _ body _ => name :: allFunctionNames body
  | .block body _ | .module _ body _ _ => allFunctionNames body
  | .ifStmt _ thenBranch elseBranch _ | .ifCarries _ _ thenBranch elseBranch _ =>
    functionNames thenBranch ++ optionalFunctionNames elseBranch
  | .whileStmt _ body _ | .forStmt _ _ _ body _ | .using _ _ body _ => functionNames body
  | _ => []

def allFunctionNames : List Stmt → List String
  | [] => []
  | head :: rest => functionNames head ++ allFunctionNames rest

def optionalFunctionNames : Option Stmt → List String
  | none => []
  | some branch => functionNames branch

end

theorem Tables.Named.declare (ht : t.Named) {body : List Stmt}
    (h : "dynamic-call" ∉ allFunctionNames body) : (t.declare body).Named := by
  obtain ⟨standard, functions⟩ := t
  induction body generalizing functions with
  | nil => exact ht
  | cons head rest ih =>
    rw [allFunctionNames, mem_append, not_or] at h
    cases head
    case function name _ _ _ needs _ _ _ =>
      have hne : ("dynamic-call" == name) = false := by
        rw [beq_eq_false_iff_ne]
        rintro rfl
        exact h.1 (by rw [functionNames]; exact mem_cons_self)
      refine ih h.2 ((name, sorted needs) :: functions) ?_
      have ht' : (standard.lookup "dynamic-call").or (functions.lookup "dynamic-call") = none := ht
      change (standard.lookup "dynamic-call").or (((name, sorted needs) :: functions).lookup _) = none
      rw [lookup_cons, hne]
      exact ht'
    all_goals exact ih h.2 functions ht

mutual

theorem named_visits (s : Stmt) (t : Tables) (ht : t.Named) (h : "dynamic-call" ∉ functionNames s) :
    (∀ visit ∈ (visits s t).1, visit.1.Named) ∧ (visits s t).2.Named := by
  cases s
  case block body _ | module _ body _ _ =>
    exact named_allVisits body _ (ht.declare h) h
  case function _ _ _ _ _ _ body _ =>
    rw [functionNames, mem_cons, not_or] at h
    exact named_allVisits body _ (ht.declare h.2) h.2
  case ifStmt _ thenBranch elseBranch _ | ifCarries _ _ thenBranch elseBranch _ =>
    rw [functionNames, mem_append, not_or] at h
    have hf := named_visits thenBranch t ht h.1
    have hse := named_optionalVisits elseBranch _ hf.2 h.2
    exact ⟨forall_mem_cons.mpr ⟨ht, forall_mem_append.mpr ⟨hf.1, hse.1⟩⟩, hse.2⟩
  case whileStmt _ body _ | forStmt _ _ _ body _ | «using» _ _ body _ =>
    have hb := named_visits body t ht h
    exact ⟨forall_mem_cons.mpr ⟨ht, hb.1⟩, hb.2⟩
  case returnStmt value _ =>
    rw [visits]
    refine ⟨fun visit hv => ?_, ht⟩
    obtain ⟨e, -, rfl⟩ := mem_map.mp hv
    exact ht
  case prepare | letStmt | letPattern | expression | print =>
    rw [visits]
    exact ⟨forall_mem_singleton.mpr ht, ht⟩
  all_goals exact ⟨nofun, ht⟩

theorem named_allVisits : (body : List Stmt) → (t : Tables) → t.Named →
    "dynamic-call" ∉ allFunctionNames body →
    (∀ visit ∈ (allVisits body t).1, visit.1.Named) ∧ (allVisits body t).2.Named
  | [], t, ht, _ => ⟨nofun, ht⟩
  | head :: rest, t, ht, h => by
    rw [allFunctionNames, mem_append, not_or] at h
    have hf := named_visits head t ht h.1
    have hse := named_allVisits rest _ hf.2 h.2
    rw [allVisits]
    exact ⟨forall_mem_append.mpr ⟨hf.1, hse.1⟩, hse.2⟩

theorem named_optionalVisits : (branch : Option Stmt) → (t : Tables) → t.Named →
    "dynamic-call" ∉ optionalFunctionNames branch →
    (∀ visit ∈ (optionalVisits branch t).1, visit.1.Named) ∧ (optionalVisits branch t).2.Named
  | none, _, ht, _ => ⟨nofun, ht⟩
  | some branch, t, ht, h => named_visits branch t ht h

end

def programMissed (program : List Stmt) : List Effect :=
  (programVisits program).flatMap fun visit => missed visit.1 false visit.2

theorem named_standard : Tables.Named ⟨standardEffects, []⟩ := by
  rw [Tables.Named, Tables.needs]
  decide

variable {program : List Stmt}

theorem named_programVisits (h : "dynamic-call" ∉ allFunctionNames program) :
    ∀ visit ∈ programVisits program, visit.1.Named :=
  (named_allVisits program _ (named_standard.declare h) h).1

theorem lowers_programEffects (h : "dynamic-call" ∉ allFunctionNames program) :
    Lowers (programEffects program) (programMissed program)
      ((programVisits program).all fun visit => inOrder visit.1 false visit.2)
      (programEffects (Stmt.allLowered program)) := by
  have hn := named_programVisits h
  rw [programEffects, programEffects, programMissed, programVisits_lowered]
  generalize programVisits program = visited at hn
  induction visited with
  | nil => exact .nil
  | cons visit rest ih =>
    obtain ⟨hv, hr⟩ := forall_mem_cons.mp hn
    exact (lowers_effects hv false visit.2).append (ih hr)

def IntentGraph.operations (graph : IntentGraph) : List String :=
  graph.nodes.filterMap fun node => node.effectOrder.map fun _ => node.operation

theorem operations_eq (program : List Stmt) (optimization : Optimization) :
    (analyze program optimization).operations = (programEffects program).map Effect.operation := by
  rw [← (records_program program optimization).reports, map_filterMap]
  refine filterMap_congr fun node _ => ?_
  cases h : node.effectOrder <;> simp [IntentNode.effect, h]

/-- Two graphs report the same capabilities, number and order of effects, and verdict. -/
structure SameIntent (g g' : IntentGraph) : Prop where
  capabilities : g.summary.requiredCapabilities = g'.summary.requiredCapabilities
  count : g.summary.effectCount = g'.summary.effectCount
  order : g.summary.serialEffectOrder = g'.summary.serialEffectOrder
  verdict : g.validate.isOk = g'.validate.isOk

theorem sameIntent_of_perm {p q : List Stmt} (h : (programEffects p).Perm (programEffects q))
    (optimization : Optimization) :
    SameIntent (analyze p optimization) (analyze q optimization) where
  capabilities := by
    rw [requiredCapabilities_eq, requiredCapabilities_eq]
    refine sorted_eq_sorted fun c => ?_
    simp only [mem_flatMap, h.mem_iff]
  count := by rw [effectCount_eq, effectCount_eq, h.length_eq]
  order := by rw [serialEffectOrder_eq, serialEffectOrder_eq, h.length_eq]
  verdict := by
    rw [Bool.eq_iff_iff, validate_isOk_iff, validate_isOk_iff]
    simp only [h.mem_iff]

/-- `perform ("p" through std.files.read())`, whose stage is a call. -/
def callStage : List Stmt :=
  let at_ : Span := ⟨1, 1⟩
  let read := Expr.get (.get (.variable "std" at_) "files" at_) "read" at_
  [.expression (.perform (.through (.literal (.string "p") at_) (.call read [] none at_) at_) at_)]

/-- `"p" through std.files.read`, whose stage is a bare function. -/
def bareStage : List Stmt :=
  let at_ : Span := ⟨1, 1⟩
  let read := Expr.get (.get (.variable "std" at_) "files" at_) "read" at_
  [.expression (.through (.literal (.string "p") at_) read at_)]

end Nivren.Intent
