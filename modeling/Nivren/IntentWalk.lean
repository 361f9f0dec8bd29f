import Nivren.Intent
import Nivren.Through

/-! What intent analysis reports, without the graph.

The effects of an expression are the calls in it that need capabilities, in the order of the walk.
A graph reports exactly the effects of the expressions the walk visits: its other nodes add no
capability and no verdict of their own.
-/

namespace Nivren.Intent

open List

open Analyzer (call effectNode new prepare push)

/-- A call that needs capabilities, and whether it stands inside a `perform`. -/
structure Effect where
  operation : String
  capabilities : List String
  withinPerform : Bool
deriving DecidableEq

/-- The effect of a call of the given path; a call without a path is looked up as `dynamic-call`. -/
def Tables.callEffects (t : Tables) (w : Bool) (path : Option String) : List Effect :=
  match sorted ((t.needs (path.getD "dynamic-call")).getD []) with
  | [] => []
  | first :: rest => [⟨path.getD "dynamic-call", first :: rest, w⟩]

mutual

def effects (t : Tables) (w : Bool) : Expr → List Effect
  | .perform value _ => effects t true value
  | .text pieces _ => piecesEffects t w pieces
  | .through input stage _ => effects t w input ++ effects t w stage
  | .call callee arguments _ _ =>
    t.callEffects w (callablePath callee) ++ effects t w callee ++ allEffects t w arguments
  | .assign _ value _ | .unary _ value _ | .propagate value _ | .get value _ _ => effects t w value
  | .binary left _ right _ | .logical left _ right _ | .coalesce left right _
  | .index left right _ => effects t w left ++ effects t w right
  | .array values _ => allEffects t w values
  | .matchArms subject arms _ => effects t w subject ++ armsEffects t w arms
  | .literal .. | .variable .. => []

def allEffects (t : Tables) (w : Bool) : List Expr → List Effect
  | [] => []
  | value :: rest => effects t w value ++ allEffects t w rest

def piecesEffects (t : Tables) (w : Bool) : List TextPiece → List Effect
  | [] => []
  | .literal _ :: rest => piecesEffects t w rest
  | .hole value :: rest => effects t w value ++ piecesEffects t w rest

def armsEffects (t : Tables) (w : Bool) : List MatchArm → List Effect
  | [] => []
  | ⟨_, guard, value, _⟩ :: rest =>
    optionalEffects t w guard ++ effects t w value ++ armsEffects t w rest

def optionalEffects (t : Tables) (w : Bool) : Option Expr → List Effect
  | none => []
  | some value => effects t w value

end

def Tables.declare (t : Tables) (statements : List Stmt) : Tables :=
  { t with functions := statements.foldl (fun functions statement => match statement with
      | .function name _ _ _ needs _ _ _ => (name, sorted needs) :: functions
      | _ => functions) t.functions }

mutual

/-- The expressions the walk visits, each with the tables in force there, and the tables after it. -/
def visits : Stmt → Tables → List (Tables × Expr) × Tables
  | .prepare _ _ value _, t | .letStmt _ _ _ value _, t | .letPattern _ value _, t
  | .expression value, t | .print value _, t => ([(t, value)], t)
  | .block body _, t | .module _ body _ _, t | .function _ _ _ _ _ _ body _, t =>
    allVisits body (t.declare body)
  | .ifStmt condition thenBranch elseBranch _, t
  | .ifCarries condition _ thenBranch elseBranch _, t =>
    let first := visits thenBranch t
    let second := optionalVisits elseBranch first.2
    ((t, condition) :: (first.1 ++ second.1), second.2)
  | .whileStmt condition body _, t | .forStmt _ _ condition body _, t | .using _ condition body _, t =>
    let rest := visits body t
    ((t, condition) :: rest.1, rest.2)
  | .returnStmt value _, t => (value.toList.map (t, ·), t)
  | .doc .., t | .stop .., t | .skip .., t | .promise .., t | .trusted .., t | .sample .., t
  | .generator .., t | .expand .., t | .record .., t | .enum .., t | .protocol .., t
  | .adoption .., t | .importStmt .., t | .exportStmt .., t => ([], t)

def allVisits : List Stmt → Tables → List (Tables × Expr) × Tables
  | [], t => ([], t)
  | head :: rest, t =>
    let first := visits head t
    let second := allVisits rest first.2
    (first.1 ++ second.1, second.2)

def optionalVisits : Option Stmt → Tables → List (Tables × Expr) × Tables
  | none, t => ([], t)
  | some branch, t => visits branch t

end

/-- The expressions `analyze` visits. -/
def programVisits (program : List Stmt) : List (Tables × Expr) :=
  let tables : Tables := ⟨standardEffects, []⟩
  (allVisits program (tables.declare program)).1

def visitedEffects (visited : List (Tables × Expr)) : List Effect :=
  visited.flatMap fun visit => effects visit.1 false visit.2

variable {values : List String}

theorem mem_dedupRuns {x : String} : x ∈ dedupRuns values ↔ x ∈ values := by
  induction values using dedupRuns.induct with
  | case1 => rfl
  | case2 y => rfl
  | case3 y rest ih =>
    rw [dedupRuns, if_pos rfl, ih]
    simp
  | case4 y z rest hne ih =>
    rw [dedupRuns, if_neg hne, mem_cons, ih]
    simp

theorem mem_sorted {x : String} : x ∈ sorted values ↔ x ∈ values := by
  rw [sorted, mem_dedupRuns, mem_insertionSort]

theorem pairwise_dedupRuns (h : values.Pairwise (· ≤ ·)) : (dedupRuns values).Pairwise (· < ·) := by
  induction values using dedupRuns.induct with
  | case1 => exact List.Pairwise.nil
  | case2 y => exact pairwise_singleton _ _
  | case3 y rest ih =>
    rw [dedupRuns, if_pos rfl]
    exact ih (pairwise_cons.mp h).2
  | case4 y z rest hne ih =>
    rw [dedupRuns, if_neg hne, pairwise_cons]
    obtain ⟨hle, hta⟩ := pairwise_cons.mp h
    constructor
    · intro x hx
      have hmem := mem_dedupRuns.mp hx
      have hyz : y < z := lt_of_le_of_ne (hle z mem_cons_self) hne
      rcases mem_cons.mp hmem with rfl | hr
      · exact hyz
      · exact lt_of_lt_of_le hyz ((pairwise_cons.mp hta).1 x hr)
    · exact ih hta

theorem pairwise_sorted (values : List String) : (sorted values).Pairwise (· < ·) :=
  pairwise_dedupRuns (pairwise_insertionSort (· ≤ ·) values)

theorem isChain_sorted (values : List String) : (sorted values).IsChain (· < ·) :=
  (pairwise_sorted values).isChain

variable {a b : List String}

theorem sorted_eq_sorted (h : ∀ x, x ∈ a ↔ x ∈ b) : sorted a = sorted b := by
  have hp : (sorted a).Perm (sorted b) := by
    rw [perm_ext_iff_of_nodup (pairwise_sorted a).nodup (pairwise_sorted b).nodup]
    intro x
    rw [mem_sorted, mem_sorted, h]
  exact hp.eq_of_pairwise' (pairwise_sorted a) (pairwise_sorted b)

def IntentNode.effect (node : IntentNode) : Option Effect :=
  node.effectOrder.map fun _ =>
    ⟨node.operation, node.capabilities, node.portability != "effect-call-requires-perform"⟩

def Covers (capabilities : List String) (reported : List Effect) : Prop :=
  ∀ c ∈ capabilities, ∃ e ∈ reported, c ∈ e.capabilities

theorem Covers.append {l m : List Effect} (h : Covers a l) (h' : Covers b m) :
    Covers (a ++ b) (l ++ m) := by
  intro c hc
  rcases mem_append.mp hc with hc | hc
  · obtain ⟨e, he, hce⟩ := h c hc
    exact ⟨e, mem_append_left _ he, hce⟩
  · obtain ⟨e, he, hce⟩ := h' c hc
    exact ⟨e, mem_append_right _ he, hce⟩

/-- A node is in canonical form and reports no effect outside the given ones. -/
structure IntentNode.Fits (reported : List Effect) (node : IntentNode) : Prop where
  capabilities : node.capabilities.IsChain (· < ·)
  resources : node.resources.IsChain (· < ·)
  covered : Covers node.capabilities reported
  quiet : node.effectOrder = none → node.portability ≠ "effect-call-requires-perform"

/-- The nodes are numbered from `first`, their effects from `order`, and report the given effects. -/
structure Records (first order : ℕ) (nodes : List IntentNode) (reported : List Effect) : Prop where
  ids : nodes.map IntentNode.id = range' first nodes.length
  orders : nodes.filterMap IntentNode.effectOrder = range' order reported.length
  reports : nodes.filterMap IntentNode.effect = reported
  fits : ∀ node ∈ nodes, node.Fits reported

/-- The walk from one analyzer to the other reported the given effects. -/
structure Emits (a b : Analyzer) (reported : List Effect) : Prop where
  nodes : ∃ new, b.nodes = a.nodes ++ new ∧ Records a.nodes.length a.effectOrder new reported
  order : b.effectOrder = a.effectOrder + reported.length

variable {node : IntentNode}

theorem IntentNode.Fits.mono {small large : List Effect} (h : node.Fits small)
    (hsub : small ⊆ large) : node.Fits large where
  capabilities := h.capabilities
  resources := h.resources
  covered c hc := by
    obtain ⟨e, he, hce⟩ := h.covered c hc
    exact ⟨e, hsub he, hce⟩
  quiet := h.quiet

theorem Records.nil (first order : ℕ) : Records first order [] [] := ⟨rfl, rfl, rfl, by simp⟩

variable {reported : List Effect} {nodes : List IntentNode} {first : ℕ}

theorem Records.append {order : ℕ} {nodes' : List IntentNode}
    {reported' : List Effect} (h : Records first order nodes reported)
    (h' : Records (first + nodes.length) (order + reported.length) nodes' reported') :
    Records first order (nodes ++ nodes') (reported ++ reported') where
  ids := by
    rw [map_append, h.ids, h'.ids, length_append, List.range'_append_1]
  orders := by
    rw [filterMap_append, h.orders, h'.orders, length_append, List.range'_append_1]
  reports := by rw [filterMap_append, h.reports, h'.reports]
  fits node hn := by
    rcases mem_append.mp hn with hn | hn
    · exact (h.fits node hn).mono (subset_append_left _ _)
    · exact (h'.fits node hn).mono (subset_append_right _ _)

namespace Emits

theorem refl (a : Analyzer) : Emits a a [] := ⟨⟨[], by simp, Records.nil _ _⟩, rfl⟩

theorem trans {a b c : Analyzer} {first second : List Effect} (h : Emits a b first)
    (h' : Emits b c second) : Emits a c (first ++ second) := by
  obtain ⟨⟨new, hn, hnew⟩, hor⟩ := h
  obtain ⟨⟨new', hno, hne⟩, hod⟩ := h'
  rw [hn, length_append, hor] at hne
  refine ⟨⟨new ++ new', ?_, hnew.append hne⟩, ?_⟩
  · rw [hno, hn, append_assoc]
  · rw [hod, hor, length_append, Nat.add_assoc]

theorem announce {a b : Analyzer}
    (h : Emits (a.push node) b reported) (hor : node.effectOrder = none)
    (hq : node.portability ≠ "effect-call-requires-perform")
    (hco : Covers node.capabilities reported) : Emits a b reported := by
  obtain ⟨⟨new, hn, hnew⟩, hef⟩ := h
  refine ⟨⟨_ :: new, by rw [hn, push, append_assoc]; rfl, ?_⟩, hef⟩
  have hids := hnew.ids
  have hf := hnew.fits
  simp only [push, length_append, length_singleton] at hids hf
  constructor
  · rw [map_cons, hids, length_cons, List.range'_succ]
  · rw [filterMap_cons_none (by exact hor)]
    exact hnew.orders
  · rw [filterMap_cons_none (by simp [IntentNode.effect, hor])]
    exact hnew.reports
  · refine forall_mem_cons.mpr ⟨?_, hf⟩
    exact ⟨isChain_sorted _, isChain_sorted _, fun c hc => hco c (mem_sorted.mp hc), fun _ => hq⟩

end Emits

theorem emits_call (a : Analyzer) (path : Option String) (span : Span) (w : Bool) :
    Emits a (a.call (path.getD "dynamic-call") span w) (a.tables.callEffects w path) := by
  rw [call, Tables.callEffects, Analyzer.callCapabilities]
  generalize path.getD "dynamic-call" = operation
  cases hca : sorted ((a.tables.needs operation).getD []) with
  | nil =>
    dsimp only
    split
    · exact (Emits.refl _).announce rfl (by simp [Analyzer.resourceNode]) nofun
    · exact Emits.refl a
  | cons first rest =>
    have hso : sorted (first :: rest) = first :: rest := by rw [← hca, sorted_eq_sorted fun _ => mem_sorted]
    refine ⟨⟨[_], rfl, ?_⟩, rfl⟩
    constructor
    · rfl
    · rfl
    · cases w <;> simp [IntentNode.effect, effectNode, hso]
    · intro node hn
      obtain rfl := mem_singleton.mp hn
      refine ⟨isChain_sorted _, isChain_sorted _, fun c hc => ?_, nofun⟩
      exact ⟨_, mem_singleton_self _, by simpa [effectNode, hso] using hc⟩

theorem covers_callEffects {t : Tables} {w : Bool} {path : Option String} :
    Covers ((path.bind t.needs).getD []) (t.callEffects w path) := by
  intro c hc
  cases path with
  | none => cases hc
  | some path =>
    rw [Option.bind_some, ← mem_sorted] at hc
    rw [Tables.callEffects, Option.getD_some]
    cases hca : sorted ((t.needs path).getD []) with
    | nil =>
      rw [hca] at hc
      cases hc
    | cons first rest =>
      rw [hca] at hc
      exact ⟨_, mem_singleton_self _, hc⟩

/-- From the first tables the visit reports the effects and leads to the second tables. -/
def Moves (t t' : Tables) (visit : Analyzer → Analyzer) (reported : List Effect) : Prop :=
  ∀ a : Analyzer, a.tables = t → Emits a (visit a) reported ∧ (visit a).tables = t'

namespace Moves

variable {t t' t'' : Tables} {visit next : Analyzer → Analyzer} {reported reported' : List Effect}

theorem id (t : Tables) : Moves t t (fun a => a) [] := fun a ha => ⟨Emits.refl a, ha⟩

theorem seq (h : Moves t t' visit reported) (h' : Moves t' t'' next reported') :
    Moves t t'' (fun a => next (visit a)) (reported ++ reported') := by
  intro a ha
  obtain ⟨hf, htb⟩ := h a ha
  obtain ⟨hse, hta⟩ := h' (visit a) htb
  exact ⟨hf.trans hse, hta⟩

theorem announce {node : Analyzer → IntentNode} (h : Moves t t' visit reported)
    (hn : ∀ a, (node a).effectOrder = none ∧ (node a).portability ≠ "effect-call-requires-perform")
    (hc : ∀ a : Analyzer, a.tables = t → Covers (node a).capabilities reported) :
    Moves t t' (fun a => visit (a.push (node a))) reported := by
  intro a ha
  obtain ⟨hv, hta⟩ := h (a.push (node a)) ha
  exact ⟨hv.announce (hn a).1 (hn a).2 (hc a ha), hta⟩

end Moves

/-- The visit leaves the tables and reports what it collects, and the capabilities go back to that. -/
structure Walks (t : Tables) (capabilities : List String) (visit : Analyzer → Analyzer)
    (reported : List Effect) : Prop where
  covers : Covers capabilities reported
  moves : Moves t t visit reported

theorem Walks.nil (t : Tables) : Walks t [] (fun a => a) [] := ⟨nofun, Moves.id t⟩

theorem Walks.seq {t : Tables} {visit next : Analyzer → Analyzer} {reported' : List Effect}
    (h : Walks t a visit reported) (h' : Walks t b next reported') :
    Walks t (a ++ b) (fun a => next (visit a)) (reported ++ reported') :=
  ⟨h.covers.append h'.covers, h.moves.seq h'.moves⟩

theorem walks_call (t : Tables) (path : Option String) (span : Span) (w : Bool) :
    Walks t ((path.bind t.needs).getD []) (fun a => a.call (path.getD "dynamic-call") span w)
      (t.callEffects w path) := by
  refine ⟨covers_callEffects, fun a ha => ⟨ha ▸ emits_call a path span w, ?_⟩⟩
  rw [call]
  split
  · exact ha
  · split <;> exact ha

theorem Covers.expressionCapabilities {t : Tables} {e : Expr}
    (h : Covers (collectCapabilities t e) reported) (a : Analyzer) (ha : a.tables = t) :
    Covers (a.expressionCapabilities e) reported :=
  fun c hc => h c (ha ▸ mem_sorted.mp hc)

mutual

theorem walks_expression (w : Bool) (e : Expr) :
    Walks t (collectCapabilities t e) (Analyzer.expression w e) (effects t w e) := by
  cases e <;> rw [collectCapabilities, effects]
  case through input stage span =>
    have h := (walks_expression (t := t) w input).seq (walks_expression w stage)
    refine ⟨h.covers, h.moves.announce (fun a => ⟨rfl, ?_⟩) ?_⟩
    · rw [Analyzer.pipelineNode]
      dsimp only
      split <;> decide
    · exact Covers.expressionCapabilities (e := .through input stage span) h.covers
  case perform value span =>
    have h := walks_expression (t := t) true value
    exact ⟨h.covers, h.moves.announce (fun a => ⟨rfl, by simp [Analyzer.boundaryNode]⟩)
      h.covers.expressionCapabilities⟩
  case call callee arguments _ span =>
    have hca := walks_call t (callablePath callee) span w
    exact (hca.seq (walks_expression w callee)).seq (walks_expressions w arguments)
  case assign _ value _ | unary _ value _ | propagate value _ | get value _ _ =>
    exact walks_expression w value
  case binary left _ right _ | logical left _ right _ | coalesce left right _
      | index left right _ =>
    exact (walks_expression w left).seq (walks_expression w right)
  case array values _ => exact walks_expressions w values
  case matchArms subject arms _ => exact (walks_expression w subject).seq (walks_arms w arms)
  case text pieces _ => exact walks_texts w pieces
  all_goals exact .nil t

theorem walks_expressions (w : Bool) : (es : List Expr) →
    Walks t (collectAll t es) (Analyzer.expressions w es) (allEffects t w es)
  | [] => .nil t
  | value :: rest => (walks_expression w value).seq (walks_expressions w rest)

theorem walks_texts (w : Bool) : (pieces : List TextPiece) →
    Walks t (collectPieces t pieces) (Analyzer.texts w pieces) (piecesEffects t w pieces)
  | [] => .nil t
  | .literal _ :: rest => walks_texts w rest
  | .hole value :: rest => (walks_expression w value).seq (walks_texts w rest)

theorem walks_arms (w : Bool) : (arms : List MatchArm) →
    Walks t (collectArms t arms) (Analyzer.arms w arms) (armsEffects t w arms)
  | [] => .nil t
  | ⟨_, guard, value, _⟩ :: rest =>
    ((walks_optional w guard).seq (walks_expression w value)).seq (walks_arms w rest)

theorem walks_optional (w : Bool) : (guard : Option Expr) → Walks t (collectOptional t guard)
    (Analyzer.optionalExpression w guard) (optionalEffects t w guard)
  | none => .nil t
  | some value => walks_expression w value

end

theorem moves_prepare (t : Tables) (planType : String) (value : Expr) (span : Span) :
    Moves t t (prepare planType value span) (effects t false value) := by
  intro a ha
  have hw := walks_expression (t := t) false value
  rw [prepare]
  generalize portablePayload value = payload
  generalize ((a.expressionCapabilities value).isEmpty && portableExpression value &&
    payload.isSome) = portable
  generalize a.planPayloads ++ _ = payloads
  generalize hp : push a _ = pushed
  have ha' : pushed.tables = t := by
    rw [← hp]
    exact ha
  obtain ⟨het, hta⟩ := hw.moves { pushed with planPayloads := payloads } ha'
  refine ⟨?_, hta⟩
  have hem : Emits pushed _ (effects t false value) := ⟨het.nodes, het.order⟩
  rw [← hp] at hem ⊢
  refine hem.announce rfl ?_ (hw.covers.expressionCapabilities a ha)
  cases portable <;> simp [Analyzer.planNode]

theorem moves_declareFunctions (t : Tables) (body : List Stmt) :
    Moves t (t.declare body) (Analyzer.declareFunctions body) [] := by
  intro a ha
  subst ha
  exact ⟨⟨⟨[], by simp [Analyzer.declareFunctions], Records.nil _ _⟩, rfl⟩, rfl⟩

theorem visitedEffects_cons (t : Tables) (e : Expr) (visited : List (Tables × Expr)) :
    visitedEffects ((t, e) :: visited) = effects t false e ++ visitedEffects visited := rfl

theorem visitedEffects_append (first second : List (Tables × Expr)) :
    visitedEffects (first ++ second) = visitedEffects first ++ visitedEffects second :=
  flatMap_append

theorem visitedEffects_single (t : Tables) (e : Expr) :
    visitedEffects [(t, e)] = effects t false e := append_nil _

mutual

theorem moves_statement (s : Stmt) (t : Tables) :
    Moves t (visits s t).2 (Analyzer.statement s) (visitedEffects (visits s t).1) := by
  cases s
  case prepare _ planType value span =>
    rw [visits, visitedEffects_single]
    exact moves_prepare t planType value span
  case letStmt _ _ _ value _ | letPattern _ value _ | expression value | print value _ =>
    rw [visits, visitedEffects_single]
    exact (walks_expression false value).moves
  case block body _ | module _ body _ _ | function _ _ _ _ _ _ body _ =>
    rw [visits]
    exact (moves_declareFunctions t body).seq (moves_visitAll body (t.declare body))
  case ifStmt condition thenBranch elseBranch _ | ifCarries condition _ thenBranch elseBranch _ =>
    rw [visits, visitedEffects_cons, visitedEffects_append, ← append_assoc]
    exact ((walks_expression false condition).moves.seq (moves_statement thenBranch t)).seq
      (moves_optionalBranch elseBranch (visits thenBranch t).2)
  case whileStmt condition body _ | forStmt _ _ condition body _ | «using» _ condition body _ =>
    rw [visits, visitedEffects_cons]
    exact (walks_expression false condition).moves.seq (moves_statement body t)
  case returnStmt value _ =>
    cases value with
    | none => exact Moves.id t
    | some value =>
      rw [visits, Option.toList_some, map_singleton, visitedEffects_single]
      exact (walks_expression false value).moves
  all_goals exact Moves.id t

theorem moves_visitAll : (body : List Stmt) → (t : Tables) →
    Moves t (allVisits body t).2 (Analyzer.visitAll body) (visitedEffects (allVisits body t).1)
  | [], t => Moves.id t
  | head :: rest, t => by
    rw [allVisits, visitedEffects_append]
    exact (moves_statement head t).seq (moves_visitAll rest (visits head t).2)

theorem moves_optionalBranch : (branch : Option Stmt) → (t : Tables) →
    Moves t (optionalVisits branch t).2 (Analyzer.optional branch)
      (visitedEffects (optionalVisits branch t).1)
  | none, t => Moves.id t
  | some branch, t => moves_statement branch t

end

def programEffects (program : List Stmt) : List Effect := visitedEffects (programVisits program)

variable (program : List Stmt) (optimization : Optimization)

theorem emits_program : Emits (new optimization)
      (Analyzer.statements program (new optimization)) (programEffects program) :=
  ((moves_declareFunctions _ program).seq (moves_visitAll program _) (new optimization) rfl).1

theorem records_program :
    Records 0 0 (analyze program optimization).nodes (programEffects program) := by
  obtain ⟨⟨new, hn, hr⟩, -⟩ := emits_program program optimization
  have hall : (analyze program optimization).nodes = new := hn
  rw [hall]
  exact hr

theorem requiredCapabilities_eq :
    (analyze program optimization).summary.requiredCapabilities =
      sorted ((programEffects program).flatMap Effect.capabilities) := by
  have h := records_program program optimization
  refine sorted_eq_sorted fun c => ?_
  change c ∈ (analyze program optimization).nodes.flatMap IntentNode.capabilities ↔ _
  rw [mem_flatMap, mem_flatMap]
  constructor
  · rintro ⟨node, hn, hc⟩
    exact (h.fits node hn).covered c hc
  · rintro ⟨e, he, hc⟩
    rw [← h.reports, mem_filterMap] at he
    obtain ⟨node, hn, hef⟩ := he
    obtain ⟨_, -, rfl⟩ := Option.map_eq_some_iff.mp hef
    exact ⟨node, hn, hc⟩

theorem serialEffectOrder_eq :
    (analyze program optimization).summary.serialEffectOrder =
      range (programEffects program).length := by
  rw [range_eq_range']
  exact (records_program program optimization).orders

theorem effectCount_eq :
    (analyze program optimization).summary.effectCount = (programEffects program).length := by
  have h := congrArg length (serialEffectOrder_eq program optimization)
  rwa [length_range] at h

theorem validateNodes_ok (hids : nodes.map IntentNode.id = range' first nodes.length)
    (hf : ∀ node ∈ nodes, node.Fits reported) : validateNodes first nodes = .ok () := by
  induction nodes generalizing first with
  | nil => rfl
  | cons node rest ih =>
    rw [map_cons, length_cons, List.range'_succ, cons.injEq] at hids
    have hn := hf node mem_cons_self
    have hv : validateNode first node = .ok () := by
      have hc : ¬ (¬ node.capabilities.IsChain (· < ·) ∨ ¬ node.resources.IsChain (· < ·)) :=
        not_or.mpr ⟨not_not.mpr hn.capabilities, not_not.mpr hn.resources⟩
      rw [validateNode, if_neg (not_not.mpr hids.1), if_neg hc]
    rw [validateNodes, hv]
    exact ih hids.2 fun other hot => hf other (mem_cons_of_mem _ hot)

theorem Records.all_withinPerform {order : ℕ} (h : Records first order nodes reported) :
    (∀ e ∈ reported, e.withinPerform = true) ↔
      ∀ node ∈ nodes, node.portability ≠ "effect-call-requires-perform" := by
  constructor
  · intro hall node hn hp
    cases hor : node.effectOrder with
    | none => exact (h.fits node hn).quiet hor hp
    | some order =>
      have hmem : ⟨node.operation, node.capabilities, false⟩ ∈ reported := by
        rw [← h.reports, mem_filterMap]
        exact ⟨node, hn, by simp [IntentNode.effect, hor, hp]⟩
      exact Bool.noConfusion (hall _ hmem)
  · intro hall e he
    rw [← h.reports, mem_filterMap] at he
    obtain ⟨node, hn, hef⟩ := he
    obtain ⟨_, -, rfl⟩ := Option.map_eq_some_iff.mp hef
    simpa using hall node hn

theorem validate_isOk_iff :
    (analyze program optimization).validate.isOk = true ↔
      ∀ e ∈ programEffects program, e.withinPerform = true := by
  have h := records_program program optimization
  have hn := validateNodes_ok h.ids h.fits
  have hor : (analyze program optimization).nodes.filterMap IntentNode.effectOrder =
      range (((analyze program optimization).nodes.filterMap IntentNode.effectOrder).length) := by
    rw [h.orders, length_range', range_eq_range']
  have hsc : (analyze program optimization).schema = intentSchema := rfl
  have hpl : (analyze program optimization).summary.pureRuntimePlanAllocations = 0 := rfl
  rw [h.all_withinPerform, IntentGraph.validate, if_neg (not_not.mpr hsc), hn]
  rw [if_neg (not_not.mpr hor), if_neg (not_not.mpr hpl)]
  cases hf : (analyze program optimization).nodes.find?
      (fun node => node.portability == "effect-call-requires-perform") with
  | none =>
    refine iff_of_true rfl fun node hno => ?_
    simpa using List.find?_eq_none.mp hf node hno
  | some node =>
    refine iff_of_false nofun fun hall => ?_
    have hp := List.find?_some hf
    exact hall node (List.mem_of_find?_eq_some hf) (by simpa using hp)

end Nivren.Intent
