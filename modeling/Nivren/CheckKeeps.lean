import Nivren.Checker
import Nivren.Library.Along

/-! What no check takes back: an error that was reported, and the number of loops around. -/

namespace Nivren

open Along List

variable {body : List Stmt}

namespace Checker

/-- The errors so far stay, and the loops around are the same. -/
structure Keeps (s s' : Checker) : Prop where
  errors : s.errors <+: s'.errors
  loopDepth : s'.loopDepth = s.loopDepth

instance : Std.Refl Keeps := ⟨fun _ => ⟨prefix_rfl, rfl⟩⟩

instance : IsTrans Checker Keeps :=
  ⟨fun _ _ _ h h' => ⟨h.errors.trans h'.errors, h'.loopDepth.trans h.loopDepth⟩⟩

abbrev Steady {α : Type} (m : Check α) : Prop := Moves Keeps m

/-- Everything else may be set. -/
instance {a b c d e f g h i j k l m n o p q r t u v : Checker → _} :
    Steady (modify fun s : Checker => { s with
      scopes := a s, records := b s, recordDerives := c s, enums := d s, typeParameters := e s
      typeConstraints := f s, typeNames := g s, protocols := h s, protocolMembers := i s
      adoptions := j s, dispatchAdoptions := k s, callableLabels := l s, activePromises := m s
      sampleTitles := n s, returns := o s, needs := p s, generics := q s, constraints := r s
      trustedScope := t s, loopBoundary := u s, namespace_ := v s }) :=
  moves_modify fun _ => ⟨prefix_rfl, rfl⟩

variable {span : Span} {message : String}

-- the reducible checks are searched through
set_option synthInstance.maxSize 1000

instance : Steady (report message span) := moves_modify fun _ => ⟨prefix_append _ _, rfl⟩

variable {expected : Ty}

variable {name : String}

instance (binding : TypeBinding) : Steady (declare name binding span) := by
  unfold declare
  refine moves_get.bind fun s => ?_
  split <;> infer_instance

instance (labels : List String) : Steady (setLabels name labels) := by
  unfold setLabels
  infer_instance

variable {α : Type}

theorem keeps_runAll {checks : List (Check α)} (h : ∀ m ∈ checks, Steady m) :
    Steady (runAll checks) := by
  induction checks with
  | nil => exact inferInstanceAs (Steady (pure []))
  | cons check rest ih =>
    have hc := h check mem_cons_self
    have hr := ih fun m hm => h m (mem_cons_of_mem _ hm)
    unfold runAll
    infer_instance

instance keeps_runAll_map {β : Type} {values : List α} {f : α → Check β} [h : ∀ a, Steady (f a)] :
    Steady (runAll (values.map f)) := by
  refine keeps_runAll fun m hm => ?_
  obtain ⟨a, -, rfl⟩ := mem_map.mp hm
  exact h a

variable {operation : Check Unit}

instance [h : Steady operation] : Steady (inScope operation) := by
  constructor
  intro s
  have hin := h.moves { s with scopes := [] :: s.scopes }
  exact ⟨hin.errors, hin.loopDepth⟩

instance [h : Steady operation] : Steady (insideLoop operation) := by
  constructor
  intro s
  have hin := h.moves { s with loopDepth := s.loopDepth + 1 }
  exact ⟨hin.errors, Nat.sub_eq_of_eq_add hin.loopDepth⟩

instance {boundary : String} [h : Steady operation] :
    Steady (outsideLoops boundary operation) := by
  constructor
  intro s
  have hin := h.moves { s with
    loopDepth := 0
    loopBoundary := if 0 < s.loopDepth then some boundary else none }
  exact ⟨hin.errors, rfl⟩

variable {constraints : List (String × String)}

instance {names : List String} {operation : Check α} [h : Steady operation] :
    Steady (withGenerics names constraints operation) := by
  constructor
  intro s
  have hin := h.moves { s with
    generics := names :: s.generics
    constraints := constraints :: s.constraints }
  exact ⟨hin.errors, hin.loopDepth⟩

variable {needs : List String}

instance {gives : Ty} [h : Steady operation] :
    Steady (withResult gives needs operation) := by
  constructor
  intro s
  have hin := h.moves { s with returns := gives :: s.returns, needs := needs :: s.needs }
  exact ⟨hin.errors, hin.loopDepth⟩

variable {arguments : List Ty}

instance : Steady (checkConstraints name arguments span) := by
  refine moves_get.bind fun s => moves_get.bind fun s' => .forM fun entry => ?_
  split <;> infer_instance

theorem keeps_applied {arguments : List (Check Ty)} (h : ∀ m ∈ arguments, Steady m) :
    Steady (applied name arguments span) := by
  have hall := keeps_runAll h
  unfold applied
  split
  case h_1 | h_4 =>
    have hkey := h _ (mem_cons_self ..)
    have hvalue := h _ (mem_cons_of_mem _ (mem_cons_self ..))
    infer_instance
  case h_2 | h_3 =>
    have hel := h _ (mem_cons_self ..)
    infer_instance
  case h_9 =>
    refine moves_get.bind fun s => ?_
    split <;> infer_instance
  all_goals infer_instance

instance : Steady (named name span) := by
  unfold named
  split
  · infer_instance
  · have hd : ∀ qualified : Option String, Steady (match qualified with
          | some qualified => do
            let expected := (← get).arity qualified
            if 0 < expected then
              report (name ++ " needs exactly " ++ toString expected ++ " type arguments") span
              return .unknown
            else return (← get).declared qualified []
          | none => do
            report (if name == "Null" then "unknown type 'Null'; the unit type is 'Nothing'"
              else "unknown type '" ++ name ++ "'") span
            return Ty.unknown) := by
      intro qualified
      cases qualified <;> infer_instance
    infer_instance

instance (inner : Ty) : Steady (checkNullable inner span) := by
  unfold checkNullable
  split <;> infer_instance

mutual

@[instance] theorem keeps_typeRef : (reference : TypeRef) → Steady (typeRef reference)
  | .array item _ | .nullable item _ => by
    have hit := keeps_typeRef item
    rw [typeRef]
    infer_instance
  | .applied _ arguments _ => by
    have ha := keeps_typeRefs arguments
    rw [typeRef]
    exact keeps_applied ha
  | .result ok error _ => by
    have hok := keeps_typeRef ok
    have her := keeps_typeRef error
    rw [typeRef]
    infer_instance
  | .named .. => by
    rw [typeRef]
    infer_instance

theorem keeps_typeRefs : (references : List TypeRef) → ∀ m ∈ typeRefs references, Steady m
  | [] => nofun
  | reference :: rest => by
    have hr := keeps_typeRef reference
    have hre := keeps_typeRefs rest
    intro m hm
    rw [typeRefs, mem_cons] at hm
    obtain rfl | hm := hm
    · exact hr
    · exact hre m hm

end

instance (reference : Option TypeRef) : Steady (optionalTypeRef reference) := by
  cases reference with
  | none => exact inferInstanceAs (Steady (pure Ty.unknown))
  | some reference => exact keeps_typeRef reference

variable {bindings : Bindings} {ty : Ty}

instance : Steady (checkName name expected span bindings) := by
  refine moves_get.bind fun s => ?_
  split <;> infer_instance

instance {inner : Ty → Bindings → Check (Coverage × Bindings)} [h : ∀ ty bindings,
      Steady (inner ty bindings)] :
    Steady (checkCarries name inner expected span bindings) := by
  refine moves_get.bind fun s => ?_
  split
  · split
    · infer_instance
    · split <;> infer_instance
  · infer_instance

mutual

@[instance] theorem keeps_checkPattern : (pattern : Pattern) → ∀ expected bindings,
    Steady (checkPattern pattern expected bindings)
  | .any _, _, _ | .binding .., _, _ | .literal .., _, _ | .name .., _, _ => by
    rw [checkPattern]
    infer_instance
  | .carries _ inner _, _, _ => by
    have hin := keeps_checkPattern inner
    rw [checkPattern]
    infer_instance
  | .shape _ fields _, expected, bindings => by
    have hkn := keeps_checkFields fields
    have hu := keeps_checkUnknownFields fields
    unfold checkPattern
    cases expected <;> infer_instance

theorem keeps_checkFields : (fields : List (String × Pattern)) → ∀ shape seen full bindings,
    Steady (checkFields shape fields seen full bindings)
  | [], _, _, _, _ => by
    rw [checkFields]
    infer_instance
  | (field, pattern) :: rest, shape, seen, full, bindings => by
    have hp := keeps_checkPattern pattern
    have hr := keeps_checkFields rest
    rw [checkFields]
    refine Moves.bind inferInstance fun _ => ?_
    split <;> infer_instance

theorem keeps_checkUnknownFields : (fields : List (String × Pattern)) → ∀ bindings,
    Steady (checkUnknownFields fields bindings)
  | [], _ => by
    rw [checkUnknownFields]
    infer_instance
  | (_, pattern) :: rest, bindings => by
    have hp := keeps_checkPattern pattern
    have hr := keeps_checkUnknownFields rest
    rw [checkUnknownFields]
    infer_instance

end

variable {patterns : List Pattern}

instance (alternatives : List Bindings) : Steady (commonBindings alternatives span) := by
  unfold commonBindings
  infer_instance

instance : Steady (variableType name span) := by
  refine moves_get.bind fun s => ?_
  split <;> infer_instance

instance (left right : Ty) : Steady (numericPair left right span) := by
  unfold numericPair
  split <;> infer_instance

instance : Steady (requireComparable ty span) := by
  unfold requireComparable
  split <;> infer_instance

instance : Steady (checkAssignment name ty span) := by
  refine moves_get.bind fun s => ?_
  split <;> infer_instance

variable {callee : Expr}

instance : Steady (checkBoundary callee span) := by
  unfold checkBoundary
  split <;> infer_instance

variable {labels : Option (List String)}

instance : Steady (checkLabels callee labels span) := by
  unfold checkLabels
  split
  · refine moves_get.bind fun s => ?_
    split <;> infer_instance
  · infer_instance

instance : Steady (checkEncoded callee arguments span) := by
  unfold checkEncoded
  split <;> infer_instance

instance : Steady (checkDecoded callee arguments span) := by
  unfold checkDecoded
  split <;> infer_instance

variable {required : List String}

instance : Steady (checkAvailable required span) := by
  refine moves_get.bind fun s => ?_
  split <;> infer_instance

instance : Steady (checkPromised required span) := by
  refine .forM fun capability => ?_
  split
  · infer_instance
  · refine moves_get.bind fun s => ?_
    split <;> infer_instance

theorem keeps_checkArguments (generic : Bool) (span : Span) (arguments : List Ty) :
    ∀ params substitutions required, Steady
        (checkArguments generic span arguments params substitutions required) := by
  induction arguments with
  | nil =>
    intro params substitutions required
    unfold checkArguments
    infer_instance
  | cons found rest ih =>
    intro params substitutions required
    cases params with
    | nil | cons expected params =>
      unfold checkArguments
      infer_instance

instance (generic : Bool) (params : List Ty) :
    Steady (matchArguments generic params arguments required span) := by
  have ha := keeps_checkArguments generic span arguments
  unfold matchArguments
  infer_instance

instance (substitutions : Ty.Substitutions) :
    Steady (checkInferred constraints substitutions span) := by
  refine .forM fun entry => ?_
  split <;> infer_instance

variable {choice : Option Cases} {covered : Covered} {coverage : Coverage}

instance : Steady (cover choice coverage covered span) := by
  unfold cover
  split <;> infer_instance

@[instance] theorem keeps_armPatterns (subject : Ty) (choice : Option Cases) (guarded : Bool)
    (span : Span) (patterns : List Pattern) :
    ∀ covered, Steady (armPatterns subject choice guarded span patterns covered) := by
  induction patterns with
  | nil | cons pattern rest ih =>
    intro covered
    unfold armPatterns
    infer_instance

instance : Steady (checkExhaustive choice covered span) := by
  unfold checkExhaustive
  split
  · infer_instance
  · split
    · split <;> infer_instance
    · infer_instance

section Parts

variable {value left right : Check Ty} {span : Span} [hvalue : Steady value]
  [hleft : Steady left] [hright : Steady right]

variable {operator : TokenKind}

instance : Steady (unary operator value span) := by
  refine hvalue.bind fun ty => ?_
  split <;> infer_instance

instance : Steady (binary left operator right span) := by
  refine hleft.bind fun _ => hright.bind fun _ => ?_
  split <;> infer_instance

instance : Steady (index left right span) := by
  refine hleft.bind fun _ => hright.bind fun _ => Moves.bind inferInstance fun _ => ?_
  split <;> infer_instance

instance : Steady (coalesce left right span) := by
  refine hleft.bind fun _ => hright.bind fun _ => ?_
  split <;> infer_instance

instance : Steady (propagate value span) := by
  refine hvalue.bind fun ty => ?_
  split
  · refine moves_get.bind fun s => ?_
    split <;> infer_instance
  all_goals infer_instance

instance : Steady (member value name span) := by
  refine hvalue.bind fun ty => ?_
  split
  case h_3 | h_7 => infer_instance
  case h_6 => split <;> infer_instance
  all_goals
    refine moves_get.bind fun s => ?_
    split <;> infer_instance

end Parts

theorem keeps_elements {values : List (Check Ty)} (h : ∀ m ∈ values, Steady m) : ∀ element,
      Steady (elements span values element) := by
  induction values with
  | nil =>
    unfold elements
    infer_instance
  | cons value rest ih =>
    intro element
    have hvalue := h value mem_cons_self
    have hr := ih fun m hm => h m (mem_cons_of_mem _ hm)
    unfold elements
    infer_instance

theorem keeps_call {calleeCheck : Check Ty} {arguments : List (Check Ty)} [hc : Steady calleeCheck]
    (h : ∀ m ∈ arguments, Steady m) :
    Steady (call callee calleeCheck arguments labels span) := by
  have ha := keeps_runAll h
  refine Moves.bind inferInstance fun _ => Moves.bind inferInstance fun _ =>
    hc.bind fun ty => ha.bind fun arguments => ?_
  refine Moves.bind inferInstance fun _ => Moves.bind inferInstance fun _ => ?_
  split
  · infer_instance
  · split <;> infer_instance

structure ArmCheck.Keeps (arm : ArmCheck) : Prop where
  guard : ∀ guard, arm.guard = some guard → Steady guard.check
  value : Steady arm.value

theorem keeps_checkGuard {guard : Option GuardCheck}
    (h : ∀ found, guard = some found → Steady found.check) :
    Steady (checkGuard guard span) := by
  unfold checkGuard
  cases guard with
  | none => infer_instance
  | some guard =>
    have hg := h guard rfl
    infer_instance

variable {subject : Ty}

theorem keeps_chooseArm {arm : ArmCheck} {found : Ty} (h : arm.Keeps) :
    Steady (chooseArm subject choice arm covered found) := by
  have hg := @keeps_checkGuard arm.span _ h.guard
  have hvalue := h.value
  refine Moves.bind inferInstance fun _ => Moves.bind inferInstance fun _ =>
    Moves.bind inferInstance fun _ => ?_
  infer_instance

variable {arms : List ArmCheck}

theorem keeps_chooseArms (h : ∀ arm ∈ arms, arm.Keeps) :
    ∀ covered found, Steady (chooseArms subject choice arms covered found) := by
  induction arms with
  | nil =>
    intro covered found
    unfold chooseArms
    infer_instance
  | cons arm rest ih =>
    intro covered found
    have hr := ih fun arm harm => h arm (mem_cons_of_mem _ harm)
    exact (keeps_chooseArm (h arm mem_cons_self)).bind fun _ => hr _ _

theorem keeps_unknownArms (h : ∀ arm ∈ arms, arm.Keeps) : Steady (unknownArms arms) := by
  induction arms with
  | nil => exact inferInstanceAs (Steady (pure ()))
  | cons arm rest ih =>
    have hvalue := (h arm mem_cons_self).value
    have hr := ih fun arm harm => h arm (mem_cons_of_mem _ harm)
    exact Moves.bind inferInstance fun _ => hr

theorem keeps_choose {subject : Check Ty} [hsu : Steady subject] (h : ∀ arm ∈ arms, arm.Keeps) :
    Steady (choose subject arms span) := by
  have hu := keeps_unknownArms h
  have ha := fun ty choice => @keeps_chooseArms ty choice _ h
  unfold choose
  infer_instance

mutual

@[instance] theorem keeps_expression : (value : Expr) → Steady (expression value)
  | .literal .. | .variable .. => by
    rw [expression]
    infer_instance
  | .text pieces _ => by
    have hp := keeps_textPieces pieces
    rw [expression]
    infer_instance
  | .assign _ value _ | .unary _ value _ | .propagate value _ | .perform value _
  | .get value _ _ => by
    have hvalue := keeps_expression value
    rw [expression]
    infer_instance
  | .binary left _ right _ | .logical left _ right _ | .index left right _
  | .coalesce left right _ => by
    have hleft := keeps_expression left
    have hright := keeps_expression right
    rw [expression]
    infer_instance
  | .call callee arguments _ _ => by
    have hc := keeps_expression callee
    have ha := keeps_expressions arguments
    exact keeps_call ha
  | .array values _ => by
    have hv := keeps_expressions values
    exact keeps_elements hv _
  | .through input stage _ => by
    have hin := keeps_expression input
    cases stage
    case call callee arguments _ _ =>
      have hc := keeps_expression callee
      have ha := keeps_expressions arguments
      exact keeps_call (forall_mem_cons.mpr ⟨hin, ha⟩)
    case «variable» =>
      exact keeps_call (forall_mem_singleton.mpr hin)
    case get object _ _ =>
      have hob := keeps_expression object
      rw [expression]
      exact keeps_call (forall_mem_singleton.mpr hin)
    all_goals rw [expression] <;> first | infer_instance | nofun
  | .matchArms subject arms _ => by
    have hsu := keeps_expression subject
    have har := keeps_armChecks arms
    rw [expression]
    exact keeps_choose har

theorem keeps_expressions : (values : List Expr) → ∀ m ∈ expressions values, Steady m
  | [] => nofun
  | value :: rest => by
    have hvalue := keeps_expression value
    have hr := keeps_expressions rest
    rw [expressions]
    exact forall_mem_cons.mpr ⟨hvalue, hr⟩

theorem keeps_textPieces : (pieces : List TextPiece) → ∀ span, Steady (textPieces pieces span)
  | [], _ => by
    rw [textPieces]
    infer_instance
  | .literal _ :: rest, span => by
    have hr := keeps_textPieces rest span
    rw [textPieces]
    exact hr
  | .hole value :: rest, span => by
    have hvalue := keeps_expression value
    have hr := keeps_textPieces rest span
    rw [textPieces]
    infer_instance

theorem keeps_armChecks : (arms : List MatchArm) → ∀ arm ∈ armChecks arms, arm.Keeps
  | [] => nofun
  | ⟨_, guard, value, _⟩ :: rest => by
    have hg := keeps_guardCheck guard
    have hvalue := keeps_expression value
    have hr := keeps_armChecks rest
    rw [armChecks]
    exact forall_mem_cons.mpr ⟨⟨hg, hvalue⟩, hr⟩

theorem keeps_guardCheck : (guard : Option Expr) → ∀ found, guardCheck guard = some found →
    Steady found.check
  | none => nofun
  | some guard => by
    have hg := keeps_expression guard
    intro found hf
    rw [guardCheck, Option.some.injEq] at hf
    rw [← hf]
    exact hg

end

instance : Steady (declareProtocols body) := by
  refine .forM fun statement => ?_
  split <;> infer_instance

instance (mutable : Bool) (written : Option TypeRef) (initializer : Expr) :
    Steady (letBinding name mutable written initializer span) := by
  refine Moves.bind inferInstance fun _ => ?_
  split <;> infer_instance

instance : Steady (carriesTarget subject span) := by
  unfold carriesTarget
  split <;> infer_instance

instance (clause : PromiseClause) : Steady (checkConflict clause) := by
  refine moves_get.bind fun s => ?_
  split <;> infer_instance

@[instance] theorem keeps_promiseClauses (clauses : List PromiseClause) :
    ∀ seen, Steady (promiseClauses clauses seen) := by
  induction clauses with
  | nil | cons clause rest ih =>
    intro seen
    unfold promiseClauses
    infer_instance

instance (clauses : List PromiseClause) : Steady (promise clauses) :=
  Moves.bind inferInstance fun _ => inferInstance

instance (reason : String) : Steady (trusted reason span) := by
  unfold trusted
  infer_instance

instance (title : String) : Steady (addSampleTitle title span) := by
  unfold addSampleTitle
  infer_instance

instance (iterable : Ty) : Steady (elementType iterable span) := by
  unfold elementType
  split <;> infer_instance

variable {pattern : Option Pattern}

instance (element : Ty) : Steady (declareElement name pattern element span) := by
  unfold declareElement
  split <;> infer_instance

instance (resource : Ty) : Steady (checkClosing resource span) := by
  refine moves_get.bind fun s => ?_
  split <;> infer_instance

instance (need : CapabilityNeed) : Steady (checkCapabilityNeed name need) := by
  refine moves_get.bind fun s => ?_
  split
  · infer_instance
  · split
    · infer_instance
    · split <;> infer_instance

variable {typeParams : List TypeParam}

instance : Steady (checkTypeParams typeParams) := by
  refine .forM fun parameter => ?_
  split <;> infer_instance

instance (value : Option Expr) : Steady (givenType value) := by
  unfold givenType
  split <;> infer_instance

instance (value : Option Expr) : Steady (give value span) := by
  refine Moves.bind inferInstance fun _ => moves_get.bind fun s => ?_
  split <;> infer_instance

section Bodies

variable {walk : Check Unit} {span : Span} [hwalk : Steady walk]

instance {subject : Expr} : Steady (carries subject patterns walk span) := by
  unfold carries
  infer_instance

instance {title : String} {shows : Option String} :
    Steady (sample title body shows walk span) := by
  unfold sample
  infer_instance

variable {params : List Param} {returnType : Option TypeRef}

instance {paramTypes : List Ty} : Steady (functionBody params paramTypes walk) := by
  unfold functionBody
  infer_instance

instance {genericNames : List String} : Steady
    (declareFunction name genericNames constraints params returnType needs body walk span) := by
  unfold declareFunction
  infer_instance

instance {capabilityNeeds : List CapabilityNeed} : Steady
    (function name typeParams params returnType needs capabilityNeeds body walk span) := by
  unfold function
  dsimp only
  infer_instance

instance {kind : String} : Steady (claimTypeName kind name span walk) := by
  unfold claimTypeName
  infer_instance

end Bodies

variable {qualified : String}

instance : Steady (enterType name qualified typeParams) := by
  unfold enterType
  dsimp only
  infer_instance

@[instance] theorem keeps_recordFields (fields : List FieldDef) :
    ∀ schema, Steady (recordFields fields schema) := by
  induction fields with
  | nil | cons field rest ih =>
    intro schema
    unfold recordFields
    infer_instance

variable {derives : List String}

variable {fields : List FieldDef}

instance (schema : List (String × Ty)) :
    Steady (enterRecord name qualified fields schema derives span) := by
  unfold enterRecord
  infer_instance

@[instance] theorem keeps_checkVariants (variants : List VariantDef) :
    ∀ seen, Steady (checkVariants variants seen) := by
  induction variants with
  | nil | cons variant rest ih =>
    intro seen
    unfold checkVariants
    infer_instance

instance (variant : VariantDef) : Steady (variantPayload variant) := by
  unfold variantPayload
  split <;> infer_instance

instance (variants : List VariantDef) : Steady (enum name typeParams variants span) := by
  unfold enum
  dsimp only
  infer_instance

@[instance] theorem keeps_protocolMemberTypes (members : List ProtocolMember) :
    ∀ signatures, Steady (protocolMemberTypes members signatures) := by
  induction members with
  | nil | cons member rest ih =>
    intro signatures
    unfold protocolMemberTypes
    infer_instance

instance (members : List ProtocolMember) : Steady (protocol name members span) := by
  unfold protocol
  dsimp only
  infer_instance

variable {protocol : String} {adopted : Ty}

instance (signatures : List (String × ProtocolMemberType)) (mapping : AdoptionMember) :
    Steady (checkMapping protocol adopted signatures mapping) := by
  refine moves_get.bind fun s => ?_
  split <;> infer_instance

@[instance] theorem keeps_checkMappings (protocol : String) (adopted : Ty)
    (signatures : List (String × ProtocolMemberType)) (members : List AdoptionMember) :
    ∀ mapped, Steady (checkMappings protocol adopted signatures members mapped) := by
  induction members with
  | nil | cons mapping rest ih =>
    intro mapped
    unfold checkMappings
    infer_instance

variable {protocolName : String}

instance : Steady (enterAdoption protocol protocolName adopted span) := by
  unfold enterAdoption
  dsimp only
  infer_instance

variable {members : List AdoptionMember}

instance (ty : TypeRef) : Steady (adoption protocol ty members span) := by
  have ha : ∀ (protocolName : String) (found : Ty), Steady (match found with
        | .unknown | .generic _ => pure ()
        | adopted => adopt protocol protocolName adopted members span) := by
    intro protocolName found
    split <;> infer_instance
  refine moves_get.bind fun s => ?_
  split
  · infer_instance
  · split
    · infer_instance
    · refine moves_get.bind fun s' => ?_
      split <;> infer_instance

@[instance] theorem keeps_exposed (name : String) (declaredNames : List String)
    (scope : List (String × TypeBinding)) (span : Span) (exports : List String) :
    ∀ seen members, Steady (exposed name declaredNames scope span exports seen members) := by
  induction exports with
  | nil =>
    intro seen members
    unfold exposed
    infer_instance
  | cons export_ rest ih =>
    intro seen members
    unfold exposed
    split
    · infer_instance
    · split
      · infer_instance
      · split <;> infer_instance

variable {found : Checker}

instance : Steady (modify (merge found)) :=
  moves_modify fun _ => ⟨prefix_append _ _, rfl⟩

variable {exports : List String}

instance : Steady (exposeLabels name found exports) := by
  refine .forM fun export_ => ?_
  split <;> infer_instance

mutual

@[instance] theorem keeps_statement (s : Stmt) : Steady (statement s) := by
  cases s
  case block body _ | sample _ body _ _ | function _ _ _ _ _ _ body _ =>
    have hb := keeps_eachStatement body
    rw [statement]
    infer_instance
  case ifStmt _ thenBranch elseBranch _ | ifCarries _ _ thenBranch elseBranch _ =>
    have hth := keeps_statement thenBranch
    have hel := keeps_optionalStatement elseBranch
    rw [statement]
    infer_instance
  case whileStmt _ body _ | forStmt _ _ _ body _ | «using» _ _ body _ =>
    have hb := keeps_statement body
    rw [statement]
    infer_instance
  all_goals
    rw [statement]
    infer_instance

@[instance] theorem keeps_eachStatement : (body : List Stmt) → Steady (eachStatement body)
  | [] => by
    rw [eachStatement]
    infer_instance
  | first :: rest => by
    have hf := keeps_statement first
    have hr := keeps_eachStatement rest
    rw [eachStatement]
    infer_instance

@[instance] theorem keeps_optionalStatement :
    (branch : Option Stmt) → Steady (optionalStatement branch)
  | none => by
    rw [optionalStatement]
    infer_instance
  | some branch => by
    have hb := keeps_statement branch
    rw [optionalStatement]
    exact hb

end

end Checker

end Nivren
