import Nivren.Patch

/-! A patch the primitives do not notice goes unnoticed by the machine: one step on the
patched interpreter is the patched step. -/

namespace Nivren

open Program List
open Allowed (bodyValue_value frames_cons result_error result_ok values_cons)

variable {σ ν : Type}

/-- The features an instruction uses. -/
def Op.features (op : Op) (stack : List (Value Chunk)) : List Feature :=
  match op with
  | .makeText _ => [.text]
  | .defineRecord .. | .defineEnum .. | .defineProtocol .. | .adoptProtocol .. => [.declaration]
  | .defineModule .. => [.module]
  | .promise clauses => if clauses.isEmpty then [] else [.promise]
  | .sample .. => [.sample]
  | .iterate .. =>
    match stack with
    | .record .. :: _ => [.dispatch]
    | _ => []
  | _ => []

def NativeFunction.effects (f : NativeFunction) : List Feature :=
  if f.capability.isSome then [.effect] else []

def NativeFunction.features (f : NativeFunction) : List Feature :=
  f.effects ++ (if f.name = "spawn" then [.spawn] else [])

/-- The features the next step uses. -/
def Control.features (frames : List (Frame ν)) : Control σ ν → List Feature
  | .execute a =>
    match a.current with
    | some ⟨op, _⟩ => op.features a.stack
    | none => []
  | .call (.native f) _ _ => f.features
  | .call (.protocolMethod _) _ _ => [.dispatch]
  | .native (.call f ..) _ => f.effects
  | .flow _ =>
    match frames with
    | .module .. :: _ => [.module]
    | _ => []
  | _ => []

def Machine.features (m : Machine σ ν) : List Feature := m.control.features m.frames

/-- Where the next step may move a running activation on to. -/
def Machine.target (m : Machine σ ν) : Option (Chunk × Nat) :=
  match m.control, m.frames with
  | .execute a, _ => a.current.map fun _ => (a.chunk, a.instruction + 1)
  | .settle a next _, _ => some (a.chunk, next)
  | .flow _, .operands a _ :: _ => some (a.chunk, a.instruction + 1)
  | _, _ => none

namespace Allowed

variable (A : Allowed) (host : Host Chunk σ ν)

def opResult : VM.OpResult σ ν → Prop
  | .next stack _ _ | .onward stack => A.values stack
  | .leave flow => A.flow flow
  | .enter next => A.next host next

end Allowed

namespace Patch

variable {host : Host Chunk σ ν} {p : Patch host} {s : Interp Chunk σ}

variable {stack : List (Value Chunk)}

theorem unaware_pop (hst : p.values stack) :
    p.Oblivious (VM.pop stack) fun popped => p.value popped.1 ∧ p.values popped.2 := by
  unfold VM.pop
  split
  · exact .throw
  · exact .pure (values_cons.mp hst)

variable {count : Nat}

theorem unaware_splitOff (hst : p.values stack) :
    p.Oblivious (VM.splitOff stack count) fun parts => p.values parts.1 ∧ p.values parts.2 := by
  unfold VM.splitOff
  split
  · exact .throw
  · exact .pure ⟨fun value hv => hst value (List.mem_of_mem_take (List.mem_reverse.mp hv)),
      hst.drop count⟩

variable {frames : List (Frame ν)} {span : Span} {a : Activation} {name : String} {loop : Loop}
  {implementation : Value Chunk}

theorem Executor.enters (hx : p.Executor) {chunk : Chunk} (hc : p.chunk chunk)
    (hf : p.frames host frames) : p.Oblivious (VM.enterChunk chunk frames) (p.next host) :=
  fun _ hs => hx.enter hs hc hf

theorem Executor.leaves (hx : p.Executor) {result : Except NivError (VmFlow Chunk)}
    (ha : p.activation a) (hf : p.frames host frames) (hr : p.result result) :
    p.Oblivious (VM.leaveChunk a frames result) (p.next host) :=
  fun _ hs => hx.leave hs ha hf hr

section Step

variable [hp : p.Lawful]

variable {value : Value Chunk}

theorem unaware_declare {mutable : Bool}
    (hv : p.value value) : p.Oblivious (VM.declare name value mutable span) fun _ => True := by
  refine unaware_declared.bind fun replaced _ => ?_
  refine (unaware_insertBinding hv).seq ?_
  split
  · exact unaware_raise
  · exact .pure trivial

theorem unaware_declareAll {bindings : List (String × Value Chunk)}
    (hb : p.bindings bindings) : p.Oblivious (VM.declareAll span bindings) fun _ => True := by
  induction bindings with
  | nil => exact .pure trivial
  | cons entry rest ih =>
    refine unaware_declared.bind fun declared _ => ?_
    split
    · exact unaware_raise
    · exact (unaware_insertBinding (hb entry mem_cons_self)).seq <|
        ih fun entry h => hb entry (mem_cons_of_mem _ h)

variable {protocol : String} {typeName member : String}

theorem unaware_adopt (hd : p.allows .declaration) (hv : p.value implementation) :
    p.Oblivious (VM.adopt protocol member typeName implementation) fun _ => True :=
  (hp.adopt hd protocol member typeName implementation).unaware fun _ hs => { hs.interp with
    dispatch := forall_mem_cons.mpr
      ⟨hv, fun entry h => hs.interp.dispatch entry (mem_filter.mp h).1⟩ }

theorem unaware_adoptAll (hd : p.allows .declaration) {base qualifiedName : String}
    {mappings : List (String × String)} :
    p.Oblivious (VM.adoptAll protocol base qualifiedName span mappings) fun _ => True := by
  induction mappings with
  | nil => exact .pure trivial
  | cons mapping rest ih =>
    refine unaware_lookup.bind fun found hf => ?_
    split
    · exact unaware_raise
    · exact (unaware_adopt hd (hf _ rfl)).seq <|
        (unaware_adopt hd (hf _ rfl)).seq <| ih

theorem unaware_dispatch (hd : p.allows .dispatch) :
    p.Oblivious (VM.dispatch protocol member typeName) fun found =>
      ∀ value, found = some value → p.value value := by
  exact (hp.dispatch hd _).unaware fun _ hs value hv => hs.interp.dispatch _ (lookup_mem hv)

omit hp in
theorem unaware_callOp (ha : p.activation a) (hf : p.frames host frames) :
    p.Oblivious (VM.callOp a count span frames) (p.opResult host) := by
  refine (unaware_splitOff ha.2).bind fun parts hpa => ?_
  refine (unaware_pop hpa.2).bind fun popped hpo => ?_
  obtain ⟨callee, rest⟩ := popped
  dsimp only at hpo ⊢
  split
  · exact .pure ⟨frames_cons.mpr ⟨ha, hf⟩, hpo.1, hpa.1⟩
  · exact .pure ⟨frames_cons.mpr ⟨⟨ha.1, hpo.2⟩, hf⟩, hpo.1, hpa.1⟩

omit hp in
theorem unaware_ensureClosable : p.Oblivious (VM.ensureClosable value span) fun _ => True := by
  unfold VM.ensureClosable
  split
  · split
    · exact .pure trivial
    · exact unaware_raise
  · exact unaware_raise

theorem unaware_enterModule (hm : p.allows .module) :
    p.Oblivious (VM.enterModule name) fun entered => p.scope entered.1 ∧ p.scope entered.2 := by
  refine ((hp.globals hm).unaware fun _ hs => hs.interp.globals : p.Oblivious _ p.scope).bind
    fun globals hg => ?_
  refine (unaware_childScope hg).bind fun moduleScope hmo => ?_
  refine unaware_environment.bind fun previous hpr => ?_
  refine (unaware_setEnvironment hmo).seq ?_
  refine (unaware_pushRoot hpr).seq ?_
  exact ((hp.pushNamespace hm name).unaware).seq <|
    .pure ⟨hpr, hmo⟩

theorem unaware_leaveModule (hm : p.allows .module) {previous : Env} (he : p.scope previous) :
    p.Oblivious (VM.leaveModule previous) fun _ => True :=
  ((hp.popNamespace hm).unaware).seq <|
    unaware_popRoot.seq <| unaware_setEnvironment he

theorem unaware_enterNested (hx : p.Executor) {chunk : Chunk}
    (hc : p.chunk chunk) (hf : p.frames host frames) :
    p.Oblivious (VM.enterNested chunk frames) (p.next host) :=
  (unaware_pushFast fun _ h => by cases h).seq <| hx.enters hc hf

theorem unaware_startIteration (tame : host.Tame) {iterable : Value Chunk}
    (hd : ∀ typeName fields, iterable = .record typeName fields → p.allows .dispatch)
    (hl : p.loop loop) (hi : p.value iterable) :
    p.Oblivious (VM.startIteration host loop iterable) (p.control host) := by
  unfold VM.startIteration
  split
  · exact .pure ⟨hl, Value.all_array.mp hi, Value.all_null⟩
  · refine .pure ⟨hl, fun value hv => ?_, Value.all_null⟩
    obtain ⟨c, -, rfl⟩ := mem_map.mp hv
    exact Value.all_string
  · exact unaware_world.bind fun world hw =>
      .pure ⟨hl, tame.drain p.toAllowed _ _ world hw⟩
  · refine (unaware_dispatch (hd _ _ rfl)).bind fun found hf => ?_
    split
    · exact .pure ⟨hf _ rfl, hi, fun _ h => (nomatch h), hl⟩
    · exact unaware_raise
  · exact unaware_raise

theorem unaware_executeOp (hx : p.Executor) (tame : host.Tame) {op : Op}
    (hc : a.current = some ⟨op, span⟩)
    (ha : p.activation a) (hf : p.frames host frames)
    (hfe : ∀ feature ∈ op.features a.stack, p.allows feature) :
    p.Oblivious (VM.executeOp host a op span frames) (p.opResult host) := by
  have hsu : ∀ {stack}, p.values stack →
      p.frames host (.activation { a with stack := stack } :: frames) := fun h =>
    frames_cons.mpr ⟨⟨ha.1, h⟩, hf⟩
  have hpu : ∀ {value} {stack : List (Value Chunk)}, p.value value → p.values stack →
      p.values (value :: stack) := fun hv h => values_cons.mpr ⟨hv, h⟩
  have hpop := unaware_pop ha.2
  have hbo : ∀ {c l}, (c, l) ∈ nested op l → p.chunk c := fun h =>
    p.nested ha.1.1 (List.mem_of_getElem? hc) h
  have hne : ∀ {c frame stack}, p.chunk c → p.values stack →
      p.frame host frame → p.Oblivious (do
        return .enter (← VM.enterNested c
          (frame :: .activation { a with stack := stack } :: frames))) (p.opResult host) :=
    fun hc hst hfr =>
      (unaware_enterNested hx hc (frames_cons.mpr ⟨hfr, hsu hst⟩)).bind
        fun _ hn => .pure hn
  unfold VM.executeOp
  cases op <;> dsimp only
  case constant literal => exact .pure (hpu Value.all_literal ha.2)
  case load name =>
    refine unaware_loadFast.bind fun fast hfa => ?_
    split
    · exact .pure (hpu (hfa _ rfl) ha.2)
    · refine unaware_lookup.bind fun found hfo => ?_
      split
      · exact .pure (hpu (hfo _ rfl) ha.2)
      · exact unaware_raise
  case store name =>
    refine hpop.bind fun popped hpo => ?_
    refine (unaware_assignFast hpo.1).bind fun fast _ => ?_
    split
    · exact (unaware_assign hpo.1).seq <| .pure ha.2
    · exact .pure ha.2
  case define name mutable =>
    refine hpop.bind fun popped hpo => ?_
    refine (unaware_defineFast hpo.1).bind fun fast _ => ?_
    split
    · exact .pure ha.2
    · exact (unaware_declare hpo.1).seq <| .pure ha.2
  case pop => exact .pure fun value hv => ha.2 value (List.mem_of_mem_tail hv)
  case unary operator =>
    exact hpop.bind fun popped hpo =>
      (unaware_lift unary_all).bind fun _ hv => .pure (hpu hv hpo.2)
  case binary operator =>
    exact hpop.bind fun right hr => (unaware_pop hr.2).bind fun left hl =>
      (unaware_lift vmBinary_all).bind fun _ hv => .pure (hpu hv hl.2)
  case jump target => exact .pure ha.2
  case jumpIfFalse target =>
    refine hpop.bind fun popped hpo => ?_
    refine unaware_lifted.bind fun decision _ => ?_
    split <;> exact .pure ha.2
  case call | performCall => exact unaware_callOp ha hf
  case makeArray count =>
    exact (unaware_splitOff ha.2).bind fun parts hpa =>
      .pure (hpu (Value.all_array.mpr hpa.1) hpa.2)
  case makeText count =>
    have hte := hfe .text (by simp [Op.features])
    refine (unaware_splitOff ha.2).bind fun parts hpa => ?_
    refine unaware_finder.bind fun find _ => ?_
    refine (hp.payloadLimit hte).read.bind fun limit _ => ?_
    exact unaware_lifted.bind fun text _ => .pure (hpu Value.all_string hpa.2)
  case index =>
    refine hpop.bind fun index hin => ?_
    refine unaware_lifted.bind fun number _ => ?_
    exact (unaware_pop hin.2).bind fun collection hco =>
      (unaware_lift (indexValue_all hco.1)).bind fun _ hv =>
        .pure (hpu hv hco.2)
  case coalesce target =>
    split
    · split
      · exact .pure ha.2
      · exact .pure ha.2
    · exact .pure ha.2
  case propagate =>
    refine hpop.bind fun popped hpo => ?_
    split
    next h => exact .pure (hpu (Value.all_ok.mp (h ▸ hpo.1)) hpo.2)
    next h => exact .pure (h ▸ hpo.1)
    · exact unaware_raise
  case get name =>
    exact hpop.bind fun popped hpo =>
      (unaware_getValue hpo.1).bind fun _ hv => .pure (hpu hv hpo.2)
  case print =>
    exact hpop.bind fun popped hpo =>
      unaware_printLine.seq <| .pure (hpu Value.all_null hpo.2)
  case enterScope =>
    exact unaware_enterScope.seq <| .pure ha.2
  case exitScope =>
    exact unaware_exitScope.seq <| .pure ha.2
  case makeFunction name params body =>
    refine unaware_fresh.bind fun id _ => ?_
    refine unaware_environment.bind fun e he => ?_
    exact .pure (hpu (Value.all_function.mpr
      ⟨p.makeFunction ha.1.1 (mem_of_getElem? hc), he⟩) ha.2)
  case «return» =>
    exact hpop.bind fun popped hpo => .pure hpo.1
  case defineRecord name fields derives =>
    have hd := hfe .declaration (by simp [Op.features])
    refine (unaware_qualified hd).bind fun typeName _ => ?_
    refine hp.catalog.read.bind fun catalog _ => ?_
    refine hp.choices.read.bind fun choices _ => ?_
    refine unaware_fresh.bind fun id _ => ?_
    exact (unaware_insertBinding Value.all_recordType).seq <|
      .pure (hpu Value.all_recordType ha.2)
  case defineEnum name variants payloadVariants =>
    have hd := hfe .declaration (by simp [Op.features])
    refine unaware_fresh.bind fun id _ => ?_
    refine (unaware_qualified hd).bind fun typeName _ => ?_
    exact (unaware_insertBinding Value.all_enumType).seq <|
      .pure (hpu Value.all_enumType ha.2)
  case defineProtocol name members =>
    have hd := hfe .declaration (by simp [Op.features])
    refine unaware_fresh.bind fun id _ => ?_
    refine (unaware_qualified hd).bind fun typeName _ => ?_
    exact (unaware_insertBinding Value.all_protocolType).seq <|
      .pure (hpu Value.all_protocolType ha.2)
  case adoptProtocol protocol typeName mappings =>
    have hd := hfe .declaration (by simp [Op.features])
    have hta : ∀ protocolName, p.Oblivious (do
        let qualifiedName ← VM.qualified (VM.baseName typeName)
        VM.adoptAll protocolName (VM.baseName typeName) qualifiedName span mappings
        return .next ((if mappings.isEmpty then .null else .bool true) :: a.stack)
          (a.instruction + 1) (VM.chargesMemory (.adoptProtocol protocol typeName mappings)))
        (p.opResult host) := fun protocolName =>
      (unaware_qualified hd).bind fun _ _ =>
        (unaware_adoptAll hd).seq <|
          .pure (hpu (by split <;> simp) ha.2)
    refine unaware_lookup.bind fun found _ => ?_
    split
    · exact hta _
    · exact (unaware_qualified hd).bind fun _ _ => hta _
  case prepare | perform => exact .pure ha.2
  case promise clauses =>
    refine Oblivious.seq (P := fun _ => True) ?_ (.pure ha.2)
    cases clauses with
    | nil => exact fun s hs => .write (by simp) (by simpa using hs) trivial
    | cons clause rest =>
      refine (hp.pushPromises (hfe .promise (by simp [Op.features])) _).unaware fun s hs =>
        { hs.interp with promises := ?_ }
      have hln := hs.interp.promises
      simp only [length_append]
      omega
  case matchArms arms =>
    refine hpop.bind fun popped hpo => .pure ⟨hsu hpo.2, hpo.1, ?_⟩
    refine fun arm harm => ⟨fun guard hg => hbo (l := false) ?_, hbo (l := false) ?_⟩
    · exact mem_flatMap.mpr ⟨arm, harm, by simp_all⟩
    · exact mem_flatMap.mpr ⟨arm, harm, by simp⟩
  case defineModule name body exports =>
    have hm := hfe .module (by simp [Op.features])
    refine (unaware_enterModule hm).bind fun entered hen => ?_
    exact hne (hbo (l := false) (by simp [nested])) ha.2 hen
  case definePattern pattern =>
    refine hpop.bind fun popped hpo => ?_
    refine unaware_finder.bind fun find _ => ?_
    split
    · exact unaware_raise
    next hb =>
      exact (unaware_declareAll (patternBindings_all pattern hpo.1 hb)).seq <| .pure ha.2
  case iterate name pattern body =>
    refine Oblivious.bind (P := fun popped => (p.value popped.1 ∧ p.values popped.2) ∧
      ∀ typeName fields, popped.1 = .record typeName fields → p.allows .dispatch) ?_ ?_
    · unfold VM.pop
      split
      · exact .throw
      next iterable rest hst =>
        rw [hst] at hfe
        refine .pure ⟨values_cons.mp (hst ▸ ha.2), fun typeName fields h => ?_⟩
        cases (show iterable = _ from h)
        exact hfe .dispatch (by simp [Op.features])
    · intro popped hpo
      exact (unaware_startIteration tame hpo.2
        (hbo (l := true) (by simp [nested])) hpo.1.1).bind fun _ hcn =>
          .pure ⟨hsu hpo.1.2, hcn⟩
  case «repeat» condition body =>
    exact .pure ⟨hsu ha.2, hbo (l := false) (by simp [nested]),
      hbo (l := true) (by simp [nested]), Value.all_null⟩
  case loopExit skip =>
    refine .pure ?_
    cases skip <;> trivial
  case ifCarries patterns thenBranch elseBranch =>
    refine hpop.bind fun popped hpo => ?_
    split
    · cases elseBranch with
      | none => exact .pure (hpu Value.all_null hpo.2)
      | some branch => exact hne (hbo (l := false) (by simp [nested])) hpo.2 trivial
    · refine unaware_finder.bind fun find _ => ?_
      rw [pure_bind]
      split
      next hb =>
        refine (unaware_enterBlock (firstMatch_all hpo.1 hb)).bind fun previous hpr => ?_
        exact hne (hbo (l := false) (by simp [nested])) hpo.2 hpr
      · exact hne (hbo (l := false) (by simp [nested])) hpo.2 trivial
      · exact .pure (hpu Value.all_null hpo.2)
  case sample title body shows =>
    have hsa := hfe .sample (by simp [Op.features])
    refine (hp.runSamples hsa).read.bind fun samples _ => ?_
    split
    · refine (unaware_enterBlock fun _ h => by cases h).bind
        fun previous hpr => ?_
      exact hne (hbo (l := false) (by simp [nested])) ha.2 hpr
    · exact .pure (hpu Value.all_null ha.2)
  case «using» name body =>
    refine hpop.bind fun popped hpo => ?_
    refine unaware_ensureClosable.seq ?_
    refine (unaware_enterBlock fun entry h => ?_).bind fun previous hpr => ?_
    · rw [mem_singleton.mp h]
      exact hpo.1
    · exact hne (hbo (l := false) (by simp [nested])) hpo.2 ⟨hpo.1, hpr⟩

end Step

section Machine

variable [hp : p.Lawful] (hx : p.Executor) (tame : host.Tame)

include hx tame in
theorem unaware_executeStep (hs : p.Keeps s) {terminate : Bool} (hpre : ∀ op span, a.current = some ⟨op, span⟩ →
      p.Unaware (VM.preamble terminate span) s fun _ => True)
    (ha : p.activation a) (hf : p.frames host frames)
    (hfe : ∀ op span, a.current = some ⟨op, span⟩ →
      ∀ feature ∈ op.features a.stack, p.allows feature)
    (hgo : a.current.isSome → ∀ stack, p.values stack →
      p.Oblivious (VM.goTo { a with stack := stack } (a.instruction + 1) frames) (p.next host)) :
    p.Unaware (VM.executeStep host terminate a frames) s (p.next host) := by
  unfold VM.executeStep
  split
  · exact hx.finish hs ha hf
  next op span hc =>
    refine (unaware_attempt ((hpre op span hc).seqRight
      (unaware_executeOp hx tame hc ha hf (hfe op span hc)))).bind fun result s hs hr => ?_
    split
    · exact hx.leave hs ha hf result_error
    · exact hgo (by rw [hc]; rfl) _ (hr _ rfl) s hs
    · exact .pure hs ⟨hf, ha.1, hr _ rfl⟩
    · exact hx.leave hs ha hf (result_ok.mpr (hr _ rfl))
    · exact .pure hs (hr _ rfl)

include hx in
theorem unaware_settleStep {next : Nat} {memory : Bool} (ha : p.activation a)
    (hf : p.frames host frames)
    (hgo : p.Oblivious (VM.goTo a next frames) (p.next host)) :
    p.Oblivious (VM.settleStep host a next memory frames) (p.next host) := by
  unfold VM.settleStep
  split
  · refine (oblivious_attempt (unaware_chargeMemory)).bind fun result _ => ?_
    split
    · exact hx.leaves ha hf result_error
    · exact hgo
  · exact hgo

variable {arguments : List (Value Chunk)}

include hx in
theorem unaware_callFunction (hs : p.Keeps s) {f : Function Chunk}
    (hb : p.Unaware (VM.beginCall span) s fun _ => True)
    (hfun : p.function f) (ha : p.values arguments) (hf : p.frames host frames) :
    p.Unaware (VM.callFunction f arguments span frames) s (p.next host) := by
  unfold VM.callFunction
  cases checkArity f.name f.params.length arguments.length span with
  | error failure => exact Blind.bind (P := fun _ => False) (.throw hs) fun _ _ _ h => h.elim
  | ok _ =>
    rw [VM.lift, pure_bind]
    refine hb.bind fun _ s hs _ => unaware_tryJit.bind (fun compiled _ => ?_) s hs
    split
    · exact .pure ⟨hf, trivial⟩
    · exact (unaware_enterFunction hfun ha).bind fun _ he =>
        hx.enters (p.chunk_of_body hfun.1) (frames_cons.mpr ⟨he, hf⟩)

variable {f : NativeFunction}

include tame in
theorem unaware_passGate (ha : p.values arguments) (hf : ∀ feature ∈ f.features, p.allows feature) :
    p.Oblivious (VM.passGate host f arguments span) p.admission := by
  unfold VM.passGate
  split
  next hc =>
    have hef : Feature.effect ∈ f.features := by
      simp [NativeFunction.features, NativeFunction.effects, hc]
    exact unaware_gate (hf .effect hef) tame ha
  · exact .pure ha

include tame in
theorem unaware_startNative {admission : VM.Admission Chunk} (ha : p.values arguments)
    (had : p.admission admission) (hf : p.frames host frames)
    (hfe : ∀ feature ∈ f.features, p.allows feature) :
    p.Oblivious (VM.startNative host f arguments span frames admission) (p.next host) := by
  unfold VM.startNative
  split
  · exact .pure ⟨hf, result_ok.mpr had⟩
  · split
    next hsp =>
      have hal := hfe .spawn (by simp [NativeFunction.features, hsp])
      refine (oblivious_attempt (unaware_taskSpawn hal had)).bind fun result hr => ?_
      exact unaware_world.bind fun _ hw => .pure ⟨hf, ha, hr, hw⟩
    · exact unaware_world.bind fun world hw =>
        .pure ⟨hf, ha, tame.start p.toAllowed _ _ _ world had hw⟩

include tame in
theorem unaware_callNative (ha : p.values arguments) (hf : p.frames host frames)
    (hfe : ∀ feature ∈ f.features, p.allows feature) :
    p.Oblivious (VM.call host (.native f) arguments span frames) (p.next host) := by
  refine unaware_lifted.seq ?_
  exact (unaware_passGate tame ha hfe).bind fun admission had =>
    unaware_startNative tame ha had hf hfe

include hx tame in
theorem unaware_call (hs : p.Keeps s) {callee : Value Chunk}
    (hb : ∀ f, callee = .function f → p.Unaware (VM.beginCall span) s fun _ => True)
    (hc : p.value callee) (ha : p.values arguments) (hf : p.frames host frames)
    (hfe : ∀ feature ∈ (Control.call callee arguments span : Control σ ν).features frames,
      p.allows feature) :
    p.Unaware (VM.call host callee arguments span frames) s (p.next host) := by
  by_cases hfun : ∃ f, callee = .function f
  · obtain ⟨f, rfl⟩ := hfun
    exact unaware_callFunction hx hs (hb f rfl) (Value.all_function.mp hc) ha hf
  refine (?_ : p.Oblivious _ _) s hs
  unfold VM.call
  split
  next f => exact unaware_callNative tame ha hf hfe
  next f => exact (hfun ⟨f, rfl⟩).elim
  · refine unaware_lifted.seq (.pure ⟨hf, result_ok.mpr ?_⟩)
    exact Value.all_record.mpr (Allowed.bindings_zip ha)
  · refine unaware_lifted.seq (.pure ⟨hf, result_ok.mpr ?_⟩)
    exact Value.all_enum.mpr fun value hv => ha value (mem_of_mem_head? hv)
  · split
    · exact unaware_raise
    · refine (unaware_dispatch (hfe .dispatch (by simp [Control.features]))).bind
        fun found hfo => ?_
      split
      · exact unaware_raise
      · exact .pure ⟨hf, hfo _ rfl, ha⟩
  · exact (unaware_liftError fun value hv => tame.derived p.toAllowed _ _ _ value ha hv).bind
      fun value hv => .pure ⟨hf, result_ok.mpr (wrapProblem_all hv)⟩
  · exact unaware_raise

theorem unaware_nativeStep {purpose : Purpose} {step : NativeStep Chunk σ ν}
    (hpu : p.purpose purpose) (hst : p.nativeStep host step)
    (hf : p.frames host frames)
    (hfe : ∀ feature ∈ (Control.native purpose step).features frames, p.allows feature) :
    p.Oblivious (VM.nativeStep host purpose step frames) (p.next host) := by
  unfold VM.nativeStep
  split
  · obtain ⟨hc, ha, hse, hw⟩ := hst
    exact (unaware_setWorld hw).seq <|
      .pure ⟨frames_cons.mpr ⟨⟨hpu, hse⟩, hf⟩, hc, ha⟩
  next result world =>
    obtain ⟨hr, hw⟩ := hst
    refine (unaware_setWorld hw).seq ?_
    split
    next f arguments span =>
      have hef : f.capability.isSome → p.allows .effect := fun h =>
        hfe .effect (by simp [Control.features, NativeFunction.effects, h])
      refine (unaware_recordEffect hef fun value hv => ?_).bind fun _ hv =>
        .pure ⟨hf, result_ok.mpr hv⟩
      cases result with
      | error e => cases hv
      | ok inner =>
        cases hv
        exact wrapProblem_all (hr inner rfl)
    next loop =>
      refine (unaware_liftError hr).bind fun value hv =>
        .pure ⟨hf, hpu, ?_, Value.all_null⟩
      unfold VM.nativeStep.drained
      split
      · exact Value.all_array.mp hv
      · simpa using hv

theorem unaware_compiledStep {state : IntState} (hf : p.frames host frames) :
    p.Oblivious (VM.compiledStep name span state frames) (p.next host) := by
  unfold VM.compiledStep
  split
  · exact .pure ⟨hf, trivial⟩
  · exact unaware_endCall.seq <|
      .pure ⟨hf, result_ok.mpr Value.all_int⟩
  · refine (oblivious_attempt (unaware_jitError (Q := p.value))).bind fun result hr => ?_
    refine unaware_endCall.seq ?_
    split
    · exact .pure ⟨hf, result_ok.mpr (hr _ rfl)⟩
    · exact .pure ⟨hf, result_error⟩

include hx in
theorem unaware_chooseStep {subject : Value Chunk} {arms : List BytecodeArm}
    (hsu : p.value subject) (ha : ∀ arm ∈ arms, p.arm arm)
    (hf : p.frames host frames) :
    p.Oblivious (VM.chooseStep host subject arms span frames) (p.next host) := by
  unfold VM.chooseStep
  split
  · exact unaware_raise
  next arm rest =>
    have harm := ha arm mem_cons_self
    have hr : ∀ arm ∈ rest, p.arm arm := fun arm h => ha arm (mem_cons_of_mem _ h)
    refine unaware_finder.bind fun find _ => ?_
    split
    · exact .pure ⟨hf, hsu, hr⟩
    next hb =>
      refine (unaware_enterBlock (firstMatch_all hsu hb)).bind fun previous hpr => ?_
      split
      next guard hg =>
        exact unaware_enterNested hx (harm.1 guard hg)
          (frames_cons.mpr ⟨⟨hsu, harm, hr, hpr⟩, hf⟩)
      · exact unaware_enterNested hx harm.2 (frames_cons.mpr ⟨hpr, hf⟩)

include hx in
theorem unaware_iterateStep {values : List (Value Chunk)} {last : Value Chunk} (hl : p.loop loop)
    (hva : p.values values)
    (hla : p.value last) (hf : p.frames host frames) :
    p.Oblivious (VM.iterateStep host loop values last frames) (p.next host) := by
  unfold VM.iterateStep
  split
  · exact .pure ⟨hf, result_ok.mpr hla⟩
  next value rest =>
    obtain ⟨hv, hr⟩ := values_cons.mp hva
    refine unaware_environment.bind fun previous hpr => ?_
    refine (unaware_pushRoot hpr).seq ?_
    refine (unaware_childScope hpr).bind fun e he => ?_
    have hen : ∀ bindings, p.bindings bindings → p.Oblivious (do
        VM.bindAll e bindings
        VM.setEnvironment e
        VM.enterNested loop.body (.iteration loop rest last previous :: frames))
          (p.next host) := fun bindings hb =>
      (unaware_bindAll he hb).seq <|
        (unaware_setEnvironment he).seq <|
          unaware_enterNested hx hl (frames_cons.mpr ⟨⟨hl, hr, hla, hpr⟩, hf⟩)
    dsimp only
    split
    · exact hen _ fun entry h => mem_singleton.mp h ▸ hv
    · refine unaware_finder.bind fun find _ => ?_
      split
      next hb => exact hen _ (patternBindings_all _ hv hb)
      · exact Oblivious.bind (P := fun _ => False) unaware_raise fun _ h => h.elim

omit hp in
theorem unaware_advanceResult {items : List (Value Chunk)} {step : Value Chunk}
    (hi : p.value implementation) (hit : p.values items) (hl : p.loop loop)
    (hst : p.value step) (hf : p.frames host frames) :
    p.Oblivious (VM.advanceResult implementation items loop step frames) (p.next host) := by
  unfold VM.advanceResult
  split
  · exact .pure ⟨hf, hl, hit, Value.all_null⟩
  next fields =>
    have hfi : ∀ {name value}, fields.reverse.lookup name = some value → p.value value :=
      fun h => Value.all_record.mp hst _ (mem_reverse.mp (lookup_mem h))
    split
    next item next him hn =>
      split
      · exact unaware_raise
      · refine .pure ⟨hf, hi, hfi hn, fun value hv => ?_, hl⟩
        rcases mem_append.mp hv with h | h
        · exact hit value h
        · rw [mem_singleton.mp h]
          exact hfi him
    · exact unaware_raise
  · exact unaware_raise

variable {result : Except NivError (VmFlow Chunk)}

omit hp in
include hx in
theorem unaware_resume (ha : p.activation a) (hr : p.result result)
    (hf : p.frames host frames) : p.Oblivious (VM.resume a result frames) (p.next host) := by
  unfold VM.resume
  split
  · exact .throw
  · split
    · exact hx.leaves ha hf result_error
    · exact .pure ⟨hf, ha.1, values_cons.mpr ⟨result_ok.mp hr, ha.2⟩⟩
    · exact hx.leaves ha hf hr
    · split
      · exact hx.leaves ha hf hr
      · exact hx.leaves ha hf result_error

omit hp in
include hx in
theorem unaware_resumeCall (ha : p.activation a) (hr : p.result result) (hf : p.frames host frames)
    (hgo : ∀ stack, p.values stack →
      p.Oblivious (VM.goTo { a with stack := stack } (a.instruction + 1) frames) (p.next host)) :
    p.Oblivious (VM.resumeCall a count result frames) (p.next host) := by
  have hva : ∀ value, p.value value → p.values (value :: a.stack.drop count) :=
    fun value hv => values_cons.mpr ⟨hv, ha.2.drop count⟩
  unfold VM.resumeCall
  split
  · exact hx.leaves ha hf result_error
  · exact hgo _ (hva _ (result_ok.mp hr))
  · exact hgo _ (hva _ (result_ok.mp hr))
  · exact hx.leaves ha hf result_error

variable {exports : List String} {moduleScope : Env}

theorem unaware_exportValues (he : p.scope moduleScope) :
    p.Oblivious (VM.exportValues name moduleScope span exports) p.bindings := by
  induction exports with
  | nil => exact .pure fun _ h => by cases h
  | cons exported rest ih =>
    refine ((hp.exported moduleScope exported he).unaware fun _ hs binding hb =>
      hs.interp.heap.value moduleScope he _ (lookup_mem hb) :
        p.Oblivious _ fun found => ∀ binding, found = some binding →
          p.value binding.value).bind fun found hf => ?_
    split
    · exact unaware_raise
    · exact ih.bind fun _ hr =>
        .pure (forall_mem_cons.mpr ⟨hf _ rfl, hr⟩)

theorem unaware_finishModule (he : p.scope moduleScope) :
    p.Oblivious (VM.finishModule name exports span moduleScope result) p.value := by
  refine (unaware_liftError fun _ _ => trivial : p.Oblivious _ fun _ => True).bind
    fun flow _ => ?_
  split
  · exact unaware_raise
  · refine (unaware_exportValues he).bind fun members hm => ?_
    refine unaware_fresh.bind fun id _ => ?_
    have hv : p.value (.module id members.reverse) :=
      Value.all_module.mpr fun entry h => hm entry (mem_reverse.mp h)
    exact (unaware_insertBinding hv).seq <| .pure hv

omit hp in
theorem unaware_finishSample {title : String} {shows : Option String} :
    p.Oblivious (VM.finishSample host title shows span result) fun _ => True := by
  refine (unaware_liftError fun _ _ => trivial : p.Oblivious _ fun _ => True).bind
    fun flow _ => ?_
  split
  · split
    · exact .pure trivial
    · dsimp only
      split
      · exact unaware_raise
      · exact .pure trivial
  · exact unaware_raise
  · exact .throw

include tame in
theorem unaware_finishUsing {resource : Value Chunk} (hr : p.result result) :
    p.Oblivious (VM.finishUsing host resource span result) p.flow := by
  unfold VM.finishUsing
  have hta : ∀ closed : Except NivError Unit, p.Oblivious (do
      let flow ← VM.liftError result
      VM.liftError closed
      return flow) p.flow := fun closed =>
    (unaware_liftError hr).bind fun flow hf =>
      (unaware_liftError fun _ _ => trivial : p.Oblivious _ fun _ => True).seq <| .pure hf
  dsimp only
  split
  next kind id =>
    exact unaware_world.bind fun world hw =>
      (unaware_setWorld (tame.close p.toAllowed kind id span world hw)).seq <| hta _
  · exact hta _

include hx tame in
theorem unaware_returnTo {frame : Frame ν} (hfr : p.frame host frame) (hr : p.result result)
    (hf : p.frames host frames)
    (hm : ∀ name exports span previous moduleScope,
      frame = .module name exports span previous moduleScope → p.allows .module)
    (hgo : ∀ a count stack, frame = .operands a count → p.values stack →
      p.Oblivious (VM.goTo { a with stack := stack } (a.instruction + 1) frames) (p.next host)) :
    p.Oblivious (VM.returnTo host frame result frames) (p.next host) := by
  have hfl : ∀ {result}, p.result result →
      p.Oblivious (pure (frames, Control.flow result)) (p.next host) := fun hr =>
    .pure ⟨hf, hr⟩
  unfold VM.returnTo
  split
  case h_1 a => exact unaware_resume hx hfr hr hf
  case h_2 a count => exact unaware_resumeCall hx hfr hr hf fun stack => hgo a count stack rfl
  case h_3 name span previous fast =>
    refine (unaware_leaveFunction hfr).seq ?_
    refine unaware_endCall.seq ?_
    split
    next hv => exact hfl (result_ok.mpr (bodyValue_value hr hv))
    · exact hfl result_error
  case h_4 purpose state =>
    exact unaware_world.bind fun world hw => .pure ⟨hf, hfr.1,
      tame.resume p.toAllowed _ _ world hfr.2 (fun value hv => bodyValue_value hr hv) hw⟩
  case h_5 subject arm rest span previous =>
    obtain ⟨hsu, harm, hre, hpr⟩ := hfr
    have hlv : ∀ control : Control σ ν, p.control host control →
        p.Oblivious (do VM.leaveBlock previous; return (frames, control)) (p.next host) :=
      fun control hc => (unaware_leaveBlock hpr).seq <|
        .pure ⟨hf, hc⟩
    refine unaware_popFast.seq ?_
    split
    · refine (oblivious_attempt unaware_lifted).bind fun decision _ => ?_
      split
      · exact unaware_enterNested hx harm.2 (frames_cons.mpr ⟨hpr, hf⟩)
      · exact hlv _ ⟨hsu, hre⟩
      · exact hlv _ result_error
    · exact hlv _ hr
    · exact hlv _ result_error
    · exact hlv _ result_error
  case h_6 | h_7 =>
    exact unaware_popFast.seq <|
      (unaware_leaveBlock hfr).seq <| hfl hr
  case h_8 => exact unaware_popFast.seq <| hfl hr
  case h_9 name exports span previous moduleScope =>
    refine unaware_popFast.seq ?_
    refine (unaware_leaveModule (hm _ _ _ _ _ rfl) hfr.1).seq ?_
    refine (oblivious_attempt (unaware_finishModule hfr.2)).bind fun outcome hou => ?_
    refine hfl ?_
    cases outcome with
    | error e => exact result_error
    | ok value => exact result_ok.mpr (hou value rfl)
  case h_10 implementation items loop =>
    obtain ⟨hi, hit, hl⟩ := hfr
    refine (oblivious_attempt ((unaware_liftError fun value hv =>
      bodyValue_value hr hv).bind fun _ hst =>
        unaware_advanceResult hi hit hl hst hf)).bind fun outcome hou => ?_
    split
    · exact .pure (hou _ rfl)
    · exact hfl result_error
  case h_11 loop rest last previous =>
    obtain ⟨hl, hre, hla, hpr⟩ := hfr
    refine unaware_popFast.seq ?_
    refine (unaware_leaveBlock hpr).seq ?_
    split
    · exact .pure ⟨hf, hl, hre, result_ok.mp hr⟩
    · exact hfl hr
    · exact hfl (result_ok.mpr hla)
    · exact .pure ⟨hf, hl, hre, hla⟩
    · exact hfl result_error
  case h_12 condition body last span =>
    refine unaware_popFast.seq ?_
    split
    · refine (oblivious_attempt unaware_lifted).bind fun decision _ => ?_
      split
      · exact unaware_enterNested hx hfr.2.1 (frames_cons.mpr ⟨hfr, hf⟩)
      · exact hfl (result_ok.mpr hfr.2.2)
      · exact hfl result_error
    · exact hfl hr
    · exact hfl result_error
    · exact hfl result_error
  case h_13 condition body last span =>
    obtain ⟨hco, hb, hla⟩ := hfr
    refine unaware_popFast.seq ?_
    split
    · exact .pure ⟨hf, hco, hb, result_ok.mp hr⟩
    · exact hfl hr
    · exact hfl (result_ok.mpr hla)
    · exact .pure ⟨hf, hco, hb, hla⟩
    · exact hfl result_error
  case h_14 title shows span previous =>
    refine unaware_popFast.seq ?_
    refine (unaware_leaveBlock hfr).seq ?_
    refine (oblivious_attempt (unaware_finishSample)).bind fun outcome _ => ?_
    refine hfl ?_
    cases outcome with
    | error e => exact result_error
    | ok value => exact result_ok.mpr Value.all_null
  case h_15 resource span previous =>
    refine unaware_popFast.seq ?_
    refine (unaware_leaveBlock hfr.2).seq ?_
    exact (oblivious_attempt (unaware_finishUsing tame hr)).bind fun outcome hou =>
      hfl fun flow h => hou flow h

omit hp in
theorem unaware_reporting {program : VM Chunk σ (Next σ ν)}
    (h : p.Unaware program s (p.next host)) (hf : p.frames host frames) :
    p.Unaware (VM.reporting frames program) s (p.next host) := by
  refine (unaware_attempt h).bind fun result s hs hr => ?_
  split
  · exact .pure hs (hr _ rfl)
  · exact .pure hs ⟨hf, result_error⟩

end Machine

/-- The parts of a step a patch is not blind to by its laws alone: the checks before an instruction,
the count of a call, and collections. -/
structure Admits (p : Patch host) (input : VM.Input) (m : Machine σ ν) : Prop where
  features : ∀ feature ∈ m.features, p.allows feature
  preamble : ∀ a op span, m.control = .execute a → a.current = some ⟨op, span⟩ →
    p.Unaware (VM.preamble input.terminate span) m.interp fun _ => True
  beginCall : ∀ f arguments span, m.control = .call (.function f) arguments span →
    p.Unaware (VM.beginCall span) m.interp fun _ => True
  goTo : ∀ {s a next frames}, p.Keeps s → p.activation a → p.frames host frames →
    m.target = some (a.chunk, next) → p.Unaware (VM.goTo a next frames) s (p.next host)
  collect : ∀ a next memory, m.control = .collect a next memory →
    p.Unaware (VM.maybeCollect host input.trigger a.stack) m.interp fun _ => True

variable {input : VM.Input} {m : Machine σ ν}

theorem unaware_step [p.Lawful] (hx : p.Executor) (tame : host.Tame) (hs : p.Keeps m.interp)
    (hf : p.frames host m.frames)
    (hc : p.control host m.control) (hm : p.Admits input m) :
    p.Unaware (VM.step host input m.frames m.control) m.interp (p.next host) := by
  obtain ⟨s, frames, control⟩ := m
  obtain ⟨hfe, hpre, hb, hgo, hco⟩ := hm
  dsimp only at *
  unfold VM.step
  split
  next a =>
    refine unaware_executeStep hx tame hs (fun op span h => hpre a op span rfl h) hc hf
      (fun op span h feature hm => hfe feature ?_) fun h stack hst s hs => ?_
    · simpa only [Machine.features, Control.features, h] using hm
    · obtain ⟨instruction, hi⟩ := Option.isSome_iff_exists.mp h
      exact hgo hs ⟨hc.1, hst⟩ hf (by simp only [Machine.target, hi, Option.map_some])
  next a next memory =>
    exact (hco a next memory rfl).bind fun _ _ hs _ => .pure hs ⟨hf, hc⟩
  · exact unaware_settleStep hx hc hf (fun s hs => hgo hs hc hf rfl) s hs
  next callee arguments span =>
    exact unaware_reporting (unaware_call hx tame hs
      (fun f h => hb f arguments span (by rw [h])) hc.1 hc.2 hf hfe) hf
  · exact unaware_reporting (unaware_nativeStep hc.1 hc.2 hf hfe s hs) hf
  · exact unaware_compiledStep hf s hs
  · exact unaware_reporting (unaware_chooseStep hx hc.1 hc.2 hf s hs) hf
  · exact unaware_reporting (unaware_iterateStep hx hc.1 hc.2.1 hc.2.2 hf s hs) hf
  · refine .pure hs ⟨frames_cons.mpr ⟨⟨hc.1, hc.2.2.1, hc.2.2.2⟩, hf⟩, hc.1, ?_⟩
    simpa using hc.2.1
  · refine unaware_enterNested hx hc.1 ?_ s hs
    exact frames_cons.mpr ⟨hc, hf⟩
  next result =>
    split
    · exact .pure hs ⟨Allowed.frames_nil, hc⟩
    next frame rest =>
      obtain ⟨hfr, hr⟩ := frames_cons.mp hf
      refine unaware_returnTo hx tame hfr hc hr (fun _ _ _ _ _ h => hfe .module ?_)
        (fun a count stack h hst s hs => ?_) s hs
      · simp [Machine.features, Control.features, h]
      · subst h
        exact hgo hs ⟨hfr.1, hst⟩ hr rfl
  · exact .pure hs ⟨hf, trivial⟩

def onMachine (p : Patch host) (m : Machine σ ν) : Machine σ ν :=
  { m with interp := p.apply m.interp }

structure Works (p : Patch host) (m : Machine σ ν) : Prop where
  keeps : p.Keeps m.interp
  frames : p.frames host m.frames
  control : p.control host m.control

theorem Unaware.onMachine (hf : p.frames host m.frames)
    (hst : p.Unaware (VM.step host input m.frames m.control) m.interp (p.next host)) :
    (p.onMachine m).step host input = p.onMachine (m.step host input) ∧
      p.Works (m.step host input) := by
  obtain ⟨hc, he⟩ := hst
  have hst : ∀ s, (⟨s, m.frames, m.control⟩ : Machine σ ν).step host input =
      match exec (VM.step host input m.frames m.control) s with
      | (.ok (frames, control), interp) => ⟨interp, frames, control⟩
      | (.error _, interp) => ⟨interp, m.frames, .panic⟩ := fun _ => rfl
  have hm' : m.step host input = _ := hst m.interp
  have hpa : (p.onMachine m).step host input = _ := hst (p.apply m.interp)
  unfold Ensures at he
  rw [hpa, hm', hc]
  rcases hr : exec (VM.step host input m.frames m.control) m.interp with ⟨result, s⟩
  rw [hr] at he
  cases result with
  | error failure => exact ⟨rfl, he, hf, trivial⟩
  | ok next => exact ⟨rfl, he.1, he.2.1, he.2.2⟩

theorem step_onMachine [p.Lawful] (hx : p.Executor) (tame : host.Tame) (hm : p.Works m)
    (ha : p.Admits input m) :
    (p.onMachine m).step host input = p.onMachine (m.step host input) ∧
      p.Works (m.step host input) :=
  Unaware.onMachine hm.frames (unaware_step hx tame hm.keeps hm.frames hm.control ha)

theorem unaware_truncate (htr : ∀ mark, p.floor ≤ mark → p.Writes fun s =>
      { s with activePromises := s.activePromises.take mark }) {mark : Nat}
    (hm : p.floor ≤ mark) : p.Oblivious (VM.truncatePromises mark) fun _ => True := by
  refine (htr mark hm).unaware fun s hs => { hs.interp with promises := ?_ }
  have hl := hs.interp.promises
  simp only [length_take]
  omega

theorem Lawful.executor [p.Lawful] (hmo : p.Reads fun s => decide (0 < s.nativeExecutionDepth))
    (hma : p.Reads fun s => s.activePromises.length)
    (htr : ∀ mark, p.floor ≤ mark → p.Writes fun s =>
      { s with activePromises := s.activePromises.take mark }) : p.Executor where
  enter {s chunk frames} hs hc hf := by
    refine (hmo.read.bind fun native _ => ?_) s hs
    split
    · exact .pure ⟨hf, result_error⟩
    · exact (hma.unaware fun _ hs => hs.interp.promises : p.Oblivious _ (p.floor ≤ ·)).bind fun mark hm =>
        .pure ⟨hf, ⟨hc, hm⟩, Allowed.values_nil⟩
  leave {s a frames result} hs ha hf hr := by
    refine (hmo.read.bind fun native _ => ?_) s hs
    split
    · exact (unaware_truncate htr ha.1.2).seq (.pure ⟨hf, hr⟩)
    · exact .pure ⟨hf, hr⟩
  finish {s a frames} hs ha hf := by
    have hv : p.result (.ok (.continue (a.stack.head?.getD .null))) := by
      refine result_ok.mpr ?_
      cases hst : a.stack with
      | nil => exact Value.all_null
      | cons value rest => exact ha.2 value (hst ▸ mem_cons_self)
    refine (hmo.read.bind fun native _ => ?_) s hs
    split
    · exact .pure ⟨hf, hv⟩
    · refine (unaware_truncate htr ha.1.2).seq ?_
      refine unaware_isCancelled.bind fun cancelled _ => ?_
      split
      · exact .pure ⟨hf, result_error⟩
      · exact .pure ⟨hf, hv⟩

theorem unaware_goTo (hm : p.Reads fun s => decide (0 < s.nativeExecutionDepth))
    (hx : p.Executor) {next : Nat}
    (ha : p.activation a) (hf : p.frames host frames) :
    p.Oblivious (VM.goTo a next frames) (p.next host) := by
  refine hm.read.bind fun native _ => ?_
  split
  · exact hx.leaves ha hf result_error
  · exact .pure ⟨hf, ha⟩

end Patch

end Nivren
