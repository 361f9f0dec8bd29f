import Nivren.Allowed

/-! Changes of the interpreter that running programs cannot see.

A `Patch` maps one interpreter to another. When every primitive read gives the same answer before
and after the patch, and every primitive write commutes with it, the whole machine does: a step on
the patched interpreter is the patched step. The patch need only work on interpreters that refer to
nothing but what it allows.
-/

namespace Nivren

open Program List

variable {σ ν : Type}

/-- Parts of the language that look at settings of the interpreter other parts do not. -/
inductive Feature
  | text | declaration | dispatch | module | promise | sample | effect | spawn
deriving DecidableEq

/-- A change of the interpreter, with the references and the features it is meant for and an
invariant of its own. -/
structure Patch (host : Host Chunk σ ν) extends Allowed where
  apply : Interp Chunk σ → Interp Chunk σ
  extra : Interp Chunk σ → Prop
  allows : Feature → Prop

namespace Patch

variable {host : Host Chunk σ ν} (p : Patch host)

structure Keeps (s : Interp Chunk σ) : Prop where
  interp : p.interp host s
  extra : p.extra s

def Reads {α : Type} (f : Interp Chunk σ → α) : Prop := ∀ s, p.Keeps s → f (p.apply s) = f s

def Writes (f : Interp Chunk σ → Interp Chunk σ) : Prop :=
  ∀ s, p.Keeps s → f (p.apply s) = p.apply (f s) ∧ p.extra (f s)

/-- The patch goes unnoticed by every primitive the machine is made of. The default proofs are for
the fields of the interpreter the patch leaves alone. -/
structure Lawful : Prop where
  cancel : p.Reads fun s => s.cancellable && s.cancelled := by exact fun _ _ => rfl
  world : p.Reads Interp.world := by exact fun _ _ => rfl
  setWorld : ∀ world, p.Writes fun s => { s with world := world } := by
    exact fun _ _ hs => ⟨rfl, hs.extra⟩
  memory : p.Reads Interp.memoryBudget := by exact fun _ _ => rfl
  setMemory : ∀ bytes, p.Writes fun s =>
      { s with memoryBudget := s.memoryBudget.map (· - bytes) } := by
    exact fun _ _ hs => ⟨rfl, hs.extra⟩
  nextId : p.Reads Interp.nextId := by exact fun _ _ => rfl
  setNextId : p.Writes fun s => { s with nextId := s.nextId + 1 } := by
    exact fun _ hs => ⟨rfl, hs.extra⟩
  print : ∀ text, p.Writes fun s => { s with output := s.output ++ [text] } := by
    exact fun _ _ hs => ⟨rfl, hs.extra⟩
  topFrame : p.Reads fun s => s.fastFrames.head? := by exact fun _ _ => rfl
  setTopFrame : ∀ frame, p.Writes fun s =>
      { s with fastFrames := frame :: s.fastFrames.tail } := by
    exact fun _ _ hs => ⟨rfl, hs.extra⟩
  pushFast : ∀ frame, p.Writes fun s => { s with fastFrames := frame :: s.fastFrames } := by
    exact fun _ _ hs => ⟨rfl, hs.extra⟩
  popFast : p.Writes fun s => { s with fastFrames := s.fastFrames.tail } := by
    exact fun _ hs => ⟨rfl, hs.extra⟩
  finder : p.Reads fun s => s.heap.lookup s.environment := by exact fun _ _ => rfl
  assign : ∀ name value span s, p.Keeps s → p.value value →
      (∀ failure, s.heap.assign s.environment name value span = .error failure →
        (p.apply s).heap.assign (p.apply s).environment name value span = .error failure) ∧
      ∀ heap, s.heap.assign s.environment name value span = .ok heap →
        ∃ heap', (p.apply s).heap.assign (p.apply s).environment name value span = .ok heap' ∧
          { p.apply s with heap := heap' } = p.apply { s with heap := heap } ∧
          p.extra { s with heap := heap } := by
    exact fun _ _ _ _ hs _ => ⟨fun _ h => h, fun heap h => ⟨heap, h, rfl, hs.extra⟩⟩
  declared : ∀ name, p.Reads fun s => ((s.heap.get s.environment).values.lookup name).isSome := by
    exact fun _ _ _ => rfl
  insert : ∀ name value mutable, p.value value → p.Writes fun s =>
      { s with heap := s.heap.insert s.environment name ⟨value, mutable⟩ } := by
    exact fun _ _ _ _ _ hs => ⟨rfl, hs.extra⟩
  parent : p.Reads fun s => (s.heap.get s.environment).parent := by exact fun _ _ => rfl
  child : ∀ e, p.scope e → p.Reads fun s => (s.heap.child e).1 := by exact fun _ _ _ _ => rfl
  pushChild : ∀ e, p.scope e → p.Writes fun s => { s with
      heap := (s.heap.child e).2
      environments := (s.heap.child e).1 :: s.environments } := by
    exact fun _ _ _ hs => ⟨rfl, hs.extra⟩
  bindAll : ∀ e bindings, p.scope e → p.Writes fun s =>
      { s with heap := s.heap.insertAll e bindings } := by
    exact fun _ _ _ _ hs => ⟨rfl, hs.extra⟩
  exported : ∀ e name, p.scope e → p.Reads fun s => (s.heap.get e).values.lookup name := by
    exact fun _ _ _ _ _ => rfl
  catalog : p.Reads fun s => s.heap.recordCatalog s.environment := by exact fun _ _ => rfl
  choices : p.Reads fun s => s.heap.choiceCatalog s.environment := by exact fun _ _ => rfl
  environment : p.Reads Interp.environment := by exact fun _ _ => rfl
  setEnvironment : ∀ e, p.Writes fun s => { s with environment := e } := by
    exact fun _ _ hs => ⟨rfl, hs.extra⟩
  pushRoot : ∀ e, p.Writes fun s => { s with roots := e :: s.roots } := by
    exact fun _ _ hs => ⟨rfl, hs.extra⟩
  popRoot : p.Writes fun s => { s with roots := s.roots.tail } := by
    exact fun _ hs => ⟨rfl, hs.extra⟩
  debugged : p.Reads Interp.debugged := by exact fun _ _ => rfl
  watched : p.Reads fun s => s.debugged || s.metered := by exact fun _ _ => rfl
  endCall : p.Writes fun s => { s with callDepth := s.callDepth - 1 } := by
    exact fun _ hs => ⟨rfl, hs.extra⟩
  jit : ∀ id, p.Reads fun s => (s.jit.lookup id).getD ⟨0, none, false⟩ := by exact fun _ _ _ => rfl
  setJit : ∀ id state, p.Writes fun s =>
      { s with jit := (id, state) :: s.jit.filter fun entry => entry.1 ≠ id } := by
    exact fun _ _ _ hs => ⟨rfl, hs.extra⟩
  jitThreshold : p.Reads Interp.jitThreshold := by exact fun _ _ => rfl
  maxCallDepth : p.Reads Interp.maxCallDepth := by exact fun _ _ => rfl
  payloadLimit : p.allows .text → p.Reads Interp.payloadLimit := by exact fun _ _ _ => rfl
  namespaces : p.allows .declaration → p.Reads Interp.namespaces := by exact fun _ _ _ => rfl
  dispatch : p.allows .dispatch → ∀ key, p.Reads fun s => s.protocolDispatch.lookup key := by
    exact fun _ _ _ _ => rfl
  adopt : p.allows .declaration → ∀ protocol member typeName implementation,
      p.Writes fun s => { s with protocolDispatch :=
        ((protocol, member, typeName), implementation) ::
          s.protocolDispatch.filter fun entry => entry.1 ≠ (protocol, member, typeName) } := by
    exact fun _ _ _ _ _ _ hs => ⟨rfl, hs.extra⟩
  globals : p.allows .module → p.Reads Interp.globals := by exact fun _ _ _ => rfl
  pushNamespace : p.allows .module → ∀ name, p.Writes fun s =>
      { s with namespaces := s.namespaces ++ [name] } := by
    exact fun _ _ _ hs => ⟨rfl, hs.extra⟩
  popNamespace : p.allows .module → p.Writes fun s =>
      { s with namespaces := s.namespaces.dropLast } := by
    exact fun _ _ hs => ⟨rfl, hs.extra⟩
  runSamples : p.allows .sample → p.Reads Interp.runSamples := by exact fun _ _ _ => rfl
  pushPromises : p.allows .promise → ∀ clauses, p.Writes fun s =>
      { s with activePromises := s.activePromises ++ clauses } := by
    exact fun _ _ _ hs => ⟨rfl, hs.extra⟩
  note : p.allows .effect → ∀ event, p.Writes fun s =>
      { s with effects := s.effects ++ [event] } := by
    exact fun _ _ _ hs => ⟨rfl, hs.extra⟩
  replay : p.allows .effect → p.Reads Interp.effectReplay := by exact fun _ _ _ => rfl
  setReplay : p.allows .effect → ∀ trace, p.Writes fun s =>
      { s with effectReplay := some trace } := by
    exact fun _ _ _ hs => ⟨rfl, hs.extra⟩
  promises : p.allows .effect → p.Reads Interp.activePromises := by exact fun _ _ _ => rfl
  capabilities : p.allows .effect → p.Reads Interp.capabilities := by exact fun _ _ _ => rfl
  scopes : p.allows .effect → p.Reads Interp.capabilityScopes := by exact fun _ _ _ => rfl
  recorder : p.allows .effect → p.Reads Interp.effectRecorder := by exact fun _ _ _ => rfl
  setRecorder : p.allows .effect → ∀ records, p.Writes fun s =>
      { s with effectRecorder := records } := by
    exact fun _ _ _ hs => ⟨rfl, hs.extra⟩
  liveTasks : p.allows .spawn → p.Reads Interp.liveTasks := by exact fun _ _ _ => rfl
  spawn : p.allows .spawn → ∀ task f span, p.Writes fun s => { s with
      liveTasks := s.liveTasks + 1
      spawned := s.spawned ++ [⟨task, f, span, s.capabilities, s.capabilityScopes,
        s.activePromises, s.maxCallDepth, decide (0 < s.nativeExecutionDepth), s.metered⟩] } := by
    exact fun _ _ _ _ _ hs => ⟨rfl, hs.extra⟩

abbrev Unaware {α : Type} (m : VM Chunk σ α) (s : Interp Chunk σ) (Q : α → Prop) : Prop :=
  Blind p.apply p.Keeps m s Q

abbrev Oblivious {α : Type} (m : VM Chunk σ α) (Q : α → Prop) : Prop :=
  Program.Oblivious p.apply p.Keeps m Q

attribute [class] Lawful

/-- The executors treat the patch as the primitives do. -/
structure Executor : Prop where
  enter : ∀ {s chunk frames}, p.Keeps s → p.chunk chunk → p.frames host frames →
    p.Unaware (VM.enterChunk chunk frames) s (p.next host)
  leave : ∀ {s a frames result}, p.Keeps s → p.activation a → p.frames host frames →
    p.result result → p.Unaware (VM.leaveChunk a frames result) s (p.next host)
  finish : ∀ {s a frames}, p.Keeps s → p.activation a → p.frames host frames →
    p.Unaware (VM.finishChunk a frames) s (p.next host)

variable {p} {s : Interp Chunk σ}

variable {span : Span} {message : String}

section Basic

variable {α : Type} {Q : α → Prop} {f : Interp Chunk σ → α}

theorem Reads.unaware (hf : p.Reads f) (hQ : ∀ s, p.Keeps s → Q (f s)) :
    p.Oblivious (VM.read f) Q :=
  fun s hs => .read hs (hf s hs) (hQ s hs)

theorem Reads.read (hf : p.Reads f) : p.Oblivious (VM.read f) fun _ => True :=
  hf.unaware fun _ _ => trivial

theorem Writes.unaware {f : Interp Chunk σ → Interp Chunk σ} (hf : p.Writes f)
    (hA : ∀ s, p.Keeps s → p.interp host (f s) := by exact fun _ hs => { hs.interp with }) : p.Oblivious (VM.write f) fun _ => True :=
  fun s hs => .write (hf s hs).1 ⟨hA s hs, (hf s hs).2⟩ trivial

theorem unaware_raise : p.Oblivious (VM.raise message span) Q := .throw

variable {result : Result α}

theorem unaware_lift (h : AllOk Q result) : p.Oblivious (VM.lift result) Q := by
  cases result with
  | error failure => exact .throw
  | ok a => exact .pure (h a rfl)

theorem unaware_lifted : p.Oblivious (VM.lift result) fun _ => True :=
  unaware_lift fun _ _ => trivial

theorem unaware_liftError {result : Except NivError α}
    (h : ∀ a, result = .ok a → Q a) : p.Oblivious (VM.liftError result) Q := by
  cases result with
  | error e => exact .throw
  | ok a => exact .pure (h a rfl)

end Basic

theorem unaware_attempt {α : Type} {Q : α → Prop} {m : VM Chunk σ α} (h : p.Unaware m s Q) :
    p.Unaware (VM.attempt m) s fun result => ∀ a, result = .ok a → Q a := by
  obtain ⟨hc, he⟩ := h
  constructor
  · rw [VM.exec_attempt, VM.exec_attempt, hc]
    rcases exec m s with ⟨failure | _, _⟩
    · cases failure <;> rfl
    · rfl
  · rw [VM.ensures_attempt]
    refine he.mono (fun a s h => ⟨h.1, fun b hb => by cases hb; exact h.2⟩) fun failure s h => ?_
    cases failure with
    | error e => exact ⟨h, fun _ hb => nomatch hb⟩
    | panic => exact h

theorem oblivious_attempt {α : Type} {Q : α → Prop} {m : VM Chunk σ α} (h : p.Oblivious m Q) :
    p.Oblivious (VM.attempt m) fun result => ∀ a, result = .ok a → Q a :=
  fun s hs => unaware_attempt (h s hs)

variable {name : String}

section Primitives

variable [hp : p.Lawful]

theorem unaware_isCancelled : p.Oblivious VM.isCancelled fun _ => True :=
  hp.cancel.read

theorem unaware_setWorld {world : σ} (hw : p.world host world) :
    p.Oblivious (VM.setWorld world) fun _ => True :=
  (hp.setWorld world).unaware fun _ hs => { hs.interp with stored := hw }

theorem unaware_world : p.Oblivious (VM.read Interp.world) (p.world host) :=
  hp.world.unaware fun _ hs => hs.interp.stored

variable {value : Value Chunk}

theorem unaware_chargeMemory : p.Oblivious (VM.chargeMemory host value span) fun _ => True := by
  refine hp.world.read.bind fun world _ => ?_
  split
  · exact unaware_raise
  · refine hp.memory.read.bind fun budget _ => ?_
    split
    · exact .pure trivial
    · split
      · exact unaware_raise
      · exact (hp.setMemory _).unaware

theorem unaware_fresh : p.Oblivious VM.fresh fun _ => True :=
  hp.nextId.read.bind fun _ _ =>
    hp.setNextId.unaware.seq <| .pure trivial

theorem unaware_printLine {text : String} : p.Oblivious (VM.printLine text) fun _ => True :=
  (hp.print text).unaware

theorem unaware_topFrame : p.Oblivious VM.topFrame fun top =>
    ∀ frame, top = some frame → ∀ binding ∈ frame.slots, p.value binding.value :=
  hp.topFrame.unaware fun _ hs frame hf => hs.interp.fast frame (mem_of_mem_head? hf)

variable {frame : FastFrame Chunk}

theorem unaware_setTopFrame (hf : ∀ binding ∈ frame.slots, p.value binding.value) :
    p.Oblivious (VM.setTopFrame frame) fun _ => True :=
  (hp.setTopFrame frame).unaware fun _ hs => { hs.interp with
    fast := forall_mem_cons.mpr ⟨hf, fun frame h => hs.interp.fast frame (mem_of_mem_tail h)⟩ }

theorem unaware_pushFast (hf : ∀ binding ∈ frame.slots, p.value binding.value) :
    p.Oblivious (VM.pushFast frame) fun _ => True :=
  (hp.pushFast frame).unaware fun _ hs => { hs.interp with
    fast := forall_mem_cons.mpr ⟨hf, hs.interp.fast⟩ }

theorem unaware_popFast : p.Oblivious VM.popFast fun _ => True :=
  hp.popFast.unaware fun _ hs => { hs.interp with
    fast := fun frame h => hs.interp.fast frame (mem_of_mem_tail h) }

variable {instruction : Nat}

theorem unaware_fastSlot : p.Oblivious (VM.fastSlot instruction) fun found => ∀ frame slot binding,
      found = some (frame, slot, binding) →
        (∀ binding ∈ frame.slots, p.value binding.value) ∧ p.value binding.value := by
  refine (unaware_topFrame).bind fun top htop => ?_
  split
  · exact .pure fun _ _ _ h => nomatch h
  · split
    · exact .pure fun _ _ _ h => nomatch h
    · split
      · exact .throw
      next hb =>
        refine .pure fun _ _ _ h => ?_
        cases h
        exact ⟨htop _ rfl, htop _ rfl _ (mem_of_getElem? hb)⟩

theorem unaware_loadFast :
    p.Oblivious (VM.loadFast instruction) fun found => ∀ value, found = some value →
      p.value value := by
  refine (unaware_fastSlot).bind fun found hf => ?_
  split
  · exact .pure fun _ h => nomatch h
  · refine .pure fun value h => ?_
    split at h <;> cases h
    exact (hf _ _ _ rfl).2

theorem unaware_defineFast {mutable : Bool}
    (hv : p.value value) : p.Oblivious (VM.defineFast instruction value mutable) fun _ => True := by
  refine (unaware_fastSlot).bind fun found hf => ?_
  split
  · exact .pure trivial
  · refine (unaware_setTopFrame fun binding hb => ?_).seq <| .pure trivial
    rcases mem_or_eq_of_mem_set hb with hb | rfl
    · exact (hf _ _ _ rfl).1 _ hb
    · exact hv

theorem unaware_assignFast (hv : p.value value) :
    p.Oblivious (VM.assignFast instruction name value span) fun _ => True := by
  refine (unaware_fastSlot).bind fun found hf => ?_
  split
  · exact .pure trivial
  · split
    · exact .pure trivial
    · split
      · exact unaware_raise
      · refine (unaware_setTopFrame fun binding hb => ?_).seq <| .pure trivial
        rcases mem_or_eq_of_mem_set hb with hb | rfl
        · exact (hf _ _ _ rfl).1 _ hb
        · exact hv

theorem unaware_finder : p.Oblivious VM.finder fun find => ∀ name value, find name = some value →
    p.value value :=
  hp.finder.unaware fun _ hs _ _ h => hs.interp.heap.lookupFrom hs.interp.environment h

theorem unaware_lookup : p.Oblivious (VM.lookup name) fun found =>
    ∀ value, found = some value → p.value value :=
  (unaware_finder).bind fun _ hf => .pure fun value h => hf name value h

theorem unaware_assign
    (hv : p.value value) : p.Oblivious (VM.assign name value span) fun _ => True := by
  intro s hs
  obtain ⟨her, hok⟩ := hp.assign name value span s hs hv
  cases ha : s.heap.assign s.environment name value span with
  | error failure =>
    constructor
    · rw [VM.exec_assign, VM.exec_assign, ha, her failure ha]
    · rw [Ensures, VM.exec_assign, ha]
      exact hs
  | ok heap =>
    obtain ⟨heap', ha', hst, het⟩ := hok heap ha
    constructor
    · rw [VM.exec_assign, VM.exec_assign, ha, ha']
      simp only [hst]
    · rw [Ensures, VM.exec_assign, ha]
      exact ⟨⟨{ hs.interp with heap := hs.interp.heap.assign hv ha }, het⟩, trivial⟩

theorem unaware_declared : p.Oblivious (VM.declared name) fun _ => True :=
  (hp.declared name).read

theorem unaware_insertBinding {mutable : Bool}
    (hv : p.value value) : p.Oblivious (VM.insertBinding name value mutable) fun _ => True :=
  (hp.insert name value mutable hv).unaware fun _ hs => { hs.interp with heap := hs.interp.heap.insert hv }

theorem unaware_qualified (hd : p.allows .declaration) :
    p.Oblivious (VM.qualified name) fun _ => True :=
  ((hp.namespaces hd).read).bind fun _ _ => .pure trivial

theorem unaware_environment : p.Oblivious VM.environment p.scope :=
  hp.environment.unaware fun _ hs => hs.interp.environment

variable {e : Env}

theorem unaware_setEnvironment (he : p.scope e) : p.Oblivious (VM.setEnvironment e) fun _ => True :=
  (hp.setEnvironment e).unaware fun _ hs => { hs.interp with environment := he }

theorem unaware_pushRoot (he : p.scope e) : p.Oblivious (VM.pushRoot e) fun _ => True :=
  (hp.pushRoot e).unaware fun _ hs => { hs.interp with
    roots := forall_mem_cons.mpr ⟨he, hs.interp.roots⟩ }

theorem unaware_popRoot : p.Oblivious VM.popRoot fun _ => True :=
  hp.popRoot.unaware fun _ hs => { hs.interp with
    roots := fun e h => hs.interp.roots e (mem_of_mem_tail h) }

theorem unaware_childScope (he : p.scope e) : p.Oblivious (VM.childScope e) p.scope :=
  ((hp.child e he).unaware fun _ hs => hs.interp.heap.unborn _ (Nat.le_refl _)).bind fun _ hc =>
    ((hp.pushChild e he).unaware fun _ hs =>
      { hs.interp with heap := hs.interp.heap.child he }).seq <| .pure hc

variable {bindings : List (String × Value Chunk)}

theorem unaware_bindAll (he : p.scope e)
    (hb : p.bindings bindings) : p.Oblivious (VM.bindAll e bindings) fun _ => True := by
  refine (hp.bindAll e _ he).unaware fun _ hs => { hs.interp with heap := hs.interp.heap.insertAll ?_ }
  intro entry hen
  obtain ⟨binding, hm, rfl⟩ := mem_map.mp hen
  exact hb binding hm

theorem unaware_enterBlock (hb : p.bindings bindings) :
    p.Oblivious (VM.enterBlock bindings) p.scope :=
  (unaware_environment).bind fun _ hpr =>
    (unaware_pushRoot hpr).seq <|
      (unaware_childScope hpr).bind fun _ he =>
        (unaware_bindAll he hb).seq <|
          (unaware_setEnvironment he).seq <| .pure hpr

theorem unaware_leaveBlock {previous : Env} (he : p.scope previous) :
    p.Oblivious (VM.leaveBlock previous) fun _ => True :=
  (unaware_popRoot).seq <| unaware_setEnvironment he

theorem unaware_planActive : p.Oblivious VM.planActive fun _ => True :=
  (unaware_topFrame).bind fun _ _ => .pure trivial

theorem unaware_enterScope : p.Oblivious VM.enterScope fun _ => True := by
  refine (unaware_planActive).bind fun active _ => ?_
  split
  · exact (unaware_environment).bind fun _ he =>
      (unaware_childScope he).bind fun _ he => unaware_setEnvironment he
  · exact .pure trivial

theorem unaware_exitScope : p.Oblivious VM.exitScope fun _ => True := by
  refine (unaware_planActive).bind fun active _ => ?_
  split
  · refine (hp.parent.unaware fun _ hs q hq => hs.interp.heap.parent _ hs.interp.environment q hq :
      p.Oblivious _ fun parent => ∀ q, parent = some q → p.scope q).bind fun parent hq => ?_
    split
    · exact unaware_setEnvironment (hq _ rfl)
    · exact .throw
  · exact .pure trivial

end Primitives

variable {arguments : List (Value Chunk)}

section Gate

variable [hp : p.Lawful] (he : p.allows .effect)
include he

theorem unaware_note {event : EffectEvent} : p.Oblivious (VM.note event) fun _ => True :=
  (hp.note he event).unaware

variable {capability operation : String}

theorem unaware_deny {α : Type} {Q : α → Prop} :
    p.Oblivious (VM.deny capability operation message span) Q :=
  (unaware_note he).seq <| unaware_raise

theorem unaware_replayEffect (tame : host.Tame) {trace : List EffectRecord} :
    p.Oblivious (VM.replayEffect host capability operation arguments trace span) p.value := by
  unfold VM.replayEffect
  split
  · exact unaware_raise
  next rest =>
    refine ((hp.setReplay he rest).unaware).seq ?_
    dsimp only
    split
    · exact unaware_raise
    · exact (unaware_note he).seq <|
        unaware_liftError fun value hv => tame.effectFromJson p.toAllowed _ _ value hv

theorem unaware_authorizeScope (tame : host.Tame) (ha : p.values arguments) :
    p.Oblivious (VM.authorizeScope host capability operation arguments span) p.values := by
  refine ((hp.scopes he).read).bind fun scopes _ => ?_
  have had : p.values (if capability = "Native" ∧ operation = "open" then
      host.canonicalize arguments else arguments) := by
    split
    · exact tame.canonicalize p.toAllowed _ ha
    · exact ha
  generalize (if capability = "Native" ∧ operation = "open" then
      host.canonicalize arguments else arguments) = admitted at had
  split
  · exact .pure ha
  · dsimp only
    split
    · exact .pure had
    · exact unaware_deny he

theorem unaware_gate (tame : host.Tame) (ha : p.values arguments) :
    p.Oblivious (VM.gate host capability operation arguments span) p.admission := by
  refine ((hp.replay he).read).bind fun replay _ => ?_
  split
  · exact (unaware_replayEffect he tame).map fun _ hv => hv
  · refine ((hp.promises he).read).bind fun promises _ => ?_
    split
    · exact unaware_deny he
    · refine ((hp.capabilities he).read).bind fun capabilities _ => ?_
      split
      · exact unaware_deny he
      · exact (unaware_authorizeScope he tame ha).bind fun _ ha =>
          (unaware_note he).seq <| .pure ha

end Gate

theorem unaware_recordEffect [hp : p.Lawful] {f : NativeFunction}
    (he : f.capability.isSome → p.allows .effect)
    {result : Except NivError (Value Chunk)}
    (hr : ∀ value, result = .ok value → p.value value) :
    p.Oblivious (VM.recordEffect host f arguments result span) p.value := by
  refine (unaware_liftError hr).bind fun value hv => ?_
  split
  · exact .pure hv
  next hc =>
    have he := he (by rw [hc]; rfl)
    refine ((hp.recorder he).read).bind fun recorder _ => ?_
    split
    · exact .pure hv
    · split
      · exact unaware_raise
      · refine Oblivious.seq (P := fun _ => True) ?_ (.pure hv)
        exact (hp.setRecorder he _).unaware

section Runtime

variable [hp : p.Lawful]

theorem unaware_getValue {object : Value Chunk}
    (ho : p.value object) : p.Oblivious (VM.getValue object name span) p.value := by
  unfold VM.getValue
  split
  · split
    next hf => exact .pure (recordField_all (Value.all_record.mp ho) hf)
    · exact unaware_raise
  · split
    · exact unaware_raise
    · split
      · exact (unaware_fresh).bind fun _ _ => .pure Value.all_derivedMethod
      · exact unaware_raise
  · split
    · exact unaware_raise
    · split
      · exact (unaware_fresh).bind fun _ _ => .pure Value.all_enumConstructor
      · exact .pure (by simp)
  · split
    · exact (unaware_fresh).bind fun _ _ => .pure Value.all_protocolMethod
    · exact unaware_raise
  · split
    next hm => exact .pure (Value.all_module.mp ho _ (lookup_mem hm))
    · exact unaware_raise
  · exact unaware_raise

variable {f : Function Chunk}

theorem unaware_enterFunction (hf : p.function f) (ha : p.values arguments) :
    p.Oblivious (VM.enterFunction f arguments) fun entered => p.scope entered.1 := by
  have hb : p.bindings (f.params.zip arguments) := Allowed.bindings_zip ha
  refine (unaware_environment).bind fun previous hpr => ?_
  refine hp.watched.read.bind fun watched _ => ?_
  split
  · refine (unaware_pushFast (Allowed.parameterSlots_value hb)).seq ?_
    have hta : p.Oblivious (do
        VM.pushRoot previous
        return (previous, true)) fun entered => p.scope entered.1 :=
      (unaware_pushRoot hpr).seq <| .pure hpr
    dsimp only
    split
    · exact (unaware_setEnvironment hf.2).seq <| hta
    · exact (unaware_childScope hf.2).bind fun _ he =>
        (unaware_bindAll he fun entry h => hb entry (mem_filter.mp h).1).seq <|
          (unaware_setEnvironment he).seq <| hta
  · refine (unaware_childScope hf.2).bind fun e he => ?_
    refine (unaware_bindAll he hb).seq ?_
    refine (unaware_setEnvironment he).seq ?_
    refine (unaware_pushRoot hpr).seq ?_
    refine (unaware_topFrame).bind fun top _ => ?_
    split
    · exact .pure hpr
    · exact (unaware_pushFast fun _ h => by cases h).seq <| .pure hpr

theorem unaware_leaveFunction {previous : Env} {fast : Bool} (he : p.scope previous) :
    p.Oblivious (VM.leaveFunction previous fast) fun _ => True := by
  refine (unaware_popRoot).seq ?_
  refine (unaware_setEnvironment he).seq ?_
  split
  · exact unaware_popFast
  · exact .pure trivial

theorem unaware_endCall : p.Oblivious VM.endCall fun _ => True :=
  hp.endCall.unaware

theorem unaware_tryJit : p.Oblivious (VM.tryJit f arguments) fun _ => True := by
  refine ((hp.jit f.id).read).bind fun state _ => ?_
  split
  · exact .pure trivial
  · refine hp.jitThreshold.read.bind fun threshold _ => ?_
    split <;> exact (hp.setJit _ _).unaware.seq <| .pure trivial

theorem unaware_jitError {error : JitCallError} {Q : Value Chunk → Prop} :
    p.Oblivious (VM.jitError error span) Q := by
  unfold VM.jitError
  split
  · exact unaware_raise
  · exact unaware_raise
  · exact unaware_raise
  · exact hp.maxCallDepth.read.bind fun _ _ => unaware_raise

theorem unaware_taskSpawn (hsp : p.allows .spawn)
    (ha : p.values arguments) : p.Oblivious (VM.taskSpawn arguments span) p.value := by
  unfold VM.taskSpawn
  split
  next f hf =>
    have hfun : p.function f := by
      cases arguments with
      | nil => cases hf
      | cons value rest =>
        cases hf
        exact Value.all_function.mp (ha _ mem_cons_self)
    split
    · exact unaware_raise
    · refine ((hp.liveTasks hsp).read).bind fun live _ => ?_
      split
      · exact unaware_raise
      · refine (unaware_fresh).bind fun task _ => ?_
        refine ((hp.spawn hsp task f span).unaware fun _ hs => { hs.interp with
          spawned := ?_ }).seq <| .pure Value.all_handle
        intro start hst
        rcases mem_append.mp hst with h | h
        · exact hs.interp.spawned start h
        · rw [mem_singleton.mp h]
          exact hfun
  · exact unaware_raise

end Runtime

end Patch

end Nivren
