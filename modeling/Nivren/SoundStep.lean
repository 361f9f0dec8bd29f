import Nivren.Soundness

/-! Every step of a sound machine leads to a sound machine, and none panics. -/

namespace Nivren

open Program
open Program (ensures_bind)

variable {σ ν : Type} {host : Host Chunk σ ν} {F frames : List (Frame ν)} {Base : Env → Prop}
  {saved : List Env} {s : Interp Chunk σ}

namespace VM

/-- The goal of every step lemma: the next state fits, and there is no panic. -/
abbrev Steps (F : List (Frame ν)) (Base : Env → Prop) (m : VM Chunk σ (Next σ ν))
    (s : Interp Chunk σ) : Prop :=
  Ensures m s (fun next s' => NextFits F Base s' next) fun _ _ => False

variable {a : Activation}

theorem steps_executeStep {terminate : Bool} {l : Bool} {n : Nat} {outer : Env}
    (hs : saved.Sublist s.roots)
    (hr : Running F Base s.layout frames saved a.chunk l a.instruction a.stack.length n outer)
    (het : ∀ skip span, a.current = some ⟨.loopExit skip, span⟩ →
      FramesFit F Base s.layout frames saved) :
    Steps F Base (executeStep host terminate a frames) s := by
  unfold executeStep
  split
  next hc => exact ensures_finishChunk hs hc hr
  next op span hc =>
    have hop : Settles s (executeOp host a op span frames) _ :=
      settles_executeOp hc hs hr fun skip hop => het skip span (hop ▸ hc)
    refine (Settles.calm fun _ => hop).attempt_bind (fun result s' hre => ?_) fun e s' hk => ?_
    · match result, hre with
      | .onward stack, ⟨saved, hs, n, outer, hr⟩ =>
        exact ensures_goTo (a := { a with stack := stack }) hs hr
      | .next stack next memory, ⟨saved, hs, n, outer, hr⟩ =>
        exact ⟨saved, hs, l, n, outer, hr⟩
      | .leave flow, ⟨saved, hs, hfl⟩ => exact ensures_leaveChunk hs hfl
      | .enter next, hn => exact hn
    · exact ensures_leaveChunk (sublist_keeps hk hs) ((hk.running hr).error e)

theorem steps_settleStep {next : Nat} {memory : Bool} {l : Bool} {n : Nat}
    {outer : Env} (hs : saved.Sublist s.roots)
    (hr : Running F Base s.layout frames saved a.chunk l next a.stack.length n outer) :
    Steps F Base (settleStep host a next memory frames) s := by
  unfold settleStep
  dsimp only
  split
  · refine Calm.ensures_attempt_bind fun result s' hk => ?_
    split
    · exact ensures_leaveChunk (sublist_keeps hk hs) ((hk.running hr).error _)
    · exact ensures_goTo (sublist_keeps hk hs) (hk.running hr)
  · exact ensures_goTo hs hr

variable {R : Failure → Interp Chunk σ → Prop}

theorem ensures_enterFunction {f : Function Chunk} {arguments : List (Value Chunk)} :
    Ensures (enterFunction f arguments) s (fun entered s' =>
      entered.1 = s.environment ∧ s'.roots = s.environment :: s.roots ∧
        (if entered.2 then s'.layout.flags.tail else s'.layout.flags) = s.layout.flags ∧
        ∀ e p, (s.heap.get e).parent = some p → (s'.heap.get e).parent = some p) R := by
  unfold enterFunction VM.environment
  simp only [ensures_bind, ensures_read]
  split
  · simp only [pushFast, ensures_bind, ensures_write]
    split
    · simp only [setEnvironment, pushRoot, ensures_bind, ensures_write, ensures_pure]
      exact ⟨trivial, trivial, rfl, fun e p hp => hp⟩
    · simp only [childScope, bindAll, setEnvironment, pushRoot, ensures_bind, ensures_read,
        ensures_write, ensures_pure]
      exact ⟨trivial, trivial, rfl, fun e p hp => parent_insertAll (parent_child hp)⟩
  · simp only [childScope, bindAll, setEnvironment, pushRoot, topFrame, ensures_bind,
      ensures_read, ensures_write, ensures_pure]
    split
    · exact ⟨rfl, rfl, rfl, fun e p hp => parent_insertAll (parent_child hp)⟩
    · simp only [pushFast, ensures_bind, ensures_write, ensures_pure]
      exact ⟨trivial, trivial, rfl, fun e p hp => parent_insertAll (parent_child hp)⟩

variable {s' : Interp Chunk σ}

theorem nextFits_continue (hk : s.layout.Keeps s'.layout)
    (hs : saved.Sublist s.roots) (hf : FramesFit F Base s.layout frames saved)
    {value : Value Chunk} : NextFits F Base s' (frames, .flow (.ok (.continue value))) :=
  ⟨saved, sublist_keeps hk hs, hk.framesFit hf⟩

theorem nextFits_error (hk : s.layout.Keeps s'.layout)
    (hs : saved.Sublist s.roots) (hf : FramesFit F Base s.layout frames saved) {e : NivError} :
    NextFits F Base s' (frames, .flow (.error e)) :=
  ⟨saved, sublist_keeps hk hs, ⟨_, hk.fits hf⟩, .inr (hk.framesFit hf)⟩

theorem nextFits_return (hk : s.layout.Keeps s'.layout)
    (hs : saved.Sublist s.roots) (hf : FramesFit F Base s.layout frames saved)
    {value : Value Chunk} : NextFits F Base s' (frames, .flow (.ok (.return value))) :=
  ⟨saved, sublist_keeps hk hs, ⟨_, hk.fits hf⟩, .inr (hk.framesFit hf)⟩

abbrev Reports (F : List (Frame ν)) (Base : Env → Prop) (m : VM Chunk σ (Next σ ν))
    (s : Interp Chunk σ) : Prop :=
  Settles s m fun next s' => NextFits F Base s' next

theorem steps_reporting {program : VM Chunk σ (Next σ ν)} (hs : saved.Sublist s.roots)
    (hf : FramesFit F Base s.layout frames saved) (h : Reports F Base program s) :
    Steps F Base (reporting frames program) s :=
  h.attempt_bind (fun _ _ h => h) fun _ _ hk => nextFits_error hk hs hf

variable {last : Value Chunk} {name : String} {loop : Loop}

section Calls

variable {span : Span} {arguments : List (Value Chunk)} (hs : saved.Sublist s.roots)
  (hf : FramesFit F Base s.layout frames saved)
include hs hf

theorem reports_callFunction {f : Function Chunk} (hv : Verified f.body false) :
    Reports F Base (callFunction f arguments span frames) s := by
  unfold callFunction
  refine .calm fun _ => .calm fun _ => .calm fun compiled s₁ hk => ?_
  have hfit := hk.framesFit hf
  split
  · exact ⟨saved, sublist_keeps hk hs, hfit⟩
  · refine ensures_enterFunction.bind fun entered s₂ h => ?_
    obtain ⟨previous, fast⟩ := entered
    obtain ⟨rfl, hr, hfl, hpa⟩ := h
    have hsa : (s₁.environment :: saved).Sublist s₂.roots := by
      rw [hr]
      exact (sublist_keeps hk hs).cons_cons _
    refine ensures_enterChunk hv ⟨nofun, by trivial⟩ hsa (.function ?_)
    rw [hfl]
    exact hfit.mono (K := fun _ => True) (fun e p _ hp => ⟨hpa e p hp, trivial⟩) trivial
      fun _ _ => trivial

theorem reports_startNative {f : NativeFunction} {admission : Admission Chunk} :
    Reports F Base (startNative host f arguments span frames admission) s := by
  unfold startNative
  split
  · exact fun s' hk => nextFits_continue hk hs hf
  · split
    · refine fun s₁ h₁ => Calm.ensures_attempt_bind fun result s₂ h₂ => ?_
      simp only [ensures_bind, ensures_read, ensures_pure]
      exact ⟨saved, sublist_keeps (h₁.trans h₂) hs, trivial, (h₁.trans h₂).framesFit hf⟩
    · exact .calm fun world s' hk => ⟨saved, sublist_keeps hk hs, trivial, hk.framesFit hf⟩

theorem reports_call {callee : Value Chunk}
    (hv : ∀ f, callee = .function f → Verified f.body false) :
    Reports F Base (call host callee arguments span frames) s := by
  unfold call
  split
  · refine .calm fun _ => .calm fun admission => ?_
    exact reports_startNative hs hf
  next f => exact reports_callFunction hs hf (hv f rfl)
  · exact .calm fun _ s' hk => nextFits_continue hk hs hf
  · exact .calm fun _ s' hk => nextFits_continue hk hs hf
  · split
    · exact .raise
    · refine .calm fun found => ?_
      split
      · exact .raise
      · exact fun s' hk => ⟨saved, sublist_keeps hk hs, hk.framesFit hf⟩
  · exact .calm fun value s' hk => nextFits_continue hk hs hf
  · exact .raise

theorem reports_nativeStep {purpose : Purpose} {step : NativeStep Chunk σ ν}
    (hp : PurposeFits purpose) : Reports F Base (nativeStep host purpose step frames) s := by
  unfold nativeStep
  split
  · exact .calm fun _ s' hk => ⟨saved, sublist_keeps hk hs, .native hp (hk.framesFit hf)⟩
  · refine .calm fun _ => ?_
    split
    · exact .calm fun value s' hk => nextFits_continue hk hs hf
    · exact .calm fun value s' hk => ⟨saved, sublist_keeps hk hs, hp, hk.framesFit hf⟩

theorem steps_compiledStep {state : IntState} :
    Steps F Base (compiledStep name span state frames) s := by
  unfold compiledStep endCall
  split
  · exact ⟨saved, hs, hf⟩
  · exact ⟨saved, hs, hf⟩
  · refine Calm.ensures_attempt_bind fun result s₁ h₁ => ?_
    rw [ensures_bind, ensures_write]
    split
    · exact nextFits_continue h₁ hs hf
    · exact nextFits_error h₁ hs hf

theorem reports_chooseStep {subject : Value Chunk} {arms : List BytecodeArm}
    (ha : ∀ arm ∈ arms, ArmFits arm) :
    Reports F Base (chooseStep host subject arms span frames) s := by
  unfold chooseStep
  split
  · exact .raise
  next arm rest =>
    refine .calm fun find s' hk => ?_
    have harm : ArmFits arm := ha arm (by simp)
    have hr : ∀ arm ∈ rest, ArmFits arm := fun arm h => ha arm (by simp [h])
    have hs := sublist_keeps hk hs
    have hf := hk.framesFit hf
    split
    · exact ⟨saved, hs, hr, hf⟩
    next bindings =>
      refine ensures_enterBlock.bind fun previous s₁ h => ?_
      obtain ⟨rfl, hen⟩ := h
      split
      next guard hg =>
        exact ensures_enterNested (harm.guard guard hg) ⟨nofun, by trivial⟩
          (hen.sublist hs) (.guard harm hr (hen.fits hf))
      next =>
        exact ensures_enterNested harm.body ⟨nofun, by trivial⟩ (hen.sublist hs)
          (.arm (hen.fits hf))

/-- An element that does not match its pattern leaves a scope on the root list, so the frames below
find their saved scopes further down. -/
theorem steps_iterateStep {values : List (Value Chunk)} (hl : Verified loop.body true) :
    Steps F Base (reporting frames (iterateStep host loop values last frames)) s := by
  simp only [Steps, reporting, ensures_bind, ensures_attempt]
  unfold iterateStep
  split
  · exact ⟨saved, hs, hf⟩
  next value rest =>
    simp only [VM.environment, pushRoot, childScope, ensures_bind, ensures_read,
      ensures_write, ensures_pure]
    have hf' : Fits F Base (s.heap.child s.environment).2 frames s.layout.flags saved
        s.environment :=
      hf.mono (K := fun _ => True) (fun e p _ hp => ⟨parent_child hp, trivial⟩) trivial
        fun _ _ => trivial
    have hr : ∀ (s' : Interp Chunk σ) bindings R, s'.heap = (s.heap.child s.environment).2 →
        s'.roots = s.environment :: s.roots → s'.layout.flags = s.layout.flags →
        Ensures (do
          VM.bindAll (s.heap.child s.environment).1 bindings
          VM.setEnvironment (s.heap.child s.environment).1
          VM.enterNested loop.body (.iteration loop rest last s.environment :: frames)) s'
          (fun next s' => NextFits F Base s' next) R := by
      intro s' bindings R hh hro hfl
      simp only [VM.bindAll, VM.setEnvironment, ensures_bind, ensures_write]
      have hfi : Fits F Base (s'.heap.insertAll (s.heap.child s.environment).1
          (bindings.map fun entry => (entry.1, ⟨entry.2, false⟩)))
          (.iteration loop rest last s.environment :: frames) (false :: s'.layout.flags)
          (s.environment :: saved) (s.heap.child s.environment).1 := by
        refine .iteration hl (Fits.mono (K := fun _ => True) (h := s'.heap)
          (fun e p _ hp => ⟨parent_insertAll hp, trivial⟩) ?_ trivial fun _ _ => trivial)
        rw [hh]
        exact hfl ▸ hf'
      refine ensures_enterNested hl ⟨fun _ => by trivial, by trivial⟩ ?_ hfi
      exact hro ▸ hs.cons_cons _
    split
    · exact hr _ _ _ rfl rfl rfl
    · simp only [finder, ensures_bind, ensures_read]
      split
      · exact hr _ _ _ rfl rfl rfl
      · exact ⟨saved, hs.cons _, ⟨_, hf'⟩, .inr hf'⟩

theorem steps_repeat {condition body : Chunk}
    (hc : Verified condition false) (hb : Verified body true) (hu : Unwinds frames) :
    Steps F Base (enterNested condition (.repeatCondition condition body last span :: frames))
      s := by
  refine ensures_enterNested hc ⟨nofun, ?_⟩ hs (.repeatCondition hc hb hu hf)
  exact hu

end Calls

variable {result : Except NivError (VmFlow Chunk)} {L : Layout}

theorem FlowFits.fits
    (h : FlowFits F Base L frames saved result) : ∃ e, Fits F Base L.heap frames L.flags saved e := by
  match result, h with
  | .ok (.continue _), h => exact ⟨_, h⟩
  | .ok .stop, h | .ok .skip, h => exact ⟨_, h.2⟩
  | .ok (.return _), h | .error _, h => exact h.1

variable {α : Type} {Q : α → Interp Chunk σ → Prop} {k : Unit → VM Chunk σ α}

theorem popFast_then (h : ∀ s' : Interp Chunk σ, s'.heap = s.heap → s'.roots = s.roots →
      s'.environment = s.environment → s'.layout.flags = s.layout.flags.tail →
      Ensures (k ()) s' Q R) : Ensures (popFast >>= k) s Q R := by
  rw [ensures_bind, popFast, ensures_write]
  exact h _ rfl rfl rfl List.map_tail

variable {previous : Env}

theorem fits_popped {e : Env} (hh : s'.heap = s.heap) (hfl : s'.layout.flags = s.layout.flags.tail)
    (hf : Fits F Base s.heap frames s.layout.flags.tail saved e) :
    Fits F Base s'.heap frames s'.layout.flags saved e := by
  rw [hh, hfl]
  exact hf

theorem framesFit_popped (hh : s'.heap = s.heap) (hen : s'.environment = s.environment)
    (hfl : s'.layout.flags = s.layout.flags.tail)
    (hf : Fits F Base s.heap frames s.layout.flags.tail saved s.environment) :
    FramesFit F Base s'.layout frames saved := by
  rw [← hen] at hf
  exact fits_popped hh hfl hf

section Leave

variable (hs : (previous :: saved).Sublist s.roots)
  (hf : Fits F Base s.heap frames s.layout.flags saved previous)
  (h : ∀ s' : Interp Chunk σ, saved.Sublist s'.roots → FramesFit F Base s'.layout frames saved →
    Ensures (k ()) s' Q R)
include hs hf h

theorem leaveBlock_then : Ensures (leaveBlock previous >>= k) s Q R := by
  simp only [leaveBlock, popRoot, setEnvironment, ensures_bind, ensures_write]
  exact h _ (sublist_tail hs) hf

theorem leaveModule_then : Ensures (leaveModule previous >>= k) s Q R := by
  simp only [leaveModule, popRoot, setEnvironment, ensures_bind, ensures_write]
  exact h _ (sublist_tail hs) hf

end Leave

theorem restore_then (hs : (previous :: saved).Sublist s.roots)
    (hf : Fits F Base s.heap frames s.layout.flags.tail saved previous)
    (h : ∀ s' : Interp Chunk σ, saved.Sublist s'.roots → FramesFit F Base s'.layout frames saved →
      Ensures (k ()) s' Q R) :
    Ensures (popFast >>= fun _ => leaveBlock previous >>= k) s Q R := by
  exact popFast_then fun s' hh hr _ hfl =>
    leaveBlock_then (hr ▸ hs) (fits_popped hh hfl hf) h

/-- A loop exit leaves an activation for the frames below: by its own instruction, or passed on by
an `if` over a carried value. -/
inductive Exits : List (Frame ν) → Control σ ν → Activation → List (Frame ν) → Prop
  | own {frames a skip span} : a.current = some ⟨.loopExit skip, span⟩ →
      Exits frames (.execute a) a frames
  | passed {rest a flow patterns thenBranch elseBranch span} : flow = .stop ∨ flow = .skip →
      a.current = some ⟨.ifCarries patterns thenBranch elseBranch, span⟩ →
      Exits (.activation a :: rest) (.flow (.ok flow)) a rest

def ExitFits (F : List (Frame ν)) (Base : Env → Prop) (s : Interp Chunk σ) (a : Activation)
    (rest : List (Frame ν)) : Prop :=
  ∀ l (n : Nat) height outer saved, Verified a.chunk l → Reaches a.chunk a.instruction ⟨height, n⟩ →
    Ancestor s.heap (opened s.layout.flags n) s.environment outer →
    Fits F Base s.heap rest s.layout.flags saved outer → FramesFit F Base s.layout rest saved

theorem steps_resume (hs : saved.Sublist s.roots)
    (hfl : FlowFits F Base s.layout (.activation a :: frames) saved result)
    (hF : Frame.activation a :: frames ≠ F)
    (het : Exits (.activation a :: frames) (.flow result : Control σ ν) a frames →
      ExitFits F Base s a frames) :
    Steps F Base (resume a result frames) s := by
  obtain ⟨e, hf⟩ := FlowFits.fits hfl
  cases hf with
  | base => exact absurd rfl hF
  | activation hw hh _ hf =>
    have her : ∀ e, FlowFits F Base s.layout frames saved (.error e) := fun e =>
      ⟨⟨_, hf⟩, .inl hh.unwinds⟩
    unfold resume
    split
    next hc => exact absurd hw.current (by simp [hc])
    next op span hc =>
      split
      · exact ensures_leaveChunk hs (her _)
      · cases hfl with
        | base => exact absurd rfl hF
        | activation hw hh ha hf =>
          exact ⟨saved, hs, _, _, _, hw.verified, hh, hw.reaches, ha, hf⟩
      next value =>
        have hr : FlowFits F Base s.layout frames saved (.ok (.return value)) :=
          ⟨⟨_, hf⟩, .inl hh.unwinds⟩
        exact ensures_leaveChunk hs hr
      next flow hc' hr' =>
        have hst : flow = .stop ∨ flow = .skip := by
          cases flow with
          | «continue» v => exact absurd rfl (hc' v)
          | «return» v => exact absurd rfl (hr' v)
          | stop => exact .inl rfl
          | skip => exact .inr rfl
        have hp : AllowsExit (.activation a :: frames) ∧
            FramesFit F Base s.layout (.activation a :: frames) saved := by
          obtain rfl | rfl := hst <;> exact hfl
        split
        · have hl : FlowFits F Base s.layout frames saved (.ok flow) := by
            cases hp.2 with
            | base => exact absurd rfl hF
            | activation hw _ ha hf =>
              have hfit := het (.passed hst hc) _ _ _ _ _ hw.verified hw.before.choose_spec ha hf
              obtain rfl | rfl := hst <;> exact ⟨hp.1, hfit⟩
          exact ensures_leaveChunk hs hl
        · exact ensures_leaveChunk hs (her _)

theorem steps_resumeCall {count : Nat} (hs : saved.Sublist s.roots)
    (hfl : FlowFits F Base s.layout (.operands a count :: frames) saved result)
    (hF : Frame.operands a count :: frames ≠ F) :
    Steps F Base (resumeCall a count result frames) s := by
  obtain ⟨e, hf⟩ := FlowFits.fits hfl
  cases hf with
  | base => exact absurd rfl hF
  | operands hw hh _ hf =>
    have her : ∀ e, FlowFits F Base s.layout frames saved (.error e) := fun e =>
      ⟨⟨_, hf⟩, .inl hh.unwinds⟩
    have hgo : ∀ value, FramesFit F Base s.layout (.operands a count :: frames) saved → Steps F Base
          (goTo { a with stack := value :: a.stack.drop count } (a.instruction + 1) frames) s := by
      intro value hfit
      cases hfit with
      | base => exact absurd rfl hF
      | operands hw hh ha hf =>
        refine ensures_goTo (a := { a with stack := value :: a.stack.drop count }) hs
          ⟨hw.verified, hh, ?_, ha, hf⟩
        simpa using hw.reaches
    unfold resumeCall
    split
    · exact ensures_leaveChunk hs (her _)
    next value => exact hgo value hfl
    next value => exact hgo value (hfl.2.resolve_left id)
    · exact ensures_leaveChunk hs (her _)

theorem FramesFit.value (hf : FramesFit F Base L frames saved)
    {result : Except NivError (Value Chunk)} :
    FlowFits F Base L frames saved (result.map .continue) := by
  cases result with
  | ok value => exact hf
  | error e => exact ⟨⟨_, hf⟩, .inr hf⟩

section Return

variable {result : Except NivError (VmFlow Chunk)} {span : Span} {previous : Env}

theorem steps_returnTo_function {fast : Bool} (hs : (previous :: saved).Sublist s.roots)
    (hf : Fits F Base s.heap frames (if fast then s.layout.flags.tail else s.layout.flags) saved
      previous) :
    Steps F Base (returnTo host (.function name span previous fast) result frames) s := by
  have ha : ∀ s' : Interp Chunk σ, s'.heap = s.heap → s'.environment = previous →
      s'.layout.flags = (if fast then s.layout.flags.tail else s.layout.flags) →
      FramesFit F Base s'.layout frames saved := by
    intro s' hh hen hfl
    rw [FramesFit, hfl]
    change Fits F Base s'.heap _ _ _ s'.environment
    rw [hh, hen]
    exact hf
  simp only [returnTo, leaveFunction, popRoot, setEnvironment, Steps, ensures_bind, ensures_write]
  cases fast
  all_goals
    simp only [Bool.false_eq_true, if_false, if_true, popFast, endCall, ensures_write, ensures_pure]
    split
    · exact ⟨saved, sublist_tail hs, ha _ rfl rfl (by simp [Interp.layout])⟩
    · refine ⟨saved, sublist_tail hs, ⟨previous, ?_⟩, .inr ?_⟩ <;>
        exact ha _ rfl rfl (by simp [Interp.layout])

theorem FramesFit.passOn (hf : FramesFit F Base L frames saved)
    (het : ∀ flow, result = .ok flow → flow = .stop ∨ flow = .skip → AllowsExit frames) :
    FlowFits F Base L frames saved result := by
  match result with
  | .ok (.continue _) => exact hf
  | .ok .stop => exact ⟨het _ rfl (.inl rfl), hf⟩
  | .ok .skip => exact ⟨het _ rfl (.inr rfl), hf⟩
  | .ok (.return _) | .error _ => exact ⟨⟨_, hf⟩, .inr hf⟩

theorem steps_returnTo_native {purpose : Purpose} {state : ν} (hs : saved.Sublist s.roots)
    (hp : PurposeFits purpose) (hf : FramesFit F Base s.layout frames saved) :
    Steps F Base (returnTo host (.native purpose state) result frames) s := by
  simp only [returnTo, Steps, ensures_bind, ensures_read, ensures_pure]
  exact ⟨saved, hs, hp, hf⟩

theorem settles_finishUsing {resource : Value Chunk} :
    Settles s (finishUsing host resource span result)
      fun flow s' => s.layout.Keeps s'.layout ∧ result = .ok flow := by
  have hta : ∀ closed : Except NivError Unit, Settles s (do
        let flow ← VM.liftError result
        VM.liftError closed
        return flow) fun flow s' => s.layout.Keeps s'.layout ∧ result = .ok flow := by
    intro closed s' hk
    cases result with
    | error e => exact ⟨by simp, hk⟩
    | ok flow =>
      cases closed with
      | error e => exact ⟨by simp, hk⟩
      | ok _ => exact ⟨hk, rfl⟩
  unfold finishUsing
  dsimp only
  split
  · exact .calm fun world => .calm fun _ => hta _
  · exact hta _

section Restore

variable (hs : (previous :: saved).Sublist s.roots)
  (hf : Fits F Base s.heap frames s.layout.flags.tail saved previous)
include hs hf

theorem steps_returnTo_guard {subject : Value Chunk} {arm : BytecodeArm}
    {others : List BytecodeArm} (harm : ArmFits arm)
    (hot : ∀ arm ∈ others, ArmFits arm) :
    Steps F Base (returnTo host (.guard subject arm others span previous) result frames) s := by
  simp only [returnTo]
  refine popFast_then fun s' hh hr _ hfl => ?_
  have hs' := hr ▸ hs
  have hf' := fits_popped hh hfl hf
  split
  next decision =>
    refine Calm.ensures_attempt_bind fun answer s'' hk => ?_
    have hs'' := sublist_keeps hk hs'
    have hf'' := hk.fits hf'
    split
    · refine ensures_enterNested harm.body ⟨nofun, ?_⟩ hs'' (.arm hf'')
      trivial
    · exact leaveBlock_then hs'' hf'' fun _ hs hf => ⟨saved, hs, hot, hf⟩
    · exact leaveBlock_then hs'' hf'' fun _ hs hf => nextFits_error .refl hs hf
  · exact leaveBlock_then hs' hf' fun _ hs hf => nextFits_return .refl hs hf
  · exact leaveBlock_then hs' hf' fun _ hs hf => nextFits_error .refl hs hf
  · exact leaveBlock_then hs' hf' fun _ hs hf => nextFits_error .refl hs hf

theorem steps_returnTo_iteration {values : List (Value Chunk)} (hl : Verified loop.body true) :
    Steps F Base (returnTo host (.iteration loop values last previous) result frames) s := by
  simp only [returnTo]
  refine restore_then hs hf fun s' hs hf => ?_
  split
  · exact ⟨saved, hs, hl, hf⟩
  · exact nextFits_return .refl hs hf
  · exact ⟨saved, hs, hf⟩
  · exact ⟨saved, hs, hl, hf⟩
  · exact nextFits_error .refl hs hf

theorem steps_returnTo_arm
    (hfl : ∀ flow, result = .ok flow → flow = .stop ∨ flow = .skip → False) :
    Steps F Base (returnTo host (.arm previous) result frames) s := by
  simp only [returnTo]
  exact restore_then hs hf fun s' hs hf =>
    ⟨saved, hs, FramesFit.passOn hf fun flow h h' => (hfl flow h h').elim⟩

theorem steps_returnTo_carriesThen
    (het : ∀ flow, result = .ok flow → flow = .stop ∨ flow = .skip → AllowsExit frames) :
    Steps F Base (returnTo host (.carriesThen previous) result frames) s := by
  simp only [returnTo]
  exact restore_then hs hf fun s' hs hf => ⟨saved, hs, FramesFit.passOn hf het⟩

theorem steps_returnTo_module {exports : List String} {moduleScope : Env} :
    Steps F Base (returnTo host (.module name exports span previous moduleScope) result frames)
      s := by
  simp only [returnTo]
  refine popFast_then fun s₁ hh hr _ hfl => ?_
  refine leaveModule_then (hr ▸ hs) (fits_popped hh hfl hf) fun s₂ hs hf => ?_
  refine Calm.ensures_attempt_bind fun result s₃ hk => ?_
  exact ⟨saved, sublist_keeps hk hs, FramesFit.value (hk.framesFit hf)⟩

theorem steps_returnTo_sample {title : String} {shows : Option String} :
    Steps F Base (returnTo host (.sample title shows span previous) result frames) s := by
  simp only [returnTo]
  refine restore_then hs hf fun s₁ hs hf => ?_
  refine Calm.ensures_attempt_bind fun result s₂ hk => ?_
  cases result with
  | ok value => exact nextFits_continue hk hs hf
  | error e => exact nextFits_error hk hs hf

theorem steps_returnTo_using {resource : Value Chunk}
    (hfl : ∀ flow, result = .ok flow → flow = .stop ∨ flow = .skip → False) :
    Steps F Base (returnTo host (.using resource span previous) result frames) s := by
  simp only [returnTo]
  refine restore_then hs hf fun s₁ hs hf => ?_
  refine settles_finishUsing.attempt_bind (fun flow s₂ h => ?_) fun e s₂ hk =>
    nextFits_error hk hs hf
  obtain ⟨hk, rfl⟩ := h
  exact ⟨saved, sublist_keeps hk hs, FramesFit.passOn (hk.framesFit hf) fun flow h h' =>
    (hfl flow h h').elim⟩

end Restore

theorem steps_returnTo_advance {implementation : Value Chunk} {items : List (Value Chunk)}
    (hs : saved.Sublist s.roots) (hl : Verified loop.body true)
    (hf : FramesFit F Base s.layout frames saved) :
    Steps F Base (returnTo host (.advance implementation items loop) result frames) s := by
  simp only [returnTo]
  refine Settles.attempt_bind (.calm fun step => ?_) (fun _ _ h => h) fun e s' hk =>
    nextFits_error hk hs hf
  unfold advanceResult
  split
  · exact fun s' hk => ⟨saved, sublist_keeps hk hs, hl, hk.framesFit hf⟩
  · split
    · split
      · exact .raise
      · exact fun s' hk => ⟨saved, sublist_keeps hk hs, hl, hk.framesFit hf⟩
    · exact .raise
  · exact .raise

section Repeat

variable {condition body : Chunk} {last : Value Chunk} (hs : saved.Sublist s.roots)
  (hc : Verified condition false) (hb : Verified body true) (hu : Unwinds frames)
include hs hc hb hu

theorem steps_returnTo_repeatCondition
    (hfl : FlowFits F Base s.layout (.repeatCondition condition body last span :: frames) saved
      result)
    (hinv : ∀ e, Fits F Base s.heap (.repeatCondition condition body last span :: frames)
      s.layout.flags saved e → Fits F Base s.heap frames s.layout.flags.tail saved e) :
    Steps F Base (returnTo host (.repeatCondition condition body last span) result frames) s := by
  simp only [returnTo]
  refine popFast_then fun s' hh hro hen hfg => ?_
  have hs' := hro ▸ hs
  have hec := fun h => framesFit_popped hh hen hfg (hinv s.environment h)
  split
  · refine Calm.ensures_attempt_bind fun answer s'' hk => ?_
    have hs'' := sublist_keeps hk hs'
    have hf'' := hk.framesFit (hec hfl)
    split
    · refine ensures_enterNested hb ⟨fun _ => ?_, ?_⟩ hs'' (.repeatBody hc hb hu hf'')
      · trivial
      · exact hu
    · exact nextFits_continue .refl hs'' hf''
    · exact nextFits_error .refl hs'' hf''
  · exact ⟨saved, hs', hfl.1.imp fun e h => fits_popped hh hfg (hinv e h), .inl hu⟩
  next flow hco hr =>
    cases flow with
    | «continue» value => exact absurd rfl (hco value)
    | «return» value => exact absurd rfl (hr value)
    | stop => exact hfl.1.elim
    | skip => exact hfl.1.elim
  · exact ⟨saved, hs', hfl.1.imp fun e h => fits_popped hh hfg (hinv e h), .inl hu⟩

theorem steps_returnTo_repeatBody
    (hfl : FlowFits F Base s.layout (.repeatBody condition body last span :: frames) saved result)
    (hinv : ∀ e, Fits F Base s.heap (.repeatBody condition body last span :: frames)
      s.layout.flags saved e → Fits F Base s.heap frames s.layout.flags.tail saved e) :
    Steps F Base (returnTo host (.repeatBody condition body last span) result frames) s := by
  simp only [returnTo]
  refine popFast_then fun s' hh hr hen hfg => ?_
  have hs' := hr ▸ hs
  have hec := fun h => framesFit_popped hh hen hfg (hinv s.environment h)
  split
  · exact ⟨saved, hs', hc, hb, hu, hec hfl⟩
  · exact ⟨saved, hs', hfl.1.imp fun e h => fits_popped hh hfg (hinv e h), .inl hu⟩
  · exact nextFits_continue .refl hs' (hec hfl.2)
  · exact ⟨saved, hs', hc, hb, hu, hec hfl.2⟩
  · exact ⟨saved, hs', hfl.1.imp fun e h => fits_popped hh hfg (hinv e h), .inl hu⟩

end Repeat

theorem steps_returnTo_carriesElse (hs : saved.Sublist s.roots)
    (hfw : FlowFits F Base s.layout (.carriesElse :: frames) saved result)
    (hinv : ∀ e, Fits F Base s.heap (.carriesElse :: frames) s.layout.flags saved e →
      Fits F Base s.heap frames s.layout.flags.tail saved e) :
    Steps F Base (returnTo host .carriesElse result frames) s := by
  simp only [returnTo]
  refine popFast_then fun s' hh hr hen hfl => ⟨saved, hr ▸ hs, ?_⟩
  have hec := fun h => framesFit_popped hh hen hfl (hinv s.environment h)
  match result, hfw with
  | .ok (.continue _), h => exact hec h
  | .ok .stop, h | .ok .skip, h => exact ⟨h.1, hec h.2⟩
  | .ok (.return _), h | .error _, h =>
    exact ⟨h.1.imp fun e h => fits_popped hh hfl (hinv e h), h.2.imp id hec⟩

theorem FlowFits.not_exit (h : FlowFits F Base L frames saved result)
    (hn : ¬ AllowsExit frames) (flow : VmFlow Chunk) (hr : result = .ok flow)
    (het : flow = .stop ∨ flow = .skip) : False := by
  subst hr
  obtain rfl | rfl := het
  · exact hn h.1
  · exact hn h.1

theorem steps_returnTo {frame : Frame ν} (hs : saved.Sublist s.roots)
    (hfl : FlowFits F Base s.layout (frame :: frames) saved result)
    (hF : frame :: frames ≠ F)
    (het : ∀ a, frame = .activation a →
      Exits (.activation a :: frames) (.flow result : Control σ ν) a frames →
      ExitFits F Base s a frames) :
    Steps F Base (returnTo host frame result frames) s := by
  have hfit := FlowFits.fits hfl
  obtain ⟨e, hfit⟩ := hfit
  -- frames that no error or `give` passes take only results that come from the expected scope
  have hec : ¬ Unwinds (frame :: frames) → FramesFit F Base s.layout (frame :: frames) saved := by
    intro hu
    match result, hfl with
    | .ok (.continue _), h => exact h
    | .ok .stop, h | .ok .skip, h => exact h.2
    | .ok (.return _), h | .error _, h => exact h.2.resolve_left hu
  cases hfit with
  | base => exact absurd rfl hF
  | activation => exact steps_resume hs hfl hF (het _ rfl)
  | operands => exact steps_resumeCall hs hfl hF
  | function hf => exact steps_returnTo_function hs hf
  | native hp =>
    cases hec id with
    | base => exact absurd rfl hF
    | native _ hf => exact steps_returnTo_native hs hp hf
  | guard harm hot hf => exact steps_returnTo_guard hs hf harm hot
  | arm hf => exact steps_returnTo_arm hs hf (FlowFits.not_exit hfl id)
  | module hf => exact steps_returnTo_module hs hf
  | advance hl =>
    cases hec id with
    | base => exact absurd rfl hF
    | advance _ hf => exact steps_returnTo_advance hs hl hf
  | iteration hl hf => exact steps_returnTo_iteration hs hf hl
  | repeatCondition hc hb hu =>
    refine steps_returnTo_repeatCondition hs hc hb hu hfl fun e h => ?_
    cases h with
    | base => exact absurd rfl hF
    | repeatCondition _ _ _ hf => exact hf
  | repeatBody hc hb hu =>
    refine steps_returnTo_repeatBody hs hc hb hu hfl fun e h => ?_
    cases h with
    | base => exact absurd rfl hF
    | repeatBody _ _ _ hf => exact hf
  | carriesThen hf =>
    refine steps_returnTo_carriesThen hs hf fun flow hr h => ?_
    by_contra hn
    exact FlowFits.not_exit hfl hn flow hr h
  | carriesElse =>
    refine steps_returnTo_carriesElse hs hfl fun e h => ?_
    cases h with
    | base => exact absurd rfl hF
    | carriesElse hf => exact hf
  | sample hf => exact steps_returnTo_sample hs hf
  | «using» hf => exact steps_returnTo_using hs hf (FlowFits.not_exit hfl id)

end Return

theorem steps_collect {next : Nat} {memory : Bool}
    {trigger : Option MarkerReport} (hs : saved.Sublist s.roots)
    (ha : ActivationFits F Base s.layout frames saved a next) :
    Steps F Base (do
      maybeCollect host trigger a.stack
      return (frames, .settle a next memory)) s := by
  refine (ensures_maybeCollect _ _ _ _).bind fun _ s' hc => ?_
  obtain ⟨l, n, outer, hr⟩ := ha
  -- the current scope and the saved ones are roots of the collector
  have hro : ∀ e, e = s.environment ∨ e ∈ s.roots → Live host s a.stack e := fun e he =>
    .root _ (by rcases he with rfl | he <;> simp [collectorRoots, *])
  have hl : ∀ e p, Live host s a.stack e → (s.heap.get e).parent = some p →
      (s'.heap.get e).parent = some p ∧ Live host s a.stack p := fun e p he hp =>
    ⟨by rw [hc.sweeps.kept e he, hp], Led.parent host s.world he hp⟩
  obtain ⟨hsc, hou⟩ := hr.scope.mono hl (hro _ (.inl rfl))
  have hfi := hr.fits.mono hl hou fun e he => hro e (.inr (hs.subset he))
  have hfl : s'.layout.flags = s.layout.flags := by rw [hc.rest]; rfl
  refine ⟨saved, ?_, l, n, outer, hr.verified, hr.hosts, hr.reaches, ?_, ?_⟩
  · rw [hc.rest]
    exact hs
  · rw [hfl, show s'.layout.environment = s.environment by rw [hc.rest]; rfl]
    exact hsc
  · rw [hfl]
    exact hfi

theorem steps_step {input : Input} {control : Control σ ν} (h : NextFits F Base s (frames, control))
    (hF : ∀ result, control = .flow result → frames = F → F = [])
    (hv : ∀ f arguments span, control = .call (.function f) arguments span → Verified f.body false)
    (het : ∀ a rest, Exits frames control a rest → ExitFits F Base s a rest) :
    Steps F Base (step host input frames control) s := by
  obtain ⟨saved, hs, h⟩ := h
  unfold step
  cases control with
  | execute a =>
    obtain ⟨l, n, outer, hr⟩ := h
    exact steps_executeStep hs hr fun skip span hc =>
      het a frames (.own hc) l n _ outer saved hr.verified hr.reaches hr.scope hr.fits
  | collect a next memory => exact steps_collect hs h
  | settle a next memory =>
    obtain ⟨l, n, outer, hr⟩ := h
    exact steps_settleStep hs hr
  | flow result =>
    cases frames with
    | nil => exact ⟨saved, hs, h⟩
    | cons frame rest =>
      exact steps_returnTo hs h (fun hf => nomatch hf.trans (hF result rfl hf)) fun a hfr =>
        hfr ▸ het a rest
  | call callee arguments span =>
    exact steps_reporting hs h (reports_call hs h fun f hf => hv f arguments span (by rw [hf]))
  | native purpose step => exact steps_reporting hs h.2 (reports_nativeStep hs h.2 h.1)
  | compiled name span state => exact steps_compiledStep hs h
  | choose subject arms span => exact steps_reporting hs h.2 (reports_chooseStep hs h.2 h.1)
  | iterate loop values last => exact steps_iterateStep hs h.2 h.1
  | advance implementation state items loop => exact ⟨saved, hs, .advance h.1 h.2⟩
  | «repeat» condition body last span => exact steps_repeat hs h.2.2.2 h.1 h.2.1 h.2.2.1
  | panic => exact h.elim

end VM

end Nivren
