import Nivren.Fits

/-! Verified code runs safely.

`Sound` ties the state of a machine to what the verifier has established, and every step keeps it. A
sound machine never panics, so no instruction of verified code pops an empty stack, leaves a scope
that has no parent or falls into an unreachable arm.
-/

namespace Nivren

open Program

variable {σ ν : Type} {F frames : List (Frame ν)} {Base : Env → Prop} {L L' : Layout}
  {saved : List Env}

section Definitions

variable (F : List (Frame ν)) (Base : Env → Prop) (L : Layout) (frames : List (Frame ν))
  (saved : List Env)

abbrev FramesFit : Prop := Fits F Base L.heap frames L.flags saved L.environment

/-- A chunk is about to run the instruction at `index` with `height` operands, as the verifier has
recorded. -/
structure Running (chunk : Chunk) (inLoop : Bool) (index height n : Nat) (outer : Env) : Prop where
  verified : Verified chunk inLoop
  hosts : Hosts inLoop frames
  reaches : Reaches chunk index ⟨height, n⟩
  scope : Ancestor L.heap (opened L.flags n) L.environment outer
  fits : Fits F Base L.heap frames L.flags saved outer

def ActivationFits (a : Activation) (index : Nat) : Prop :=
  ∃ l n outer, Running F Base L frames saved a.chunk l index a.stack.length n outer

def FlowFits : Except NivError (VmFlow Chunk) → Prop
  | .ok (.continue _) => FramesFit F Base L frames saved
  | .ok .stop | .ok .skip => AllowsExit frames ∧ FramesFit F Base L frames saved
  | .ok (.return _) | .error _ => (∃ e, Fits F Base L.heap frames L.flags saved e) ∧
      (Unwinds frames ∨ FramesFit F Base L frames saved)

def ControlFits : Control σ ν → Prop
  | .execute a => ActivationFits F Base L frames saved a a.instruction
  | .collect a next _ | .settle a next _ => ActivationFits F Base L frames saved a next
  | .flow result => FlowFits F Base L frames saved result
  | .call .. | .compiled .. => FramesFit F Base L frames saved
  | .native purpose _ => PurposeFits purpose ∧ FramesFit F Base L frames saved
  | .choose _ arms _ => (∀ arm ∈ arms, ArmFits arm) ∧ FramesFit F Base L frames saved
  | .iterate loop _ _ | .advance _ _ _ loop =>
    Verified loop.body true ∧ FramesFit F Base L frames saved
  | .repeat condition body _ _ => Verified condition false ∧ Verified body true ∧
      Unwinds frames ∧ FramesFit F Base L frames saved
  | .panic => False

end Definitions

def NextFits (F : List (Frame ν)) (Base : Env → Prop) (s : Interp Chunk σ) (next : Next σ ν) :
    Prop :=
  ∃ saved, saved.Sublist s.roots ∧ ControlFits F Base s.layout next.1 saved next.2

def Sound (F : List (Frame ν)) (Base : Env → Prop) (m : Machine σ ν) : Prop :=
  NextFits F Base m.interp (m.frames, m.control)

variable {chunk : Chunk} {outer : Env} {l : Bool} {height index n : Nat} {e : Env}

namespace Layout.Keeps

variable (hk : L.Keeps L')
include hk

theorem parents (e p : Env) (_ : True) (hp : (L.heap.get e).parent = some p) :
    (L'.heap.get e).parent = some p ∧ True :=
  ⟨hk.parent e p hp, trivial⟩

theorem fits (hf : Fits F Base L.heap frames L.flags saved e) :
    Fits F Base L'.heap frames L'.flags saved e := by
  rw [hk.flags]
  exact hf.mono (K := fun _ => True) hk.parents trivial fun _ _ => trivial

theorem framesFit (hf : FramesFit F Base L frames saved) : FramesFit F Base L' frames saved := by
  rw [FramesFit, hk.environment]
  exact hk.fits hf

theorem running (hr : Running F Base L frames saved chunk l index height n outer) :
    Running F Base L' frames saved chunk l index height n outer where
  verified := hr.verified
  hosts := hr.hosts
  reaches := hr.reaches
  scope := by
    rw [hk.flags, hk.environment]
    exact (hr.scope.mono (K := fun _ => True) hk.parents trivial).1
  fits := hk.fits hr.fits

end Layout.Keeps

/-- The root list may hold more than the frames have saved; dropping its head never drops what the
outer frames need. -/
theorem sublist_tail {saved roots : List Env} (h : (e :: saved).Sublist roots) :
    saved.Sublist roots.tail := by
  cases h with
  | cons _ h => exact (List.sublist_cons_self e saved).trans h
  | cons_cons _ h => exact h

variable {s' : Interp Chunk σ}

theorem sublist_keeps {s : Interp Chunk σ} (hk : s.layout.Keeps s'.layout)
    (hs : saved.Sublist s.roots) : saved.Sublist s'.roots := by
  rwa [show s'.roots = s.roots from hk.roots]

theorem Running.error
    (hr : Running F Base L frames saved chunk l index height n outer) (e : NivError) :
    FlowFits F Base L frames saved (.error e) :=
  ⟨⟨outer, hr.fits⟩, .inl hr.hosts.unwinds⟩

theorem Running.return
    (hr : Running F Base L frames saved chunk l index height n outer) (value : Value Chunk) :
    FlowFits F Base L frames saved (.ok (.return value)) :=
  ⟨⟨outer, hr.fits⟩, .inl hr.hosts.unwinds⟩

namespace VM

variable {α β : Type} {s : Interp Chunk σ}
  {R : Failure → Interp Chunk σ → Prop} {Q : β → Interp Chunk σ → Prop} {m : VM Chunk σ α}

variable {f : α → VM Chunk σ β}

theorem ensures_enterChunk (hv : Verified chunk l) (hh : Hosts l frames)
    (hs : saved.Sublist s.roots) (hf : FramesFit F Base s.layout frames saved) :
    Ensures (enterChunk chunk frames) s (fun next s' => NextFits F Base s' next) R := by
  unfold enterChunk nativeMode promiseMark
  simp only [Program.ensures_bind, ensures_read]
  split
  · exact ⟨saved, hs, ⟨_, hf⟩, .inr hf⟩
  · refine ⟨saved, hs, l, 0, s.environment, hv, hh, hv.reaches_zero, ?_, hf⟩
    rw [opened_zero]
    rfl

theorem ensures_enterNested (hv : Verified chunk l)
    (hh : Hosts l frames) (hs : saved.Sublist s.roots)
    (hf : Fits F Base s.heap frames (false :: s.layout.flags) saved s.environment) :
    Ensures (enterNested chunk frames) s (fun next s' => NextFits F Base s' next) R := by
  unfold enterNested pushFast
  simp only [Program.ensures_bind, ensures_write]
  exact ensures_enterChunk (s := { s with fastFrames := FastFrame.mask :: s.fastFrames }) hv hh hs
    hf

variable {a : Activation}

theorem ensures_leaveChunk {result : Except NivError (VmFlow Chunk)}
    (hs : saved.Sublist s.roots) (hf : FlowFits F Base s.layout frames saved result) :
    Ensures (leaveChunk a frames result) s (fun next s' => NextFits F Base s' next) R := by
  unfold leaveChunk nativeMode truncatePromises
  simp only [Program.ensures_bind, ensures_read]
  split
  · simp only [Program.ensures_bind, ensures_write, ensures_pure]
    exact ⟨saved, hs, hf⟩
  · exact ⟨saved, hs, hf⟩

theorem ensures_goTo {next : Nat} (hs : saved.Sublist s.roots)
    (hr : Running F Base s.layout frames saved a.chunk l next a.stack.length n outer) :
    Ensures (goTo a next frames) s (fun next s' => NextFits F Base s' next) R := by
  unfold goTo nativeMode
  simp only [Program.ensures_bind, ensures_read]
  split
  · exact ensures_leaveChunk hs (hr.error _)
  · exact ⟨saved, hs, l, n, outer, hr⟩

theorem ensures_finishChunk (hs : saved.Sublist s.roots) (hc : a.current = none)
    (hr : Running F Base s.layout frames saved a.chunk l a.instruction a.stack.length n outer) :
    Ensures (finishChunk a frames) s (fun next s' => NextFits F Base s' next) R := by
  have hn : n = 0 := by simpa using (hr.verified.reaches_end hr.reaches hc).2
  subst hn
  have hfit : FramesFit F Base s.layout frames saved := by
    have hsc := hr.scope
    rw [opened_zero] at hsc
    cases hsc
    exact hr.fits
  unfold finishChunk nativeMode truncatePromises isCancelled
  simp only [Program.ensures_bind, ensures_read]
  split
  · exact ⟨saved, hs, hfit⟩
  · simp only [Program.ensures_bind, ensures_write, ensures_read]
    split
    · exact ⟨saved, hs, ⟨_, hfit⟩, .inr hfit⟩
    · exact ⟨saved, hs, hfit⟩

/-- A nested scope has been entered and the old one saved. -/
structure Entered (s s' : Interp Chunk σ) : Prop where
  flags : s'.layout.flags = s.layout.flags
  roots : s'.roots = s.environment :: s.roots
  parent : ∀ e p, (s.heap.get e).parent = some p → (s'.heap.get e).parent = some p

theorem parent_child {h : Heap Chunk} {parent p : Env} (hp : (h.get e).parent = some p) :
    ((h.child parent).2.get e).parent = some p := by
  rw [Heap.get_child]
  split
  next he =>
    -- the new scope did not exist before, so it had no parent
    subst he
    have hn : ¬ h.Holds (h.child parent).1 := Nat.lt_irrefl _
    rw [Heap.get_of_not_holds hn] at hp
    cases hp
  · exact hp

theorem parent_insertAll {h : Heap Chunk} {bindings : List (String × Binding Chunk)} {e' p : Env}
    (hp : (h.get e').parent = some p) : ((h.insertAll e bindings).get e').parent = some p :=
  Heap.insertAll_induction (P := fun h => (h.get e').parent = some p)
    (fun h entry _ ih => by simpa using ih) hp

theorem ensures_enterBlock {bindings : List (String × Value Chunk)} :
    Ensures (enterBlock bindings) s
      (fun previous s' => previous = s.environment ∧ Entered s s') R := by
  unfold enterBlock VM.environment pushRoot childScope bindAll setEnvironment
  simp only [Program.ensures_bind, ensures_read, ensures_write, ensures_pure]
  exact ⟨trivial, rfl, rfl, fun e p hp => parent_insertAll (parent_child hp)⟩

theorem ensures_enterModule {name : String} : Ensures (enterModule name) s
      (fun entered s' => entered.1 = s.environment ∧ Entered s s') R := by
  unfold enterModule VM.environment pushRoot childScope setEnvironment
  simp only [Program.ensures_bind, ensures_read, ensures_write, ensures_pure]
  exact ⟨trivial, rfl, rfl, fun e p hp => parent_child hp⟩

theorem Entered.fits (he : Entered s s') (hf : Fits F Base s.heap frames s.layout.flags saved e) :
    Fits F Base s'.heap frames s'.layout.flags saved e := by
  rw [he.flags]
  exact hf.mono (K := fun _ => True) (fun e p _ hp => ⟨he.parent e p hp, trivial⟩) trivial
    fun _ _ => trivial

theorem Entered.sublist (he : Entered s s') (hs : saved.Sublist s.roots) :
    (s.environment :: saved).Sublist s'.roots := by
  rw [he.roots]
  exact hs.cons_cons _

theorem ensures_planActive {Q : Bool → Interp Chunk σ → Prop} :
    Ensures planActive s Q R ↔ Q (decide (s.layout.flags.head? = some true)) s := by
  unfold planActive topFrame
  simp only [Program.ensures_bind, ensures_read, ensures_pure]
  have h : (s.fastFrames.head?.any fun frame => frame.plan.isSome) =
      decide (s.layout.flags.head? = some true) := by
    cases hf : s.fastFrames with
    | nil => simp [Interp.layout, hf]
    | cons frame rest => simp [Interp.layout, hf]
  rw [h]

section Blocks

variable {chunk : Chunk} {l : Bool} {index height n : Nat} {outer : Env}

abbrev ScopeFits (F : List (Frame ν)) (Base : Env → Prop) (L : Layout) (frames : List (Frame ν))
    (saved : List Env) (n : Nat) (outer : Env) : Prop :=
  Ancestor L.heap (opened L.flags n) L.environment outer ∧
    Fits F Base L.heap frames L.flags saved outer

theorem ensures_enterScope (hs : saved.Sublist s.roots)
    (hf : ScopeFits F Base s.layout frames saved n outer) :
    Ensures enterScope s (fun _ s' => saved.Sublist s'.roots ∧
      ScopeFits F Base s'.layout frames saved (n + 1) outer) R := by
  unfold enterScope VM.environment childScope setEnvironment
  simp only [Program.ensures_bind, ensures_planActive]
  by_cases hp : s.layout.flags.head? = some true
  · simp only [hp, decide_true, Bool.not_true, Bool.false_eq_true, if_false, ensures_pure]
    refine ⟨hs, ?_, hf.2⟩
    have ha := hf.1
    simp only [opened, hp, if_true] at ha ⊢
    exact ha
  · simp only [hp, decide_false, Bool.not_false, if_true, Program.ensures_bind, ensures_read,
      ensures_write, ensures_pure]
    have ha := hf.1
    simp only [opened, hp, if_false] at ha
    refine ⟨hs, ?_, ?_⟩
    · have hop : opened s.layout.flags (n + 1) = n + 1 := by simp [opened, hp]
      change Ancestor _ (opened s.layout.flags (n + 1)) _ _
      rw [hop]
      refine ⟨s.environment, ?_, (ha.mono (K := fun _ => True) (fun e p _ hp =>
        ⟨parent_child hp, trivial⟩) trivial).1⟩
      change ((s.heap.child s.environment).2.get (s.heap.child s.environment).1).parent = _
      rw [Heap.get_child, if_pos rfl]
    · exact hf.2.mono (K := fun _ => True) (fun e p _ hp => ⟨parent_child hp, trivial⟩) trivial
        fun _ _ => trivial

theorem ensures_exitScope (hs : saved.Sublist s.roots)
    (hf : ScopeFits F Base s.layout frames saved (n + 1) outer) :
    Ensures exitScope s (fun _ s' => saved.Sublist s'.roots ∧
      ScopeFits F Base s'.layout frames saved n outer) R := by
  unfold exitScope setEnvironment
  simp only [Program.ensures_bind, ensures_planActive]
  have ha := hf.1
  by_cases hp : s.layout.flags.head? = some true
  · simp only [hp, decide_true, Bool.not_true, Bool.false_eq_true, if_false, ensures_pure]
    refine ⟨hs, ?_, hf.2⟩
    simp only [opened, hp, if_true] at ha ⊢
    exact ha
  · simp only [opened, hp, if_false] at ha
    obtain ⟨p, hpa, ha⟩ := ha
    replace hpa : (s.heap.get s.environment).parent = some p := hpa
    simp only [hp, decide_false, Bool.not_false, if_true, Program.ensures_bind, ensures_read,
      hpa, ensures_write]
    refine ⟨hs, ?_, hf.2⟩
    change Ancestor _ (opened s.layout.flags n) _ _
    simp only [opened, hp, if_false]
    exact ha

end Blocks

/-- What an instruction of a running chunk leads to. -/
def OpFits (F : List (Frame ν)) (Base : Env → Prop) (frames : List (Frame ν)) (a : Activation)
    (l : Bool) (s : Interp Chunk σ) : OpResult σ ν → Prop
  | .next stack index _ => ∃ saved, saved.Sublist s.roots ∧ ∃ n outer,
      Running F Base s.layout frames saved a.chunk l index stack.length n outer
  | .onward stack => ∃ saved, saved.Sublist s.roots ∧ ∃ n outer,
      Running F Base s.layout frames saved a.chunk l (a.instruction + 1) stack.length n outer
  | .leave flow => ∃ saved, saved.Sublist s.roots ∧ FlowFits F Base s.layout frames saved (.ok flow)
  | .enter next => NextFits F Base s next

abbrev Fails (s : Interp Chunk σ) (failure : Failure) (s' : Interp Chunk σ) : Prop :=
  failure ≠ .panic ∧ s.layout.Keeps s'.layout

/-- Wherever the layout is as in `s`, the program meets `Q` or fails with the layout kept. -/
def Settles (s : Interp Chunk σ) (m : VM Chunk σ α) (Q : α → Interp Chunk σ → Prop) : Prop :=
  ∀ s', s.layout.Keeps s'.layout → Ensures m s' Q (Fails s)

theorem Calm.settles (hm : Calm m) : Settles s m fun _ s' => s.layout.Keeps s'.layout :=
  fun s' hk => (hm.calm s').mono (fun _ _ h => hk.trans h) fun _ _ h => ⟨h.1, hk.trans h.2⟩

theorem Settles.calm [h : Calm m] (hf : ∀ a, Settles s (f a) Q) : Settles s (m >>= f) Q := by
  intro s' hk
  exact (h.settles s' hk).bind fun a s'' h => hf a s'' h

theorem Settles.attempt_bind {P : α → Interp Chunk σ → Prop}
    {f : Except NivError α → VM Chunk σ β} (h : Settles s m P)
    (ho : ∀ a s', P a s' → Ensures (f (.ok a)) s' Q R)
    (he : ∀ e s', s.layout.Keeps s'.layout → Ensures (f (.error e)) s' Q R) :
    Ensures (VM.attempt m >>= f) s Q R := by
  rw [Program.ensures_bind, ensures_attempt]
  refine (h s .refl).mono ho fun failure s' h => ?_
  cases failure with
  | error e => exact he e s' h.2
  | panic => exact absurd rfl h.1

theorem Calm.ensures_attempt_bind [hm : Calm m] {f : Except NivError α → VM Chunk σ β}
    (hf : ∀ a s', s.layout.Keeps s'.layout → Ensures (f a) s' Q R) :
    Ensures (VM.attempt m >>= f) s Q R :=
  hm.settles.attempt_bind (fun a => hf (.ok a)) fun e => hf (.error e)

variable {span : Span}

theorem Settles.raise {message : String} {Q : α → Interp Chunk σ → Prop} :
    Settles s (VM.raise message span) Q := fun _ hk => ⟨by simp, hk⟩

theorem ensures_callOp {count : Nat}
    (hlen : count + 1 ≤ a.stack.length) (hs : saved.Sublist s.roots)
    (hc : FramesFit F Base s.layout (.operands a (count + 1) :: frames) saved)
    (hw : FramesFit F Base s.layout
      (.activation { a with stack := a.stack.drop (count + 1) } :: frames) saved) :
    Ensures (callOp a count span frames) s (fun r s' => OpFits F Base frames a l s' r) R := by
  have hd : ∃ callee, a.stack.drop count = callee :: a.stack.drop (count + 1) :=
    ⟨_, List.drop_eq_getElem_cons (by omega)⟩
  obtain ⟨callee, hd⟩ := hd
  unfold callOp splitOff
  rw [if_neg (by omega)]
  simp only [pop, hd, pure_bind]
  split
  · exact ⟨saved, hs, hc⟩
  · exact ⟨saved, hs, hw⟩

variable {host : Host Chunk σ ν}

theorem settles_startIteration {loop : Loop} {iterable : Value Chunk}
    (hl : Verified loop.body true)
    (hf : ∀ s' : Interp Chunk σ, s.layout.Keeps s'.layout →
      FramesFit F Base s'.layout frames saved) :
    Settles s (startIteration host loop iterable) fun control s' => s.layout.Keeps s'.layout ∧
      ControlFits F Base s'.layout frames saved control := by
  unfold startIteration
  split
  · exact fun s' hk => ⟨hk, hl, hf s' hk⟩
  · exact fun s' hk => ⟨hk, hl, hf s' hk⟩
  · exact .calm fun world s' hk => ⟨hk, hl, hf s' hk⟩
  · refine .calm fun found => ?_
    split
    · exact fun s' hk => ⟨hk, hl, hf s' hk⟩
    · exact .raise
  · exact .raise

section Steps

variable {op : Op} (hc : a.current = some ⟨op, span⟩)
  (hr : Running F Base s.layout frames saved a.chunk l a.instruction a.stack.length n outer)

include hc hr

theorem popped (h : 1 ≤ stackPops op := by simp [stackPops]) :
    ∃ value rest, a.stack = value :: rest := by
  have hp := (hr.verified.reaches_step hr.reaches hc).1
  cases hst : a.stack with
  | nil => simp [hst] at hp; omega
  | cons value rest => exact ⟨value, rest, rfl⟩

variable {stack : List (Value Chunk)}

/-- The chunk goes on. -/
theorem next_fits {j : Nat} {m : Bool} (hs : saved.Sublist s.roots)
    (hj : j ∈ successors op a.instruction := by simp [successors])
    (hsc : scopeEffect op = 0 := by rfl)
    (hlen : (stack.length : Int) = a.stack.length + stackEffect op := by
      first | (simp [stackEffect]; done) | simp [stackEffect, ‹_ = _ :: _›]) :
    Settles s (pure (.next stack j m) : VM Chunk σ (OpResult σ ν))
      fun r s' => OpFits F Base frames a l s' r := by
  intro s' hk
  have hre := (hr.verified.reaches_step hr.reaches hc).2.2.2 j hj
  have hru := hk.running hr
  rw [← hlen, hsc, add_zero] at hre
  exact ⟨saved, sublist_keeps hk hs, n, outer, hr.verified, hr.hosts, hre, hru.scope, hru.fits⟩

variable {s' : Interp Chunk σ} (hk : s.layout.Keeps s'.layout)

include hk

/-- The chunk waits for a nested execution. -/
theorem waits_fits (hj : successors op a.instruction = [a.instruction + 1] := by simp [successors])
    (hsc : scopeEffect op = 0 := by rfl)
    (hlen : (stack.length : Int) + 1 = a.stack.length + stackEffect op := by
      first | (simp [stackEffect]; done) | simp [stackEffect, ‹_ = _ :: _›]) :
    FramesFit F Base s'.layout (.activation { a with stack := stack } :: frames) saved := by
  have hre := (hr.verified.reaches_step hr.reaches hc).2.2.2 (a.instruction + 1) (by simp [hj])
  have hru := hk.running hr
  rw [← hlen, hsc, add_zero] at hre
  exact .activation ⟨hr.verified, by rw [Activation.current] at hc ⊢; simp [hc],
    ⟨_, hr.reaches⟩, hre⟩ hr.hosts hru.scope hru.fits

end Steps

theorem settles_executeOp {op : Op} (hc : a.current = some ⟨op, span⟩) (hs : saved.Sublist s.roots)
    (hr : Running F Base s.layout frames saved a.chunk l a.instruction a.stack.length n outer)
    (het : ∀ skip, op = .loopExit skip → FramesFit F Base s.layout frames saved) :
    Settles s (executeOp host a op span frames) fun r s' => OpFits F Base frames a l s' r := by
  obtain ⟨hp, -, hsp, hsu⟩ := hr.verified.reaches_step hr.reaches hc
  have hmem : ⟨op, span⟩ ∈ a.chunk.code := List.mem_of_getElem? hc
  have hva := hr.verified.validOperand hmem
  have hne : ∀ {c l'}, (c, l') ∈ nested op l → Verified c l' := fun h =>
    hr.verified.nested hmem h
  -- a nested chunk is entered below a frame of its own
  have hen : ∀ {c l' frame stack saved' s'}, Verified c l' → saved'.Sublist s'.roots →
      Hosts l' (frame :: .activation { a with stack := stack } :: frames) →
      Fits F Base s'.heap (frame :: .activation { a with stack := stack } :: frames)
        (false :: s'.layout.flags) saved' s'.environment →
      Ensures (do return .enter (← enterNested c
          (frame :: .activation { a with stack := stack } :: frames))) s'
        (fun r s' => OpFits F Base frames a l s' r) (Fails s) := by
    intro c l' frame stack saved' s' hv hs' hh hf
    rw [Program.ensures_bind]
    exact ensures_enterNested hv hh hs' hf
  unfold executeOp
  cases op <;> dsimp only
  case constant literal =>
    exact next_fits hc hr hs
  case load name =>
    refine .calm fun fast => ?_
    split
    · exact next_fits hc hr hs
    · refine .calm fun found => ?_
      split
      · exact next_fits hc hr hs
      · exact .raise
  case store name =>
    obtain ⟨value, rest, hst⟩ := popped hc hr
    simp only [hst, pop, pure_bind]
    refine .calm fun fast => ?_
    split
    · refine .calm fun _ => ?_
      exact next_fits hc hr hs
    · exact next_fits hc hr hs
  case define name mutable =>
    obtain ⟨value, rest, hst⟩ := popped hc hr
    simp only [hst, pop, pure_bind]
    refine .calm fun fast => ?_
    split
    · exact next_fits (m := false) hc hr hs
    · refine .calm fun _ => ?_
      exact next_fits hc hr hs
  case pop =>
    obtain ⟨value, rest, hst⟩ := popped hc hr
    exact next_fits hc hr hs
  case unary operator =>
    obtain ⟨value, rest, hst⟩ := popped hc hr
    simp only [hst, pop, pure_bind]
    refine .calm (h := .lift (unary_ne_panic (by simpa [validOperand] using hva)))
      fun result => ?_
    exact next_fits hc hr hs
  case binary operator =>
    obtain ⟨right, rest, hst⟩ := popped hc hr
    simp only [hst, stackPops, List.length_cons] at hp
    cases rest with
    | nil => simp at hp
    | cons left rest =>
      simp only [hst, pop, pure_bind]
      refine .calm (h := .lift (vmBinary_ne_panic (by simpa [validOperand] using hva)))
        fun result => ?_
      exact next_fits hc hr hs
  case jump target => exact next_fits hc hr hs
  case jumpIfFalse target =>
    obtain ⟨value, rest, hst⟩ := popped hc hr
    simp only [hst, pop, pure_bind]
    refine .calm fun decision => ?_
    split <;> exact next_fits hc hr hs
  case call count | performCall count =>
    have hlen : count + 1 ≤ a.stack.length := by
      simp only [stackPops] at hp
      omega
    have hsum : ((a.stack.length - (count + 1) : Nat) : Int) + 1 =
        a.stack.length + -(count : Int) := by
      omega
    intro s' hk
    have hru := hk.running hr
    refine ensures_callOp hlen (sublist_keeps hk hs) (.operands ⟨hr.verified, ?_, ⟨_, hr.reaches⟩,
      ?_⟩ hr.hosts hru.scope hru.fits)
      (waits_fits hc hr hk rfl rfl (by simpa [stackEffect] using hsum))
    · rw [hc]
      rfl
    · have hre := hsu (a.instruction + 1) (by simp [successors])
      simpa [stackEffect, scopeEffect, hsum] using hre
  case makeArray count =>
    have hlen : count ≤ a.stack.length := by simpa [stackPops] using hp
    rw [splitOff, if_neg (by omega), pure_bind]
    exact next_fits hc hr hs (by simp [successors]) rfl (by simp [stackEffect]; omega)
  case makeText count =>
    have hlen : count ≤ a.stack.length := by simpa [stackPops] using hp
    rw [splitOff, if_neg (by omega), pure_bind]
    refine .calm fun find => ?_
    refine .calm fun limit => ?_
    refine .calm fun text => ?_
    exact next_fits hc hr hs (by simp [successors]) rfl (by simp [stackEffect]; omega)
  case index =>
    obtain ⟨index, rest, hst⟩ := popped hc hr
    simp only [hst, stackPops, List.length_cons] at hp
    cases rest with
    | nil => simp at hp
    | cons collection rest =>
      simp only [hst, pop, pure_bind]
      refine .calm fun number => ?_
      refine .calm fun value => ?_
      exact next_fits hc hr hs
  case coalesce target =>
    obtain ⟨value, rest, hst⟩ := popped hc hr
    simp only [hst]
    split <;> exact next_fits hc hr hs
  case propagate =>
    obtain ⟨value, rest, hst⟩ := popped hc hr
    simp only [hst, pop, pure_bind]
    split
    · exact next_fits hc hr hs
    · exact fun s' hk => ⟨saved, sublist_keeps hk hs, (hk.running hr).return _⟩
    · exact .raise
  case get name =>
    obtain ⟨value, rest, hst⟩ := popped hc hr
    simp only [hst, pop, pure_bind]
    refine .calm fun result => ?_
    exact next_fits hc hr hs
  case print =>
    obtain ⟨value, rest, hst⟩ := popped hc hr
    simp only [hst, pop, pure_bind]
    refine .calm fun _ => ?_
    exact next_fits hc hr hs
  case enterScope =>
    intro s' hk
    have hru := hk.running hr
    refine (ensures_enterScope (sublist_keeps hk hs) ⟨hru.scope, hru.fits⟩).bind fun _ s' h => ?_
    have hre := hsu (a.instruction + 1) (by simp [successors])
    refine ⟨saved, h.1, n + 1, outer, hr.verified, hr.hosts, ?_, h.2.1, h.2.2⟩
    simpa [stackEffect, scopeEffect] using hre
  case exitScope =>
    intro s' hk
    rw [Program.ensures_bind]
    have hpos : ∃ k, n = k + 1 := by
      cases n with
      | zero => simp [scopeEffect] at hsp
      | succ k => exact ⟨k, rfl⟩
    obtain ⟨k, rfl⟩ := hpos
    have hru := hk.running hr
    refine (ensures_exitScope (sublist_keeps hk hs) ⟨hru.scope, hru.fits⟩).mono
      (fun _ s' h => ?_) fun _ _ h => h
    have hre := hsu (a.instruction + 1) (by simp [successors])
    refine ⟨saved, h.1, k, outer, hr.verified, hr.hosts, ?_, h.2.1, h.2.2⟩
    simpa [stackEffect, scopeEffect] using hre
  case makeFunction name params body =>
    refine .calm fun id => ?_
    refine Settles.calm (m := read (·.environment)) fun e => ?_
    exact next_fits hc hr hs
  case «return» =>
    obtain ⟨value, rest, hst⟩ := popped hc hr
    simp only [hst, pop, pure_bind]
    exact fun s' hk => ⟨saved, sublist_keeps hk hs, (hk.running hr).return _⟩
  case defineRecord name fields derives =>
    refine .calm fun typeName => ?_
    refine .calm fun catalog => ?_
    refine .calm fun choices => ?_
    refine .calm fun id => ?_
    refine .calm fun _ => ?_
    exact next_fits hc hr hs
  case defineEnum | defineProtocol =>
    refine .calm fun id => ?_
    refine .calm fun typeName => ?_
    refine .calm fun _ => ?_
    exact next_fits hc hr hs
  case adoptProtocol protocol typeName mappings =>
    refine .calm fun found => ?_
    split
    · rw [pure_bind]
      refine .calm fun name => ?_
      refine .calm fun _ => ?_
      exact next_fits hc hr hs
    · refine .calm fun protocolName => ?_
      refine .calm fun name => ?_
      refine .calm fun _ => ?_
      exact next_fits hc hr hs
  case prepare | perform => exact next_fits hc hr hs
  case promise clauses =>
    refine .calm fun _ => ?_
    exact next_fits hc hr hs
  case matchArms arms =>
    obtain ⟨subject, rest, hst⟩ := popped hc hr
    simp only [hst, pop, pure_bind]
    refine fun s' hk => ⟨saved, sublist_keeps hk hs,
      fun arm harm => ⟨fun guard hg => hne ?_, hne ?_⟩, waits_fits hc hr hk⟩
    · exact List.mem_flatMap.mpr ⟨arm, harm, by simp_all⟩
    · exact List.mem_flatMap.mpr ⟨arm, harm, by simp⟩
  case defineModule name body exports =>
    intro s' hk
    refine ensures_enterModule.bind fun entered s'' h => ?_
    obtain ⟨previous, moduleScope⟩ := entered
    obtain ⟨rfl, he⟩ := h
    refine hen (hne (by simp [nested]) : Verified body false) (he.sublist (sublist_keeps hk hs))
      ⟨nofun, trivial⟩ (.module ?_)
    exact he.fits (waits_fits hc hr hk)
  case definePattern pattern =>
    obtain ⟨value, rest, hst⟩ := popped hc hr
    simp only [hst, pop, pure_bind]
    refine .calm fun find => ?_
    split
    · exact .raise
    · refine .calm fun _ => ?_
      exact next_fits hc hr hs
  case iterate name pattern body =>
    obtain ⟨iterable, rest, hst⟩ := popped hc hr
    simp only [hst, pop, pure_bind]
    have hf : ∀ s' : Interp Chunk σ, s.layout.Keeps s'.layout →
        FramesFit F Base s'.layout (.activation { a with stack := rest } :: frames) saved :=
      fun s' hk => waits_fits hc hr hk
    intro s' hk
    refine (settles_startIteration (hne (by simp [nested])) hf s' hk).bind fun control s' h => ?_
    exact ⟨saved, sublist_keeps h.1 hs, h.2⟩
  case «repeat» condition body =>
    exact fun s' hk => ⟨saved, sublist_keeps hk hs, hne (by simp [nested]),
      hne (by simp [nested]), hr.hosts.unwinds, waits_fits hc hr hk⟩
  case loopExit skip =>
    have hl := hr.verified.inLoop_of_loopExit hmem
    refine fun s' hk => ⟨saved, sublist_keeps hk hs, ?_⟩
    cases skip <;> exact ⟨hr.hosts.exit hl, hk.framesFit (het _ rfl)⟩
  case ifCarries patterns thenBranch elseBranch =>
    obtain ⟨subject, rest, hst⟩ := popped hc hr
    simp only [hst, pop, pure_bind]
    have hrs : ∀ {s' : Interp Chunk σ}, s.layout.Keeps s'.layout → FramesFit F Base s'.layout
        (.activation { a with stack := rest } :: frames) saved := fun hk =>
      waits_fits hc hr hk
    have hel : ∀ {branch}, Verified branch l → Settles s (do
        return .enter (← enterNested branch (.carriesElse ::
          .activation { a with stack := rest } :: frames)))
        fun r s' => OpFits F Base frames a l s' r := fun hv s' hk =>
      hen hv (sublist_keeps hk hs) ⟨hr.hosts.exit, hr.hosts.unwinds⟩ (.carriesElse (hrs hk))
    split
    · cases elseBranch with
      | none => exact next_fits hc hr hs
      | some branch => exact hel (hne (by simp [nested]))
    · refine .calm fun find => ?_
      split
      · intro s' hk
        refine ensures_enterBlock.bind fun previous s'' h => ?_
        obtain ⟨rfl, he⟩ := h
        exact hen (hne (by simp [nested]) : Verified thenBranch l)
          (he.sublist (sublist_keeps hk hs)) ⟨hr.hosts.exit, trivial⟩
          (.carriesThen (he.fits (hrs hk)))
      · exact hel (hne (by simp [nested]))
      · exact next_fits hc hr hs
  case sample title body shows =>
    refine .calm fun samples => ?_
    split
    · intro s' hk
      refine ensures_enterBlock.bind fun previous s'' h => ?_
      obtain ⟨rfl, he⟩ := h
      refine hen (hne (by simp [nested]) : Verified body false)
        (he.sublist (sublist_keeps hk hs)) ⟨nofun, trivial⟩ (.sample (he.fits ?_))
      exact waits_fits hc hr hk
    · exact next_fits hc hr hs
  case «using» name body =>
    obtain ⟨resource, rest, hst⟩ := popped hc hr
    simp only [hst, pop, pure_bind]
    refine .calm fun _ => ?_
    intro s' hk
    refine ensures_enterBlock.bind fun previous s'' h => ?_
    obtain ⟨rfl, he⟩ := h
    refine hen (hne (by simp [nested]) : Verified body false)
      (he.sublist (sublist_keeps hk hs)) ⟨nofun, trivial⟩ (.using (he.fits ?_))
    exact waits_fits hc hr hk

end VM

end Nivren
