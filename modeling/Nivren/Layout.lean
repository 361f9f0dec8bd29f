import Nivren.Preserve

/-! The part of the interpreter that scopes and frames depend on.

Most runtime functions are calm: they never panic, and they leave the current scope, the saved
scopes, the slot frames and the parents of all scopes as they were.
-/

namespace Nivren

open Program

variable {σ ν : Type}

/-- The scopes, which slot frames hold a plan, the saved scopes and the current scope. -/
structure Layout where
  heap : Heap Chunk
  flags : List Bool
  roots : List Env
  environment : Env

def Interp.layout (s : Interp Chunk σ) : Layout :=
  ⟨s.heap, s.fastFrames.map fun frame => frame.plan.isSome, s.roots, s.environment⟩

/-- Everything stays in place; scopes may be added and bindings change. -/
structure Layout.Keeps (L L' : Layout) : Prop where
  flags : L'.flags = L.flags
  roots : L'.roots = L.roots
  environment : L'.environment = L.environment
  parent : ∀ e p, (L.heap.get e).parent = some p → (L'.heap.get e).parent = some p

namespace Layout.Keeps

variable {L L' L'' : Layout}

@[simp] theorem refl : L.Keeps L := ⟨rfl, rfl, rfl, fun _ _ h => h⟩

theorem trans (h : L.Keeps L') (h' : L'.Keeps L'') : L.Keeps L'' :=
  ⟨h'.flags.trans h.flags, h'.roots.trans h.roots, h'.environment.trans h.environment,
    fun e p hp => h'.parent e p (h.parent e p hp)⟩

end Layout.Keeps

namespace VM

class Calm {α : Type} (m : VM Chunk σ α) : Prop where
  calm : ∀ s, Ensures m s (fun _ s' => s.layout.Keeps s'.layout)
    fun failure s' => failure ≠ .panic ∧ s.layout.Keeps s'.layout

variable {span : Span} {message : String}

section Calm

variable {α β : Type} {m : VM Chunk σ α} {f : α → VM Chunk σ β}

instance {a : α} : Calm (pure a : VM Chunk σ α) := ⟨fun _ => Layout.Keeps.refl⟩

instance : Calm (raise message span : VM Chunk σ α) := ⟨fun _ => ⟨nofun, .refl⟩⟩

instance {e : NivError} : Calm (throw (.error e) : VM Chunk σ α) := ⟨fun _ => ⟨nofun, .refl⟩⟩

instance {f : Interp Chunk σ → α} : Calm (VM.read f) := ⟨fun _ => Layout.Keeps.refl⟩

theorem Calm.write {f : Interp Chunk σ → Interp Chunk σ}
    (h : ∀ s : Interp Chunk σ, s.layout.Keeps (f s).layout) : Calm (VM.write f) := ⟨h⟩

-- the parts of the interpreter that no layout shows
instance {world : Interp Chunk σ → σ} {id live depth : Interp Chunk σ → ℕ}
    {output : Interp Chunk σ → List String} {jit : Interp Chunk σ → List (ℕ × JitState)}
    {budget memory : Interp Chunk σ → Option ℕ}
    {dispatch : Interp Chunk σ → List ((String × String × String) × Value Chunk)}
    {recorder replay : Interp Chunk σ → Option (List EffectRecord)}
    {promises : Interp Chunk σ → List PromiseClause}
    {spawned : Interp Chunk σ → List (TaskStart Chunk)}
    {effects : Interp Chunk σ → List EffectEvent} : Calm (VM.write fun s => { s with
      world := world s, nextId := id s, output := output s, jit := jit s,
      instructionBudget := budget s, memoryBudget := memory s, callDepth := depth s,
      protocolDispatch := dispatch s, effectRecorder := recorder s, effectReplay := replay s,
      activePromises := promises s, liveTasks := live s, spawned := spawned s,
      effects := effects s }) :=
  .write fun _ => .refl

theorem Calm.step [hm : Calm m] (hf : ∀ a, Calm (f a)) : Calm (m >>= f) := by
  constructor
  intro s
  exact (hm.calm s).bind
    fun a s' h => ((hf a).calm s').mono (fun _ _ h' => h.trans h') fun _ _ h' => ⟨h'.1, h.trans h'.2⟩

instance [Calm m] [hf : ∀ a, Calm (f a)] : Calm (m >>= f) := .step hf

instance {f : α → β} [hm : Calm m] : Calm (f <$> m) := by
  rw [← bind_pure_comp]
  infer_instance

instance {c : Prop} [Decidable c] {n : VM Chunk σ α} [Calm m] [Calm n] : Calm (if c then m else n) := by
  split <;> infer_instance

theorem Calm.lift {result : Result α} (h : result ≠ .error .panic) :
    Calm (lift result : VM Chunk σ α) := by
  cases result with
  | ok a => exact inferInstanceAs (Calm (pure a : VM Chunk σ α))
  | error failure =>
    cases failure with
    | error e => exact inferInstanceAs (Calm (throw (.error e) : VM Chunk σ α))
    | panic => exact absurd rfl h

instance {result : Except NivError α} : Calm (liftError result : VM Chunk σ α) := by
  unfold liftError
  split <;> infer_instance

end Calm

variable {value : Value Chunk}

instance : Calm (lift (expectBool value span) : VM Chunk σ Bool) := by
  refine .lift ?_
  unfold expectBool
  split <;> exact nofun

instance : Calm (lift (expectIndex value span) : VM Chunk σ Nat) := by
  refine .lift ?_
  unfold expectIndex
  split
  · split <;> exact nofun
  · exact nofun

instance {collection : Value Chunk} {index : Nat} :
    Calm (lift (indexValue collection index span) : VM Chunk σ (Value Chunk)) := by
  refine .lift ?_
  unfold indexValue
  split
  · split <;> exact nofun
  · split <;> exact nofun
  · exact nofun

variable {name : String}

instance {expected actual : Nat} :
    Calm (lift (checkArity name expected actual span) : VM Chunk σ Unit) := by
  refine .lift ?_
  unfold checkArity
  split <;> exact nofun

variable {lib : RustLibrary} {find : String → Option (Value Chunk)}

theorem textHoleString_ne_panic : textHoleString lib find value span ≠ .error .panic := by
  unfold textHoleString fail
  (repeat' split) <;> simp

theorem makeText_ne_panic {limit : Nat} {values : List (Value Chunk)} {output : String} :
    makeText lib find limit span values output ≠ .error .panic := by
  induction values generalizing output with
  | nil => exact nofun
  | cons value rest ih =>
    rw [makeText]
    split
    next failure h =>
      rintro ⟨⟩
      exact textHoleString_ne_panic h
    · split
      · exact nofun
      · exact ih

instance {limit : Nat} {values : List (Value Chunk)} {output : String} :
    Calm (lift (makeText lib find limit span values output) : VM Chunk σ String) :=
  .lift makeText_ne_panic

variable {operator : TokenKind}

theorem Arithmetic.binary_ne_panic {α : Type} (num : Arithmetic α)
    {make : α → Option (Value Chunk)} {overflow : String} {a b : α}
    (ho : operator ∈ [TokenKind.plus, .minus, .star, .slash, .percent, .greater,
      .greaterEqual, .less, .lessEqual]) :
    num.binary make overflow a operator b span ≠ .error .panic := by
  have hc : ∀ value, checkedValue make overflow span value ≠ .error .panic := by
    intro value
    unfold checkedValue
    split <;> exact nofun
  unfold Arithmetic.binary
  split
  · exact hc _
  · exact hc _
  · exact hc _
  · split
    · exact nofun
    · exact hc _
  · split
    · exact nofun
    · exact hc _
  · split
    · exact nofun
    next hco =>
      simp only [List.mem_cons, List.not_mem_nil, or_false] at ho
      rcases ho with rfl | rfl | rfl | rfl | rfl | rfl | rfl | rfl | rfl <;>
        simp_all [compareBy]

variable {right left : Value Chunk}

theorem numericBinary_ne_panic (ho : operator ∈ [TokenKind.plus, .minus, .star, .slash,
      .percent, .greater, .greaterEqual, .less, .lessEqual]) :
    numericBinary lib left operator right span ≠ some (.error .panic) := by
  unfold numericBinary
  split
  case h_7 =>
    unfold fixedBinary
    split
    · exact nofun
    · exact fun h => Arithmetic.binary_ne_panic _ ho (Option.some.inj h)
  case h_8 => exact nofun
  all_goals exact fun h => Arithmetic.binary_ne_panic _ ho (Option.some.inj h)

theorem binary_ne_panic (ho : operator ∈ [TokenKind.plus, .minus, .star, .slash, .percent, .equalEqual,
      .bangEqual, .greater, .greaterEqual, .less, .lessEqual]) :
    binary lib left operator right span ≠ .error .panic := by
  have hn : operator ∈ [TokenKind.plus, .minus, .star, .slash, .percent, .greater,
      .greaterEqual, .less, .lessEqual] →
      numericBinary lib left operator right span ≠ some (.error .panic) :=
    fun h => numericBinary_ne_panic h
  simp only [List.mem_cons, List.not_mem_nil, or_false] at ho
  unfold binary
  rcases ho with rfl | rfl | rfl | rfl | rfl | rfl | rfl | rfl | rfl | rfl | rfl <;> dsimp only
  case inr.inr.inr.inr.inr.inl => exact nofun
  case inr.inr.inr.inr.inr.inr.inl => exact nofun
  all_goals
    have h := hn (by simp)
    split
    · simp_all
    all_goals exact nofun

theorem vmBinary_ne_panic
    (ho : operator ∈ [TokenKind.plus, .minus, .star, .slash, .percent, .equalEqual,
      .bangEqual, .greater, .greaterEqual, .less, .lessEqual]) :
    vmBinary lib left operator right span ≠ .error .panic := by
  unfold vmBinary
  split
  · split
    · exact nofun
    · exact nofun
    next h₁ h₂ =>
      refine Arithmetic.binary_ne_panic _ ?_
      simp_all
  · exact binary_ne_panic ho

theorem unary_ne_panic (ho : operator ∈ [TokenKind.minus, .bang]) :
    unary lib operator value span ≠ .error .panic := by
  simp only [List.mem_cons, List.not_mem_nil, or_false] at ho
  rcases ho with rfl | rfl
  · unfold unary negate fail
    (repeat' split) <;> simp_all
  · unfold unary expectBool fail
    dsimp only
    split <;> simp [Except.map]

instance : Calm (charge span : VM Chunk σ Unit) := by
  refine .step fun budget => ?_
  split <;> infer_instance

instance {terminate : Bool} : Calm (preamble terminate span : VM Chunk σ Unit) := by
  unfold preamble
  dsimp only
  infer_instance

variable {host : Host Chunk σ ν}

instance : Calm (chargeMemory host value span) := by
  refine .step fun world => ?_
  split
  · infer_instance
  · refine .step fun budget => ?_
    split <;> infer_instance

variable {instruction : Nat} {s : Interp Chunk σ}

theorem ensures_fastSlot : Ensures (fastSlot instruction) s
      (fun found s' => s' = s ∧ ∀ frame slot binding, found = some (frame, slot, binding) →
        s.fastFrames.head? = some frame) fun _ _ => False := by
  unfold fastSlot topFrame
  simp only [ensures_bind, ensures_read]
  split
  · exact ⟨rfl, by simp⟩
  next frame hf =>
    split
    · exact ⟨rfl, by simp⟩
    next slot hsl =>
      split
      next hn =>
        have hlt := frame.slotOf_lt hsl
        simp only [List.getElem?_eq_none_iff] at hn
        omega
      · refine ⟨rfl, fun _ _ _ h => ?_⟩
        cases h
        exact hf

theorem ensures_setTopFrame {frame frame' : FastFrame Chunk}
    (hf : s.fastFrames.head? = some frame) (hp : frame'.plan = frame.plan) :
    Ensures (setTopFrame frame') s (fun _ s' => s.layout.Keeps s'.layout) fun _ _ => False := by
  refine ⟨?_, rfl, rfl, fun _ _ h => h⟩
  cases hfr : s.fastFrames with
  | nil => simp [hfr] at hf
  | cons first rest =>
    simp only [hfr, List.head?_cons, Option.some.injEq] at hf
    simp [Interp.layout, hfr, hp, hf]

instance : Calm (loadFast instruction : VM Chunk σ (Option (Value Chunk))) := by
  constructor
  intro s
  unfold loadFast
  refine ensures_fastSlot.total fun found s' h => ?_
  obtain ⟨rfl, -⟩ := h
  split <;> exact .refl

variable {mutable : Bool}

instance : Calm (defineFast instruction value mutable : VM Chunk σ Bool) := by
  constructor
  intro s
  unfold defineFast
  refine ensures_fastSlot.total fun found s' h => ?_
  obtain ⟨rfl, hf⟩ := h
  split
  · exact .refl
  · refine Ensures.total (ensures_setTopFrame (hf _ _ _ rfl) ?_) fun _ _ h => ?_
    · rfl
    · exact h

instance : Calm (assignFast instruction name value span : VM Chunk σ Bool) := by
  constructor
  intro s
  unfold assignFast
  refine ensures_fastSlot.total fun found s' h => ?_
  obtain ⟨rfl, hf⟩ := h
  split
  · exact .refl
  · split
    · exact .refl
    · split
      · exact ⟨nofun, .refl⟩
      · refine Ensures.total (ensures_setTopFrame (hf _ _ _ rfl) ?_) fun _ _ h => ?_
        · rfl
        · exact h

theorem Heap.assign_parent {h h' : Heap Chunk}
    {fuel : Nat} {e : Env} (ha : h.assignFrom name value span fuel e = .ok h') (e' : Env) :
    (h'.get e').parent = (h.get e').parent := by
  induction fuel generalizing e with
  | zero => cases ha
  | succ fuel ih =>
    rw [Heap.assignFrom] at ha
    split at ha
    · split at ha <;> cases ha
      simp
    · split at ha
      · exact ih ha
      · cases ha

theorem Heap.assign_ne_panic {h : Heap Chunk}
    {fuel : Nat} {e : Env} : h.assignFrom name value span fuel e ≠ .error .panic := by
  induction fuel generalizing e with
  | zero => exact fun h => by cases h
  | succ fuel ih =>
    rw [Heap.assignFrom]
    split
    · split <;> exact fun h => by cases h
    · split
      · exact ih
      · exact fun h => by cases h

instance : Calm (assign name value span : VM Chunk σ Unit) := by
  constructor
  intro s
  rw [Ensures, exec_assign]
  cases ha : s.heap.assign s.environment name value span with
  | ok heap => exact ⟨rfl, rfl, rfl, fun e p hp => (Heap.assign_parent ha e).trans hp⟩
  | error failure => exact ⟨fun h => Heap.assign_ne_panic (h ▸ ha), .refl⟩

instance : Calm (insertBinding name value mutable : VM Chunk σ Unit) :=
  .write fun s => ⟨rfl, rfl, rfl, fun e p hp => by simpa [Interp.layout] using hp⟩

instance {bindings : List (String × Value Chunk)} :
    Calm (declareAll span bindings : VM Chunk σ Unit) := by
  induction bindings with
  | nil | cons entry rest ih =>
    unfold declareAll
    infer_instance

variable {protocol : String} {typeName member : String}

instance {base qualifiedName : String} {mappings : List (String × String)} :
    Calm (adoptAll protocol base qualifiedName span mappings : VM Chunk σ Unit) := by
  induction mappings with
  | nil =>
    unfold adoptAll
    infer_instance
  | cons mapping rest ih =>
    refine .step fun found => ?_
    split <;> infer_instance

instance : Calm (ensureClosable value span : VM Chunk σ Unit) := by
  unfold ensureClosable
  split <;> infer_instance

instance {object : Value Chunk} : Calm (getValue object name span : VM Chunk σ (Value Chunk)) := by
  unfold getValue
  split
  case h_6 => infer_instance
  case h_2 | h_3 =>
    split
    · infer_instance
    · split <;> infer_instance
  all_goals split <;> infer_instance

variable {capability operation : String}

variable {arguments : List (Value Chunk)}

instance {trace : List EffectRecord} :
    Calm (replayEffect host capability operation arguments trace span) := by
  unfold replayEffect
  split
  · infer_instance
  · dsimp only
    infer_instance

instance : Calm (authorizeScope host capability operation arguments span) := by
  refine .step fun scopes => ?_
  dsimp only
  split <;> infer_instance

instance : Calm (gate host capability operation arguments span) := by
  refine .step fun replay => ?_
  split
  · infer_instance
  · refine .step fun promises => ?_
    split <;> infer_instance

variable {f : NativeFunction}

instance : Calm (passGate host f arguments span) := by
  unfold passGate
  split <;> infer_instance

instance : Calm (taskSpawn arguments span : VM Chunk σ (Value Chunk)) := by
  unfold taskSpawn
  split
  · split <;> infer_instance
  · infer_instance

instance {result : Except NivError (Value Chunk)} :
    Calm (recordEffect host f arguments result span) := by
  refine .step fun value => ?_
  split
  · infer_instance
  · refine .step fun recorder => ?_
    split
    · infer_instance
    · split <;> infer_instance

instance {f : Function Chunk} : Calm (tryJit f arguments : VM Chunk σ _) := by
  refine .step fun state => ?_
  split
  · infer_instance
  · refine .step fun threshold => ?_
    split <;> infer_instance

instance {error : JitCallError} : Calm (jitError error span : VM Chunk σ (Value Chunk)) := by
  unfold jitError
  split <;> infer_instance

variable {exports : List String} {moduleScope : Env}

instance : Calm (exportValues name moduleScope span exports : VM Chunk σ _) := by
  induction exports with
  | nil =>
    unfold exportValues
    infer_instance
  | cons exported rest ih =>
    refine .step fun found => ?_
    split <;> infer_instance

variable {result : Except NivError (VmFlow Chunk)}

instance :
    Calm (finishModule name exports span moduleScope result : VM Chunk σ (Value Chunk)) := by
  refine .step fun flow => ?_
  split <;> infer_instance

instance {title : String} {shows : Option String} :
    Calm (finishSample host title shows span result) := by
  refine .step fun flow => ?_
  split
  · split
    · infer_instance
    · dsimp only
      split <;> infer_instance
  all_goals infer_instance

end VM

end Nivren
