import Nivren.Preserve

/-! A heap restricted to the scopes a machine refers to.

Clearing every scope that nothing refers to is a patch the machine does not notice.
-/

namespace Nivren

open Program List

variable {β σ ν : Type}

namespace Heap

variable {h h' : Heap β} {E : Env → Prop}

theorem ext_get (hg : h.globals.length = h'.globals.length)
    (hs : h.scopes.length = h'.scopes.length) (hget : ∀ e, h.get e = h'.get e) : h = h' := by
  obtain ⟨globals, scopes⟩ := h
  obtain ⟨globals', scopes'⟩ := h'
  congr 1
  · refine ext_getElem hg fun i h₁ h₂ => ?_
    simpa [get, List.getElem?_eq_getElem h₁, List.getElem?_eq_getElem h₂] using hget (.globals i)
  · refine ext_getElem hs fun i h₁ h₂ => ?_
    simpa [get, List.getElem?_eq_getElem h₁, List.getElem?_eq_getElem h₂] using hget (.scope i)

open Classical in
noncomputable def restrict (E : Env → Prop) (h : Heap β) : Heap β where
  globals := h.globals.mapIdx fun k scope => if E (.globals k) then scope else ⟨[], none⟩
  scopes := h.scopes.mapIdx fun i scope => if E (.scope i) then scope else ⟨[], none⟩

open Classical in
theorem get_restrict (e : Env) : (h.restrict E).get e = if E e then h.get e else ⟨[], none⟩ := by
  cases e with
  | globals k =>
    cases hk : h.globals[k]? with
    | none => simp [restrict, get, hk]
    | some scope => simp [restrict, get, hk]
  | scope i =>
    cases hi : h.scopes[i]? with
    | none => simp [restrict, get, hi]
    | some scope => simp [restrict, get, hi]

variable {e : Env}

theorem get_restrict_of (he : E e) : (h.restrict E).get e = h.get e := by
  rw [get_restrict, if_pos he]

@[simp] theorem globals_length_restrict : (h.restrict E).globals.length = h.globals.length := by
  simp [restrict]

@[simp] theorem scopes_length_restrict : (h.restrict E).scopes.length = h.scopes.length := by
  simp [restrict]

@[simp] theorem size_restrict : (h.restrict E).size = h.size := by simp [size]

@[simp] theorem holds_restrict : (h.restrict E).Holds e ↔ h.Holds e := by
  cases e <;> simp [Holds]

@[simp] theorem globals_length_set {scope : Scope β} :
    (h.set e scope).globals.length = h.globals.length := by
  cases e <;> simp [set]

theorem insert_restrict (he : E e) (name : String) (binding : Binding β) :
    (h.restrict E).insert e name binding = (h.insert e name binding).restrict E := by
  refine ext_get (by simp [insert]) (by simp [insert]) fun e' => ?_
  rw [get_restrict, insert, insert, get_set, get_set, get_restrict_of he, get_restrict]
  by_cases he' : e' = e ∧ h.Holds e
  · simp [he', he]
  · simp [he']

theorem insertAll_restrict (he : E e) (bindings : List (String × Binding β)) :
    (h.restrict E).insertAll e bindings = (h.insertAll e bindings).restrict E := by
  unfold insertAll
  induction bindings generalizing h with
  | nil => rfl
  | cons entry rest ih => rw [foldl_cons, foldl_cons, insert_restrict he, ih]

theorem child_restrict {parent : Env} (he : E (.scope h.scopes.length)) :
    ((h.restrict E).child parent).2 = ((h.child parent).2).restrict E := by
  refine ext_get (by simp [child]) (by simp [child]) fun e => ?_
  rw [get_restrict, get_child, get_child, get_restrict]
  have hf : ((h.restrict E).child parent).1 = (h.child parent).1 := by simp [child]
  rw [hf]
  by_cases hc : e = (h.child parent).1
  · have hE : E e := hc ▸ he
    simp [hc, hc ▸ hE]
  · simp [hc]

section Closed

variable (hclosed : ∀ e, E e → ∀ p, (h.get e).parent = some p → E p)
include hclosed

theorem lookupFrom_restrict (name : String) (fuel : Nat) (he : E e) :
    (h.restrict E).lookupFrom name fuel e = h.lookupFrom name fuel e := by
  induction fuel generalizing e with
  | zero => rfl
  | succ fuel ih =>
    rw [lookupFrom, lookupFrom, get_restrict_of he]
    split
    · rfl
    · cases hp : (h.get e).parent with
      | none => rfl
      | some p => exact ih (hclosed e he p hp)

theorem chainFrom_restrict (fuel : Nat) (he : E e) :
    (h.restrict E).chainFrom fuel e = h.chainFrom fuel e := by
  induction fuel generalizing e with
  | zero => rfl
  | succ fuel ih =>
    rw [chainFrom, chainFrom, get_restrict_of he]
    cases hp : (h.get e).parent with
    | none => rfl
    | some p => simp only [Option.map_some, Option.getD_some, ih (hclosed e he p hp)]

theorem assignFrom_restrict (name : String) (value : Value β) (span : Span) (fuel : Nat)
    (he : E e) : (h.restrict E).assignFrom name value span fuel e =
      (h.assignFrom name value span fuel e).map (restrict E) := by
  induction fuel generalizing e with
  | zero => rfl
  | succ fuel ih =>
    rw [assignFrom, assignFrom, get_restrict_of he]
    split
    · split
      · rw [insert_restrict he]
        rfl
      · rfl
    · split
      next p hp => exact ih (hclosed e he p hp)
      · rfl

theorem visible_restrict (he : E e) : (h.restrict E).visible e = h.visible e := by
  rw [visible, visible, chain, chain, size_restrict, chainFrom_restrict hclosed _ he]

end Closed

end Heap

def Interp.withHeap (s : Interp Chunk σ) (heap : Heap Chunk) : Interp Chunk σ :=
  { s with heap := heap, gcTicks := 0, collector := ⟨0, [], false⟩ }

/-- Everything but a set of scopes is cleared, and the collector's books are blank. -/
noncomputable def Allowed.restriction (A : Allowed) (host : Host Chunk σ ν) : Patch host where
  toAllowed := A
  apply s := s.withHeap (s.heap.restrict A.scope)
  extra _ := True
  allows _ := True

variable {host : Host Chunk σ ν} {A : Allowed}

section Laws

variable {s : Interp Chunk σ} (hs : A.interp host s)
include hs

theorem Allowed.lookup_restrict (name : String) :
    (s.heap.restrict A.scope).lookup s.environment name = s.heap.lookup s.environment name := by
  rw [Heap.lookup, Heap.size_restrict,
    Heap.lookupFrom_restrict hs.heap.parent name _ hs.environment]
  rfl

theorem Allowed.assign_restrict (name : String) (value : Value Chunk) (span : Span) :
    (s.heap.restrict A.scope).assign s.environment name value span =
      (s.heap.assign s.environment name value span).map (Heap.restrict A.scope) := by
  rw [Heap.assign, Heap.size_restrict,
    Heap.assignFrom_restrict hs.heap.parent name value span _ hs.environment]
  rfl

theorem Allowed.get_restrict_environment :
    (s.heap.restrict A.scope).get s.environment = s.heap.get s.environment :=
  Heap.get_restrict_of hs.environment

theorem Allowed.visible_restrict :
    (s.heap.restrict A.scope).visible s.environment = s.heap.visible s.environment :=
  Heap.visible_restrict hs.heap.parent hs.environment

end Laws

instance Allowed.restriction_lawful : (A.restriction host).Lawful where
  finder s hs := funext fun name => lookup_restrict hs.interp name
  assign name value span s hs _ := by
    have ha := assign_restrict hs.interp name value span
    refine ⟨fun failure hf => ?_, fun heap hh => ⟨heap.restrict A.scope, ?_, rfl, trivial⟩⟩
    · exact ha.trans (by rw [hf]; rfl)
    · exact ha.trans (by rw [hh]; rfl)
  declared name s hs :=
    congrArg (fun scope => (scope.values.lookup name).isSome) (get_restrict_environment hs.interp)
  insert name value mutable _ s hs :=
    ⟨congrArg s.withHeap (Heap.insert_restrict hs.interp.environment name ⟨value, mutable⟩),
      trivial⟩
  parent s hs := congrArg Scope.parent (get_restrict_environment hs.interp)
  child e he s hs := congrArg Env.scope Heap.scopes_length_restrict
  pushChild e he s hs := by
    have hc : ((s.heap.restrict A.scope).child e).2 = ((s.heap.child e).2).restrict A.scope :=
      Heap.child_restrict (hs.interp.heap.unborn _ (Nat.le_refl _))
    have hfi : ((s.heap.restrict A.scope).child e).1 = (s.heap.child e).1 :=
      congrArg Env.scope Heap.scopes_length_restrict
    refine ⟨?_, trivial⟩
    change { s.withHeap ((s.heap.restrict A.scope).child e).2 with
      environments := ((s.heap.restrict A.scope).child e).1 :: s.environments } = _
    rw [hc, hfi]
    rfl
  bindAll e bindings he s hs := ⟨congrArg s.withHeap (Heap.insertAll_restrict he bindings), trivial⟩
  exported e name he s hs := congrArg (fun scope : Scope Chunk => scope.values.lookup name)
    (Heap.get_restrict_of he)
  catalog s hs := congrArg (foldl (fun catalog value => collectRecords value catalog) [])
    (visible_restrict hs.interp)
  choices s hs := congrArg (foldl (fun catalog value => collectChoices value catalog) [])
    (visible_restrict hs.interp)

theorem Allowed.restriction_executor : (A.restriction host).Executor :=
  Patch.Lawful.executor (fun _ _ => rfl) (fun _ _ => rfl) fun _ _ _ _ => ⟨rfl, trivial⟩

theorem Allowed.restriction_admits {m : Machine σ ν} (hm : A.machine host m) (input : VM.Input)
    (hc : ∀ a next memory, m.control ≠ .collect a next memory) :
    (A.restriction host).Admits input m where
  features _ _ := trivial
  preamble _ _ _ _ _ := Patch.unaware_preamble (fun _ _ => rfl)
    (fun _ _ => ⟨rfl, trivial⟩) _ ⟨hm.interp, trivial⟩
  beginCall _ _ _ _ := Patch.unaware_beginCall (fun _ _ => rfl)
    (fun _ _ => ⟨rfl, trivial⟩) _ ⟨hm.interp, trivial⟩
  goTo hs ha hf _ := Patch.unaware_goTo (fun _ _ => rfl) restriction_executor ha hf _ hs
  collect a next memory h := absurd h (hc a next memory)

end Nivren
