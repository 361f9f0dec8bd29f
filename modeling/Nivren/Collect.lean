import Nivren.Entry

/-! The collector: marking finds exactly the scopes its roots lead to, and a sweep clears nothing that
is marked.
-/

namespace Nivren

open Program

variable {β σ ν : Type} {e : Env} {h : Heap β}

theorem Heap.mem_addresses : e ∈ h.addresses ↔ h.Holds e := by
  cases e <;> simp [addresses, Holds]

variable {roots : List Env}

section Marking

variable (host : Host β σ ν) (world : σ) {h : Heap β}

abbrev Led (h : Heap β) (roots : List Env) (e : Env) : Prop :=
  Reach.Reachable (reachedFrom host world h) roots e

theorem reachedFrom_of_not_holds (he : ¬ h.Holds e) : reachedFrom host world h e = [] := by
  simp [reachedFrom, Heap.get_of_not_holds he]

theorem mem_markFrom : e ∈ markFrom host world h roots ↔ Led host world h roots e := by
  have hr : roots ⊆ roots ++ h.addresses.flatMap (reachedFrom host world h) :=
    List.subset_append_left _ _
  refine Reach.mem_mark_iff (fun x _ y hy => ?_) hr (by simp)
  by_cases hx : h.Holds x
  · exact List.mem_append_right _ (List.mem_flatMap.mpr ⟨x, Heap.mem_addresses.mpr hx, hy⟩)
  · rw [reachedFrom_of_not_holds host world hx] at hy
    cases hy

theorem Led.parent {p : Env} (hl : Led host world h roots e)
    (hp : (h.get e).parent = some p) : Led host world h roots p :=
  hl.step (by simp [reachedFrom, hp])

end Marking

theorem get_clear (h : Heap β) (e e' : Env) :
    (h.clear e).get e' = if e' = e then ⟨[], none⟩ else h.get e' := by
  rw [Heap.clear, Heap.get_set]
  by_cases he : e' = e
  · subst he
    by_cases hh : h.Holds e'
    · simp [hh]
    · simp [hh, Heap.get_of_not_holds hh]
  · simp [he]

variable {ages : Option (List (Env × Nat))} {marked : List Env}

theorem get_sweepOne {first : Env} :
    (if sweepable ages first && !marked.contains first then h.clear first else h).get e =
      if e = first ∧ sweepable ages e ∧ e ∉ marked then ⟨[], none⟩ else h.get e := by
  by_cases he : e = first
  · subst he
    by_cases hc : sweepable ages e = true ∧ e ∉ marked
    · rw [if_pos (by simpa using hc), if_pos ⟨rfl, hc⟩, get_clear, if_pos rfl]
    · rw [if_neg (by simpa using hc), if_neg fun h => hc h.2]
  · have hn : ¬ (e = first ∧ sweepable ages e = true ∧ e ∉ marked) := fun h => he h.1
    rw [if_neg hn]
    split
    · rw [get_clear, if_neg he]
    · rfl

variable {tracked : List Env}

theorem get_sweep : (sweep tracked marked ages h).get e =
      if e ∈ tracked ∧ sweepable ages e ∧ e ∉ marked then ⟨[], none⟩ else h.get e := by
  unfold sweep
  induction tracked generalizing h with
  | nil => simp
  | cons first rest ih =>
    rw [List.foldl_cons, ih, get_sweepOne]
    by_cases hc : sweepable ages e = true ∧ e ∉ marked
    · by_cases hr : e ∈ rest
      · simp [hc, hr]
      · simp [hc, hr]
    · simp [hc]

theorem sweep_shape : (sweep tracked marked ages h).globals.length = h.globals.length ∧
      (sweep tracked marked ages h).scopes.length = h.scopes.length := by
  unfold sweep
  induction tracked generalizing h with
  | nil => exact ⟨rfl, rfl⟩
  | cons first rest ih =>
    rw [List.foldl_cons]
    refine ⟨ih.1.trans ?_, ih.2.trans ?_⟩
    all_goals
      split
      · cases first <;> simp [Heap.clear, Heap.set]
      · rfl

/-- A collection keeps a set of scopes when it leaves them as they are; all others it may clear. -/
structure Sweeps (keep : Env → Prop) (h h' : Heap β) : Prop where
  kept : ∀ e, keep e → h'.get e = h.get e
  other : ∀ e, h'.get e = h.get e ∨ h'.get e = ⟨[], none⟩
  globals : h'.globals.length = h.globals.length
  scopes : h'.scopes.length = h.scopes.length

namespace Sweeps

variable {keep : Env → Prop} {h h' h'' : Heap β}

theorem trans (h₁ : Sweeps keep h h') (h₂ : Sweeps keep h' h'') : Sweeps keep h h'' where
  kept e he := (h₂.kept e he).trans (h₁.kept e he)
  other e := by
    rcases h₂.other e with h₂ | h₂
    · rw [h₂]
      exact h₁.other e
    · exact .inr h₂
  globals := h₂.globals.trans h₁.globals
  scopes := h₂.scopes.trans h₁.scopes

theorem of_sweep (hk : ∀ e, keep e → e ∈ marked) : Sweeps keep h (sweep tracked marked ages h) where
  kept e he := by
    rw [get_sweep, if_neg fun h => h.2.2 (hk e he)]
  other e := by
    rw [get_sweep]
    split
    · exact .inr rfl
    · exact .inl rfl
  globals := sweep_shape.1
  scopes := sweep_shape.2

theorem led {host : Host β σ ν} {world : σ}
    (hs : Sweeps (Led host world h roots) h h') (he : Led host world h roots e) :
    Led host world h' roots e := by
  let both (x : Env) : Prop := Led host world h roots x ∧ Led host world h' roots x
  have hst : ∀ x, both x → ∀ y ∈ reachedFrom host world h x, both y := fun x hx y hy =>
    ⟨hx.1.step hy, hx.2.step (by rwa [reachedFrom, hs.kept x hx.1])⟩
  exact (Reach.Reachable.induction (P := both) (fun r hr => ⟨.root _ hr, .root _ hr⟩) hst he).2

end Sweeps

namespace VM

variable {host : Host β σ ν} {s : Interp β σ}

abbrev Live (host : Host β σ ν) (s : Interp β σ) (stack : List (Value β)) (e : Env) : Prop :=
  Led host s.world s.heap (collectorRoots host s stack) e

/-- What a collection does: it sweeps the heap and keeps its own books. -/
structure Collected (host : Host β σ ν) (stack : List (Value β)) (s s' : Interp β σ) : Prop where
  sweeps : Sweeps (Live host s stack) s.heap s'.heap
  untracked : ∀ e, e ∉ s.environments → s'.heap.get e = s.heap.get e
  rest : s' = { s with heap := s'.heap, collector := s'.collector, gcTicks := s'.gcTicks }

namespace Collected

variable {stack : List (Value β)} {s s' s'' : Interp β σ}

theorem of_books {s' : Interp β σ} (hh : s'.heap = s.heap)
    (hr : s' = { s with heap := s'.heap, collector := s'.collector, gcTicks := s'.gcTicks }) :
    Collected host stack s s' where
  sweeps := hh ▸ ⟨fun _ _ => rfl, fun _ => .inl rfl, rfl, rfl⟩
  untracked _ _ := by rw [hh]
  rest := hr

theorem refl : Collected host stack s s := .of_books rfl rfl

theorem roots_eq (h : Collected host stack s s') :
    collectorRoots host s' stack = collectorRoots host s stack := by
  rw [h.rest]
  rfl

theorem live (h : Collected host stack s s') (he : Live host s stack e) : Live host s' stack e := by
  unfold Live
  rw [h.roots_eq, show s'.world = s.world by rw [h.rest]]
  exact h.sweeps.led he

theorem trans (h₁ : Collected host stack s s') (h₂ : Collected host stack s' s'') :
    Collected host stack s s'' where
  sweeps := h₁.sweeps.trans ⟨fun e he => h₂.sweeps.kept e (h₁.live he), h₂.sweeps.other,
    h₂.sweeps.globals, h₂.sweeps.scopes⟩
  untracked e he := by
    rw [h₂.untracked e (by rwa [h₁.rest]), h₁.untracked e he]
  rest := by
    rw [h₂.rest, h₁.rest]

end Collected

variable {stack : List (Value β)}

theorem ensures_setPending {pending : Bool} :
    Ensures (setPending pending) s (fun _ s' => Collected host stack s s') fun _ _ => False := by
  simp only [setPending, ensures_write]
  exact .of_books rfl rfl

theorem ensures_sweepWith {kept : List Env} {minor : Bool}
    (hk : ∀ e, Live host s stack e → e ∈ kept) :
    Ensures (sweepWith kept minor) s (fun _ s' => Collected host stack s s') fun _ _ => False := by
  simp only [sweepWith, ensures_write]
  exact ⟨.of_sweep hk, fun e he => by rw [get_sweep, if_neg fun h => he h.1], rfl⟩

variable {report : MarkerReport}

theorem ensures_finishMark :
    Ensures (finishMark host report stack) s (fun _ s' => Collected host stack s s')
      fun _ _ => False := by
  unfold finishMark
  simp only [ensures_bind, ensures_read]
  split
  · cases report with
    | empty => exact .refl
    | disconnected => exact ensures_setPending
    | marked scopes =>
      simp only [liveScopes, ensures_bind, ensures_read]
      have hke : ∀ e, Live host s stack e → e ∈ scopes ++
          markFrom host s.world s.heap (collectorRoots host s stack) := fun e he =>
        List.mem_append_right _ ((mem_markFrom host s.world).mpr he)
      refine (ensures_sweepWith hke).mono (fun _ s' h => ?_) fun _ _ h => h
      exact ensures_setPending.mono (fun _ s'' h' => h.trans h') fun _ _ h => h
  · exact .refl

theorem ensures_collect :
    Ensures (collect host report stack) s (fun _ s' => Collected host stack s s')
      fun _ _ => False := by
  unfold collect
  simp only [ensures_bind, ensures_write, ensures_read]
  refine ensures_finishMark.mono (fun _ s₁ h₁ => ?_) fun _ _ h => h
  have h₂ : Collected host stack s₁ { s₁ with
      collector := { s₁.collector with cycles := s₁.collector.cycles + 1 } } := .of_books rfl rfl
  split
  · exact ensures_setPending.mono (fun _ _ h => (h₁.trans h₂).trans h) fun _ _ h => h
  · simp only [liveScopes, ensures_bind, ensures_read]
    exact (ensures_sweepWith fun _ he => (mem_markFrom host _).mpr he).mono
        (fun _ _ h => (h₁.trans h₂).trans h) fun _ _ h => h

theorem ensures_maybeCollect (host : Host β σ ν) (trigger : Option MarkerReport)
    (stack : List (Value β)) (s : Interp β σ) :
    Ensures (maybeCollect host trigger stack) s (fun _ s' => Collected host stack s s')
      fun _ _ => False := by
  unfold maybeCollect
  cases trigger with
  | none =>
    simp only [ensures_write]
    exact .of_books rfl rfl
  | some report =>
    simp only [ensures_bind, ensures_write]
    exact ensures_collect.mono (fun _ s' h => h.trans (.of_books rfl rfl)) fun _ _ h => h

end VM

end Nivren
