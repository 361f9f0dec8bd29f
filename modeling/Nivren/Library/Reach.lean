import Mathlib

/-! Marking the part of a graph that can be reached from a list of roots.

`mark` visits one unmarked node a round. When the fuel covers a finite set of nodes that
contains the roots and is closed under successors, the marked set is exactly the set of nodes a path
from a root leads to.
-/

namespace Reach

open List

variable {α : Type*} [DecidableEq α] (succ : α → List α)

/-- Marks everything reachable from `work`, one new node a round. -/
def mark : ℕ → List α → List α → List α
  | 0, _, marked => marked
  | fuel + 1, work, marked =>
    match work.filter (· ∉ marked) with
    | [] => marked
    | node :: rest => mark fuel (succ node ++ rest) (node :: marked)

theorem subset_mark (fuel : ℕ) (work marked : List α) : marked ⊆ mark succ fuel work marked := by
  induction fuel generalizing work marked with
  | zero => exact List.Subset.refl _
  | succ fuel ih =>
    rw [mark]
    split
    · exact List.Subset.refl _
    · exact fun x hx => ih _ _ (mem_cons_of_mem _ hx)

/-- Everything still to visit, and the successors of everything marked, end up marked. -/
private structure Closing (work marked : List α) : Prop where
  nodup : marked.Nodup
  succ : ∀ x ∈ marked, ∀ y ∈ succ x, y ∈ marked ∨ y ∈ work

private theorem closing_visit {work marked rest : List α} {node : α}
    (h : Closing succ work marked) (hf : work.filter (· ∉ marked) = node :: rest) :
    Closing succ (succ node ++ rest) (node :: marked) := by
  have hn : node ∈ work ∧ node ∉ marked := by
    have hmem : node ∈ work.filter (· ∉ marked) := hf ▸ mem_cons_self
    simpa using hmem
  refine ⟨nodup_cons.mpr ⟨hn.2, h.nodup⟩, fun x hx y hy => ?_⟩
  rcases mem_cons.mp hx with rfl | hx
  · exact .inr (mem_append_left _ hy)
  · rcases h.succ x hx y hy with hm | hw
    · exact .inl (mem_cons_of_mem _ hm)
    · by_cases hm : y ∈ marked
      · exact .inl (mem_cons_of_mem _ hm)
      · have hmem : y ∈ work.filter (· ∉ marked) := by simp [hw, hm]
        rw [hf] at hmem
        rcases mem_cons.mp hmem with rfl | hr
        · exact .inl mem_cons_self
        · exact .inr (mem_append_right _ hr)

private theorem mark_closing {nodes fuel work marked} (h : Closing succ work marked)
    (hu : ∀ x ∈ nodes, ∀ y ∈ succ x, y ∈ nodes) (hw : work ⊆ nodes)
    (hm : marked ⊆ nodes) (hf : nodes.length ≤ fuel + marked.length) :
    work ⊆ mark succ fuel work marked ∧
      ∀ x ∈ mark succ fuel work marked, ∀ y ∈ succ x, y ∈ mark succ fuel work marked := by
  induction fuel generalizing work marked with
  | zero =>
    -- no fuel is left only when every node is marked
    have hall : nodes ⊆ marked :=
      (subperm_of_subset h.nodup hm).perm_of_length_le (by omega) |>.symm.subset
    exact ⟨fun x hx => hall (hw hx), fun x hx y hy => hall (hu x (hm hx) y hy)⟩
  | succ fuel ih =>
    rw [mark]
    split
    next hfil =>
      have hsub : work ⊆ marked := by
        intro x hx
        by_contra hn
        have hmem : x ∈ work.filter (· ∉ marked) := by simp [hx, hn]
        rw [hfil] at hmem
        cases hmem
      refine ⟨hsub, fun x hx y hy => ?_⟩
      rcases h.succ x hx y hy with hy | hy
      · exact hy
      · exact hsub hy
    next node rest hfil =>
      have hin : ∀ x ∈ node :: rest, x ∈ work := by
        intro x hx
        rw [← hfil] at hx
        exact (mem_filter.mp hx).1
      have hno : node ∈ nodes := hw (hin node (by simp))
      obtain ⟨hwo, hsu⟩ := ih (closing_visit succ h hfil)
        (fun x hx => (mem_append.mp hx).elim (hu node hno x)
          fun hr => hw (hin x (mem_cons_of_mem _ hr)))
        (fun x hx => (mem_cons.mp hx).elim (· ▸ hno) fun hx => hm hx)
        (by simp only [length_cons]; omega)
      refine ⟨fun x hx => ?_, hsu⟩
      by_cases hxm : x ∈ marked
      · exact subset_mark succ _ _ _ (mem_cons_of_mem _ hxm)
      · have hmem : x ∈ work.filter (· ∉ marked) := by simp [hx, hxm]
        rw [hfil] at hmem
        rcases mem_cons.mp hmem with rfl | hr
        · exact subset_mark succ _ _ _ mem_cons_self
        · exact hwo (mem_append_right _ hr)

def Reachable (roots : List α) (x : α) : Prop :=
  ∃ r ∈ roots, Relation.ReflTransGen (fun a b => b ∈ succ a) r x

omit [DecidableEq α] in
variable {roots : List α} {x : α}

theorem Reachable.root (h : x ∈ roots) : Reachable succ roots x := ⟨x, h, .refl⟩

omit [DecidableEq α] in
theorem Reachable.step {succ} {y : α} (h : Reachable succ roots x)
    (hy : y ∈ succ x) : Reachable succ roots y := by
  obtain ⟨r, hr, hx⟩ := h
  exact ⟨r, hr, hx.tail hy⟩

omit [DecidableEq α] in
/-- A set that contains the roots and is closed under successors contains what is reachable. -/
theorem Reachable.induction {succ} {P : α → Prop} (hr : ∀ r ∈ roots, P r)
    (hs : ∀ x, P x → ∀ y ∈ succ x, P y) (h : Reachable succ roots x) : P x := by
  obtain ⟨r, hro, hx⟩ := h
  induction hx with
  | refl => exact hr r hro
  | tail _ hy ih => exact hs _ ih _ hy

/-- Nothing is marked but what is reachable. -/
theorem reachable_of_mem_mark {fuel : ℕ} {work marked : List α}
    (hw : ∀ x ∈ work, Reachable succ roots x) (hm : ∀ x ∈ marked, Reachable succ roots x)
    (hx : x ∈ mark succ fuel work marked) : Reachable succ roots x := by
  induction fuel generalizing work marked with
  | zero => exact hm x hx
  | succ fuel ih =>
    rw [mark] at hx
    split at hx
    · exact hm x hx
    next node rest hfil =>
      have hmem : ∀ y ∈ node :: rest, y ∈ work := fun y hy =>
        (mem_filter.mp (hfil ▸ hy)).1
      have hn := hw node (hmem node mem_cons_self)
      refine ih (fun y hy => ?_) (fun y hy => ?_) hx
      · rcases mem_append.mp hy with hy | hy
        · exact hn.step hy
        · exact hw y (hmem y (mem_cons_of_mem _ hy))
      · rcases mem_cons.mp hy with rfl | hy
        · exact hn
        · exact hm y hy

section Closed

variable {succ} {nodes : List α} {fuel : ℕ} {roots : List α}
  (hu : ∀ x ∈ nodes, ∀ y ∈ succ x, y ∈ nodes) (hr : roots ⊆ nodes)
  (hf : nodes.length ≤ fuel)

include hu hr hf

theorem mark_closed {y : α} (hx : x ∈ mark succ fuel roots []) (hy : y ∈ succ x) :
    y ∈ mark succ fuel roots [] :=
  (mark_closing succ ⟨nodup_nil, by simp⟩ hu hr (by simp) (by simpa using hf)).2 x hx y hy

theorem mem_mark_iff : x ∈ mark succ fuel roots [] ↔ Reachable succ roots x :=
  ⟨reachable_of_mem_mark succ (fun _ h => .root succ h) (fun _ h => by cases h),
    Reachable.induction (fun _ h => (mark_closing succ ⟨nodup_nil, by simp⟩ hu hr (by simp)
      (by simpa using hf)).1 h)
      fun _ hx _ hy => mark_closed hu hr hf hx hy⟩

end Closed

end Reach
