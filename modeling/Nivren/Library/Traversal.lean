import Nivren.Library.Program

/-! Traversals with a stack of pending keys.

A key is visited unless it has been found before; a visit gives its value and the keys behind it, the
last of which comes next. The number of rounds is limited, since there may be no end of keys. Two
traversals whose visits give the same keys go in step.
-/

namespace Traversal

open Std Program
open ExtTreeMap (contains_iff_mem mem_iff_isSome_getElem? mem_insert)

variable {ε S κ ν : Type} {cmp : κ → κ → Ordering} [TransCmp cmp]

/-- Visits keys until none is pending; gives nothing when the rounds do not suffice. -/
def drain (visit : κ → Fallible ε S (ν × List κ)) :
    ℕ → List κ → ExtTreeMap κ ν cmp → Fallible ε S (Option (ExtTreeMap κ ν cmp))
  | _, [], found => return some found
  | 0, _ :: _, _ => return none
  | fuel + 1, key :: rest, found =>
    if found.contains key then drain visit fuel rest found
    else do
      let (value, children) ← visit key
      drain visit fuel (children.reverse ++ rest) (found.insert key value)

variable {found : ExtTreeMap κ ν cmp} {pending : List κ} {fuel : ℕ} {s' s : S}

section Invariant

variable {visit : κ → Fallible ε S (ν × List κ)} {I J : S → Prop} {P : κ → ν → Prop}

/-- What every visit keeps and gives, a traversal keeps and gives; what is found stays. -/
theorem ensures_drain [LawfulEqCmp cmp]
    (hvi : ∀ key s, I s → Ensures (visit key) s (fun r s' => I s' ∧ P key r.1) fun _ s' => J s')
    {fuel : ℕ} {pending : List κ} {found : ExtTreeMap κ ν cmp} {s : S} (hs : I s)
    (hf : ∀ (key : κ) (value : ν), found[key]? = some value → P key value) :
    Ensures (drain visit fuel pending found) s (fun r s' => I s' ∧ ∀ result, r = some result →
        (∀ (key : κ) (value : ν), result[key]? = some value → P key value) ∧
        ∀ (key : κ) (value : ν), found[key]? = some value → result[key]? = some value)
      fun _ s' => J s' := by
  induction fuel generalizing pending found s with
  | zero =>
    cases pending with
    | nil =>
      refine ⟨hs, ?_⟩
      rintro result ⟨⟩
      exact ⟨hf, fun _ _ h => h⟩
    | cons key rest => exact ⟨hs, nofun⟩
  | succ fuel ih =>
    cases pending with
    | nil =>
      refine ⟨hs, ?_⟩
      rintro result ⟨⟩
      exact ⟨hf, fun _ _ h => h⟩
    | cons key rest =>
      rw [drain]
      split
      · exact ih hs hf
      next hnew =>
        refine (hvi key s hs).bind ?_
        rintro ⟨value, children⟩ s' ⟨hs', hva⟩
        have hg : ∀ (other : κ) (v : ν), (found.insert key value)[other]? = some v → P other v := by
          intro other v hv
          rw [ExtTreeMap.getElem?_insert] at hv
          split at hv
          next heq =>
            cases LawfulEqCmp.eq_of_compare heq
            cases hv
            exact hva
          · exact hf other v hv
        refine (ih hs' hg).mono ?_ fun _ _ h => h
        rintro r s'' ⟨hs'', hre⟩
        refine ⟨hs'', fun result hr => ⟨(hre result hr).1, fun other v hv => ?_⟩⟩
        refine (hre result hr).2 other v ?_
        have hne : ¬ cmp key other = .eq := by
          intro heq
          cases LawfulEqCmp.eq_of_compare heq
          rw [ExtTreeMap.contains_eq_isSome_getElem?, hv] at hnew
          exact hnew rfl
        rw [ExtTreeMap.getElem?_insert, if_neg hne, hv]

/-- The first pending key is visited. -/
theorem ensures_drain_head {Q : Prop} {key : κ} {rest : List κ}
    (hv : ∀ s, Returns (visit key) s fun _ _ => Q) (hnew : key ∉ found) (fuel : ℕ) :
    Returns (drain visit fuel (key :: rest) found) s fun r _ => r ≠ none → Q := by
  cases fuel with
  | zero => exact fun h => absurd rfl h
  | succ fuel =>
    rw [drain, if_neg fun h => hnew (contains_iff_mem.mp h)]
    exact .bind (hv s) fun pair s' hQ => .of_forall fun _ _ _ => hQ

theorem drain_keeps [LawfulEqCmp cmp] {result : ExtTreeMap κ ν cmp}
    (h : exec (drain visit fuel pending found) s = (.ok (some result), s')) {key : κ} {value : ν}
    (hv : found[key]? = some value) : result[key]? = some value := by
  have hrun := @ensures_drain ε S κ ν cmp _ visit (fun _ => True) (fun _ => True) (fun _ _ => True) _
    (fun _ _ _ => Returns.of_forall fun _ _ => ⟨trivial, trivial⟩) fuel pending found s trivial
    fun _ _ _ => trivial
  rw [Ensures, h] at hrun
  exact (hrun.2 result rfl).2 key value hv

end Invariant

/-- More rounds than suffice change nothing. -/
theorem exec_drain_add {visit : κ → Fallible ε S (ν × List κ)} (more : ℕ)
    {result : ExtTreeMap κ ν cmp}
    (h : exec (drain visit fuel pending found) s = (.ok (some result), s')) :
    exec (drain visit (fuel + more) pending found) s = (.ok (some result), s') := by
  induction fuel generalizing pending found s with
  | zero =>
    cases pending with
    | nil =>
      cases h
      cases 0 + more <;> rfl
    | cons key rest => cases h
  | succ fuel ih =>
    cases pending with
    | nil =>
      cases h
      cases fuel + 1 + more <;> rfl
    | cons key rest =>
      rw [drain] at h
      rw [Nat.succ_add, drain]
      split
      next hf =>
        rw [if_pos hf] at h
        exact ih h
      next hnew =>
        rw [if_neg hnew] at h
        obtain ⟨pair, s₁, hv, h⟩ := exec_bind_eq_ok h
        rw [exec_bind, hv]
        exact ih h

theorem leaves_drain {γ : Type} {f : S → γ} {visit : κ → Fallible ε S (ν × List κ)}
    (hv : ∀ key, Leaves f (visit key)) (fuel : ℕ) (pending : List κ) (found : ExtTreeMap κ ν cmp) :
    Leaves f (drain visit fuel pending found) := by
  induction fuel generalizing pending found with
  | zero => cases pending <;> exact .pure _
  | succ fuel ih =>
    cases pending with
    | nil => exact .pure _
    | cons key rest => exact .ite (ih _ _) (.bind (hv key) fun pair => ih _ _)

section Lockstep

variable {ε' S' ν' : Type} {visit : κ → Fallible ε S (ν × List κ)}
  {visit' : κ → Fallible ε' S' (ν' × List κ)} {children : ν → List κ} {image : κ → ν → ν'}
  {Good : κ → Prop} {I : S' → Prop} {result : ExtTreeMap κ ν cmp}

variable {found' : ExtTreeMap κ ν' cmp}

/-- What is left to find when nothing is pending. -/
theorem or_map_eq (hsa : ∀ key : κ, key ∈ found → (key ∈ found' ↔ key ∈ found)) (key : κ) :
    found'[key]? = (found'[key]?).or ((found[key]?).map (image key)) := by
  cases hf : found'[key]? with
  | some value => rfl
  | none =>
    cases hfo : found[key]? with
    | none => rfl
    | some value =>
      have hmem : key ∈ found := mem_iff_isSome_getElem?.mpr (by rw [hfo]; rfl)
      have hm := mem_iff_isSome_getElem?.mp ((hsa key hmem).mpr hmem)
      rw [hf] at hm
      cases hm

/-- A second traversal over what a first one has found. Its visits succeed at good keys, and then give
the same keys as those of the first. -/
theorem ensures_lockstep [LawfulEqCmp cmp]
    (hc : ∀ key s value more s', exec (visit key) s = (.ok (value, more), s') →
      more = children value)
    (hvi : ∀ (key : κ) (value : ν), result[key]? = some value → ∀ t, I t →
      Ensures (visit' key) t (fun r t' => I t' ∧ Good key ∧ r = (image key value, children value))
        fun _ _ => ¬ Good key) {t : S'}
    (hrun : exec (drain visit fuel pending found) s = (.ok (some result), s'))
    (hsa : ∀ key : κ, key ∈ result → (key ∈ found' ↔ key ∈ found)) (ht : I t) :
    Ensures (drain visit' fuel pending found') t (fun r t' => I t' ∧ ∃ result', r = some result' ∧
        (∀ key : κ, result'[key]? = (found'[key]?).or ((result[key]?).map (image key))) ∧
        ∀ key : κ, key ∈ result → key ∉ found → Good key)
      fun _ _ => ∃ key : κ, key ∈ result ∧ ¬ Good key := by
  have hem : ∀ {found : ExtTreeMap κ ν cmp} {found' : ExtTreeMap κ ν' cmp} {t : S'}, I t →
      (∀ key : κ, key ∈ result → (key ∈ found' ↔ key ∈ found)) → found = result →
      I t ∧ ∃ result', some found' = some result' ∧
        (∀ key : κ, result'[key]? = (found'[key]?).or ((result[key]?).map (image key))) ∧
        ∀ key : κ, key ∈ result → key ∉ found → Good key := by
    rintro found found' t ht hsa rfl
    exact ⟨ht, found', rfl, or_map_eq hsa, fun key hin hout => absurd hin hout⟩
  induction fuel generalizing pending found found' s t with
  | zero =>
    cases pending with
    | nil => exact hem ht hsa (by cases hrun; rfl)
    | cons key rest => cases hrun
  | succ fuel ih =>
    cases pending with
    | nil => exact hem ht hsa (by cases hrun; rfl)
    | cons key rest =>
      rw [drain] at hrun ⊢
      by_cases hf : key ∈ found
      · -- both pass over the key
        have hr : key ∈ result := by
          obtain ⟨value, hv⟩ := Option.isSome_iff_exists.mp (mem_iff_isSome_getElem?.mp hf)
          rw [if_pos (contains_iff_mem.mpr hf)] at hrun
          exact mem_iff_isSome_getElem?.mpr (by rw [drain_keeps hrun hv]; rfl)
        rw [if_pos (contains_iff_mem.mpr hf)] at hrun
        rw [if_pos (contains_iff_mem.mpr ((hsa key hr).mpr hf))]
        exact ih hrun hsa ht
      · rw [if_neg fun h => hf (contains_iff_mem.mp h)] at hrun
        obtain ⟨⟨value, more⟩, s₁, hfi, hrun⟩ := exec_bind_eq_ok hrun
        have hm := hc key s value more s₁ hfi
        have hv : result[key]? = some value := drain_keeps hrun (by simp)
        have hr : key ∈ result := mem_iff_isSome_getElem?.mpr (by rw [hv]; rfl)
        have hnew : key ∉ found' := fun h => hf ((hsa key hr).mp h)
        rw [if_neg fun h => hnew (contains_iff_mem.mp h), ensures_bind]
        refine (hvi key value hv t ht).mono ?_ fun _ _ h => ⟨key, hr, h⟩
        rintro _ t₁ ⟨ht₁, hgo, rfl⟩
        rw [hm] at hrun
        refine (ih hrun (fun other hot => ?_) ht₁).mono ?_ fun _ _ h => h
        · rw [mem_insert, mem_insert, hsa other hot]
        · rintro r t₂ ⟨ht₂, result', rfl, hall, hg⟩
          refine ⟨ht₂, result', rfl, fun other => ?_, fun other hin hout => ?_⟩
          · rw [hall other, ExtTreeMap.getElem?_insert]
            by_cases heq : cmp key other = .eq
            · cases LawfulEqCmp.eq_of_compare heq
              have hn : found'[key]? = none := by simpa using hnew
              simp [hv, hn]
            · rw [if_neg heq]
          · by_cases heq : cmp key other = .eq
            · cases LawfulEqCmp.eq_of_compare heq
              exact hgo
            · exact hg other hin fun h => (mem_insert.mp h).elim heq hout

end Lockstep

end Traversal
