import Mathlib

/-! Ordered maps filled from lists. -/

namespace Maps

open Std

variable {α β : Type} {cmp : α → α → Ordering} [TransCmp cmp] [LawfulEqCmp cmp]

def insertAll (entries : List (α × β)) (m : ExtTreeMap α β cmp) : ExtTreeMap α β cmp :=
  entries.foldl (fun m entry => m.insert entry.1 entry.2) m

theorem getElem?_insertAll {entries : List (α × β)} (m : ExtTreeMap α β cmp)
    (hd : entries.Pairwise fun a b => ¬ cmp a.1 b.1 = .eq) (key : α) :
    (∀ value, (key, value) ∈ entries → (insertAll entries m)[key]? = some value) ∧
      ((∀ value, (key, value) ∉ entries) → (insertAll entries m)[key]? = m[key]?) := by
  induction entries generalizing m with
  | nil => exact ⟨nofun, fun _ => rfl⟩
  | cons entry rest ih =>
    obtain ⟨first, content⟩ := entry
    rw [List.pairwise_cons] at hd
    obtain ⟨hin, hout⟩ := ih (m.insert first content) hd.2
    constructor
    · intro value hv
      rcases List.mem_cons.mp hv with heq | hr
      · cases heq
        have hf : ∀ other, (key, other) ∉ rest := fun other hot => hd.1 _ hot ReflCmp.compare_self
        exact (hout hf).trans (by simp)
      · exact hin value hr
    · intro hnot
      refine (hout fun value hv => hnot value (List.mem_cons_of_mem _ hv)).trans ?_
      have hne : ¬ cmp first key = .eq := by
        intro heq
        cases LawfulEqCmp.eq_of_compare heq
        exact hnot content List.mem_cons_self
      rw [ExtTreeMap.getElem?_insert, if_neg hne]

/-- A map is what its entries give. -/
theorem insertAll_toList (m : ExtTreeMap α β cmp) : insertAll m.toList ∅ = m := by
  apply ExtTreeMap.ext_getElem?
  intro key
  obtain ⟨hin, hout⟩ := getElem?_insertAll (∅ : ExtTreeMap α β cmp)
    (ExtTreeMap.distinct_keys_toList (t := m)) key
  cases hkey : m[key]? with
  | some value => exact hin value (ExtTreeMap.mem_toList_iff_getElem?_eq_some.mpr hkey)
  | none =>
    have hnot : ∀ value, (key, value) ∉ m.toList := by
      intro value hv
      rw [ExtTreeMap.mem_toList_iff_getElem?_eq_some, hkey] at hv
      cases hv
    exact (hout hnot).trans ExtTreeMap.getElem?_empty

theorem nodup_keys (m : ExtTreeMap α β cmp) : (m.toList.map Prod.fst).Nodup := by
  refine List.pairwise_map.mpr (m.distinct_keys_toList.imp fun hne heq => hne ?_)
  rw [heq]
  exact ReflCmp.compare_self

theorem mem_foldl_insert {keys : List α} {s : ExtTreeSet α cmp} {key : α} :
    key ∈ keys.foldl (·.insert ·) s ↔ key ∈ keys ∨ key ∈ s := by
  induction keys generalizing s with
  | nil => simp
  | cons first rest ih =>
    rw [List.foldl_cons, ih, ExtTreeSet.mem_insert, LawfulEqCmp.compare_eq_iff_eq, List.mem_cons]
    tauto

theorem nodup_toList (s : ExtTreeSet α cmp) : s.toList.Nodup := by
  refine s.distinct_toList.imp fun hne heq => hne ?_
  rw [heq]
  exact ReflCmp.compare_self

theorem foldl_insert_toList (s : ExtTreeSet α cmp) : s.toList.foldl (·.insert ·) ∅ = s := by
  refine ExtTreeSet.ext_mem fun key => ?_
  rw [mem_foldl_insert, ExtTreeSet.mem_toList]
  simp

end Maps
