import Mathlib

/-! Where a pattern first stands in a list. -/

namespace Search

variable {α : Type} [BEq α] [LawfulBEq α]

/-- `windows(pattern.len()).position(|window| window == pattern)`, for patterns that are not empty. -/
def position (pattern : List α) : List α → Option ℕ
  | [] => none
  | first :: rest =>
    if pattern.isPrefixOf (first :: rest) then some 0 else (position pattern rest).map (· + 1)

variable {pattern t : List α} {n : ℕ}

theorem position_le (h : position pattern t = some n) : n + pattern.length ≤ t.length := by
  induction t generalizing n with
  | nil => cases h
  | cons first rest ih =>
    unfold position at h
    split at h
    next hst =>
      cases h
      have hl := (List.isPrefixOf_iff_prefix.mp hst).length_le
      omega
    · obtain ⟨m, hm, rfl⟩ := Option.map_eq_some_iff.mp h
      have hr := ih hm
      rw [List.length_cons]
      omega

theorem position_append {p q : α} {a rest : List α} (h : p ∉ a) :
    position [p, q] (a ++ p :: q :: rest) = some a.length := by
  induction a with
  | nil => simp [position]
  | cons first a ih =>
    rw [List.mem_cons, not_or] at h
    rw [List.cons_append, position, ih h.2]
    simp [h.1]

end Search
