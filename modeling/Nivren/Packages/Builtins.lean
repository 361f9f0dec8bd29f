import Nivren.Library.Codec
import Nivren.Library.Program

/-! The standard functions the packages are written with. -/

namespace Nivren.Packages

open Codec

structure Problem where
  kind : String
  message : String
deriving DecidableEq

def maximum : ℕ := 16 * 1024 * 1024

/-- `std.text.concat`; two texts in memory never overflow the sum of their lengths. -/
def concat (left right : String) : Except Problem String :=
  if left.utf8ByteSize + right.utf8ByteSize > maximum then
    .error ⟨"text", "std.text.concat exceeds the 16777216 byte limit"⟩
  else .ok (left ++ right)

@[simp] theorem concat_eq_ok {a b c : String} :
    concat a b = .ok c ↔ c = a ++ b ∧ c.utf8ByteSize ≤ maximum := by
  unfold concat
  constructor
  · intro h
    split at h
    · cases h
    · cases h
      exact ⟨rfl, by rw [String.utf8ByteSize_append]; omega⟩
  · rintro ⟨rfl, h⟩
    rw [String.utf8ByteSize_append] at h
    exact if_neg (by omega)

end Nivren.Packages
