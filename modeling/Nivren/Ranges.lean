import Nivren.Plans

/-! Integer ranges of `std.iter`.

The number of elements is computed when the range is made; the elements come from repeated checked
addition, one call of `next` after another.
-/

namespace Nivren.Iterators

structure IteratorRange where
  next : Int
  end_ : Int
  step : Int
  done : Bool

def expectedValue {β : Type} (name expected : String) (found : Value β) (span : Span) : Failure :=
  .error (errorAt (name ++ " expects " ++ expected ++ ", found " ++ found.typeName) span)

def readInt {β : Type} (name : String) (span : Span) : Value β → Result Int
  | .int value => .ok value
  | other => .error (expectedValue name "Int" other span)

/-- The differences of two 64-bit numbers are exact in the 128 bits the source takes them in. -/
def rangeCount (start end_ step : Int) : Int :=
  let distance := if 0 < step then max (end_ - start) 0 else max (start - end_) 0
  let stride : Int := step.natAbs
  (distance + stride - 1).tdiv stride

/-- What the language sees is the range as an iterator, or the text of an `Err`. -/
def nativeIteratorRange {β : Type} (start end_ step : Value β) (span : Span) :
    Result (Except String IteratorRange) := do
  let start ← readInt "std.iter.range" span start
  let end_ ← readInt "std.iter.range" span end_
  let step ← readInt "std.iter.range" span step
  if step = 0 then return .error "std.iter.range step cannot be zero"
  else if 1000000 < rangeCount start end_ step then
    return .error "std.iter.range refuses to produce more than 1000000 values"
  else return .ok ⟨start, end_, step, false⟩

def reached (end_ step value : Int) : Bool :=
  (0 < step && end_ ≤ value) || (step < 0 && value ≤ end_)

/-- The branch of `iterator_next_locked` for ranges; the number is given as an `Int` value. -/
def IteratorRange.call (range : IteratorRange) : Option Int × IteratorRange :=
  if range.done || reached range.end_ range.step range.next then (none, { range with done := true })
  else (some range.next, match Width.i64.checkedAdd range.next range.step with
    | some next => { range with next := next }
    | none => { range with done := true })

/-- The range after the given number of calls. -/
def IteratorRange.after (range : IteratorRange) : ℕ → IteratorRange
  | 0 => range
  | calls + 1 => (range.after calls).call.2

variable {start end_ step value : Int} {range : IteratorRange}

/-- The range stands before the given 64-bit value, or it has ended and the value is past its
end. -/
def Stands (end_ step value : Int) (range : IteratorRange) : Prop :=
  range = ⟨value, end_, step, false⟩ ∧ Width.i64.fit value = some value ∨
    range.done = true ∧ reached end_ step value = true

theorem fit_eq_some {w : Width} {n : Int} : w.fit n = some n ↔ w.minimum ≤ n ∧ n ≤ w.maximum := by
  simp [Width.fit]

theorem reached_add (h : reached end_ step value = true) : reached end_ step (value + step) = true := by
  simp only [reached, Bool.or_eq_true, Bool.and_eq_true, decide_eq_true_eq] at h ⊢
  omega

section Calls

variable (he : Width.i64.fit end_ = some end_)
include he

/-- One call gives the value the range stands before and goes on to the next one. -/
theorem Stands.call (h : Stands end_ step value range) :
    range.call.1 = (if reached end_ step value then none else some value) ∧
      (reached end_ step value = false → Width.i64.fit value = some value) ∧
      Stands end_ step (value + step) range.call.2 := by
  obtain ⟨rfl, hv⟩ | ⟨hd, hr⟩ := h
  · cases hr : reached end_ step value with
    | true => simp [IteratorRange.call, Stands, hr, reached_add hr]
    | false =>
      simp only [IteratorRange.call, Width.checkedAdd, hr, Bool.or_false, Bool.false_eq_true, if_false,
        hv, true_and, forall_const]
      by_cases hf : Width.i64.fit (value + step) = some (value + step)
      · rw [hf]
        exact .inl ⟨rfl, hf⟩
      · have hn : Width.i64.fit (value + step) = none := if_neg (mt fit_eq_some.mpr hf)
        rw [hn]
        refine .inr ⟨rfl, ?_⟩
        rw [fit_eq_some] at hv he hf
        simp only [reached, Bool.or_eq_true, Bool.and_eq_true, decide_eq_true_eq]
        omega
  · simp [IteratorRange.call, Stands, hd, hr, reached_add hr]

theorem Stands.after (h : Stands end_ step start range) (k : ℕ) :
    Stands end_ step (start + k * step) (range.after k) := by
  induction k with
  | zero => simpa [IteratorRange.after] using h
  | succ k ih =>
    have hn := (ih.call he).2.2
    rwa [show start + k * step + step = start + (k + 1 : ℕ) * step by push_cast; ring] at hn

end Calls

/-- The number computed up front is the number of values before the end. -/
theorem lt_rangeCount (hs : step ≠ 0) (k : ℕ) :
    (k : Int) < rangeCount start end_ step ↔ reached end_ step (start + k * step) = false := by
  have hpos : 0 ≤ (k : Int) * step.natAbs := Int.mul_nonneg (by omega) (by omega)
  unfold rangeCount
  rw [← Bool.not_eq_true, Int.tdiv_eq_ediv_of_nonneg (by split <;> omega), ← Int.add_one_le_iff,
    Int.le_ediv_iff_mul_le (by omega), Int.add_mul, Int.one_mul]
  simp only [reached, Bool.or_eq_true, Bool.and_eq_true, decide_eq_true_eq]
  rcases lt_or_gt_of_ne hs with hn | hp
  · have hk : (k : Int) * step.natAbs = -(k * step) := by
      rw [Int.ofNat_natAbs_of_nonpos hn.le, Int.mul_neg]
    rw [if_neg (by omega)]
    omega
  · have hk : (k : Int) * step.natAbs = k * step := by rw [Int.natAbs_of_nonneg hp.le]
    rw [if_pos hp]
    omega

/-- The calls give the values from the start on that lie before the end, each a 64-bit number, and
then nothing. -/
def IteratorRange.Yields (range : IteratorRange) (start end_ step : Int) : Prop :=
  ∃ count ≤ 1000000, ∀ k : ℕ, (k < count ↔ reached end_ step (start + k * step) = false) ∧
    (k < count → Width.i64.fit (start + k * step) = some (start + k * step)) ∧
    (range.after k).call.1 = if k < count then some (start + k * step) else none

theorem range_exact {β : Type} {span : Span} (hs : Width.i64.fit start = some start)
    (he : Width.i64.fit end_ = some end_) (h : nativeIteratorRange (.int start : Value β)
      (.int end_) (.int step) span = .ok (.ok range)) : range.Yields start end_ step := by
  simp only [nativeIteratorRange, readInt, bind, Except.bind, pure, Except.pure] at h
  split_ifs at h with hz hc <;> cases h
  have hst : Stands end_ step start ⟨start, end_, step, false⟩ := .inl ⟨rfl, hs⟩
  refine ⟨(rangeCount start end_ step).toNat, by omega, fun k => ?_⟩
  have hk : k < (rangeCount start end_ step).toNat ↔ reached end_ step (start + k * step) = false := by
    rw [← lt_rangeCount hz]
    omega
  obtain ⟨hc, hf, -⟩ := (hst.after he k).call he
  exact ⟨hk, fun h => hf (hk.mp h), by simp only [hc, hk, ← Bool.not_eq_true, ite_not]⟩

/-- The addition behind the last value overflows. -/
theorem range_exact_at_the_edge : IteratorRange.Yields ⟨2 ^ 63 - 2, 2 ^ 63 - 1, 5, false⟩
    (2 ^ 63 - 2) (2 ^ 63 - 1) 5 :=
  @range_exact _ _ _ _ Unit ⟨1, 1⟩ (by decide) (by decide) rfl

end Nivren.Iterators
