import Nivren.BareHost

/-! Exactness of integer arithmetic.

Every operator computes in a machine type with checked operations; for the fixed-width kinds that is
a wider type, and the range of the kind is checked afterwards. `checked_rem` also refuses the least
number by minus one, whose remainder is nought.
-/

namespace Nivren

variable {β : Type}

inductive IntKind
  | int | uint | u128
  | fixed (kind : FixedKind)

namespace IntKind

def width : IntKind → Width
  | int => .i64
  | uint => .u64
  | u128 => .u128
  | fixed kind => kind.width

/-- The machine type the operators compute in. -/
def carrier : IntKind → Width
  | fixed _ => FixedInt.carrier
  | k => k.width

def signed : IntKind → Bool
  | int => true
  | fixed kind => kind.signed
  | _ => false

/-- What the operators make of a number of the machine type. -/
def make : IntKind → Int → Option (Value β)
  | int, n => some (.int n)
  | uint, n => some (.uint n.toNat)
  | u128, n => some (.u128 n.toNat)
  | fixed kind, n => (FixedInt.new kind n).map .fixedInt

/-- The value of the kind for a number in its range. -/
def value (k : IntKind) (n : Int) : Option (Value β) := (k.width.fit n).bind k.make

end IntKind

def exactResult (operator : TokenKind) (a b : Int) : Option Int :=
  match operator with
  | .plus => some (a + b)
  | .minus => some (a - b)
  | .star => some (a * b)
  | .slash => if b = 0 then none else some (a.tdiv b)
  | .percent => if b = 0 then none else some (a.tmod b)
  | _ => none

/-- The result is the expected value, and an error where there is none. -/
def Answers (result : Result (Value β)) : Option (Value β) → Prop
  | some value => result = .ok value
  | none => ∃ e, result = .error (.error e)

/-- On the values of two numbers, both engines compute as the integers do. -/
structure IntKind.Exact (k : IntKind) (lib : RustLibrary) (a b : Int) (left right : Value β)
    (operator : TokenKind) (span : Span) : Prop where
  tree : Answers (binary lib left operator right span) ((exactResult operator a b).bind k.value)
  vm : Answers (vmBinary lib left operator right span) ((exactResult operator a b).bind k.value)
  negated : k.signed = true → Answers (negate lib left span) (k.value (-a))
  equal : left.beq lib right = decide (a = b)
  ordered : ∀ order decision, compareBy (fun a b : Int => decide (a < b)) (fun a b => decide (a ≤ b))
    a order b = some decision → binary lib left order right span = .ok (.bool decision)

variable {k : IntKind} {n a b : Int} {v left right : Value β} {lib : RustLibrary}
  {operator : TokenKind} {span : Span}

theorem value_eq_some (h : k.value n = some v) :
    (k.width.minimum ≤ n ∧ n ≤ k.width.maximum) ∧ k.make n = some v := by
  obtain ⟨m, hm, hv⟩ := Option.bind_eq_some_iff.mp h
  obtain ⟨hr, ⟨⟩⟩ := Option.ite_none_right_eq_some.mp hm
  exact ⟨hr, hv⟩

theorem value_of_range (h : k.width.minimum ≤ n ∧ n ≤ k.width.maximum) :
    k.value n = (k.make n : Option (Value β)) := by
  rw [IntKind.value, Width.fit, if_pos h, Option.bind_some]

theorem width_le_carrier (k : IntKind) :
    k.carrier.minimum ≤ k.width.minimum ∧ k.width.minimum ≤ 0 ∧ 0 ≤ k.width.maximum ∧
      k.width.maximum ≤ k.carrier.maximum := by
  cases k with
  | fixed kind => cases kind <;> decide
  | _ => decide

/-- The check of the range after the machine's makes up for the wider type. -/
theorem carrier_make (k : IntKind) (n : Int) :
    (k.carrier.fit n).bind k.make = (k.value n : Option (Value β)) := by
  have hle := width_le_carrier k
  by_cases h : k.width.minimum ≤ n ∧ n ≤ k.width.maximum
  · rw [value_of_range h, Width.fit, if_pos (by omega), Option.bind_some]
  · cases k with
    | fixed kind =>
      have hn : FixedInt.new kind n = none := dif_neg h
      rw [IntKind.value, Width.fit, Width.fit, if_neg h]
      split <;> simp [IntKind.make, hn]
    | _ => rfl

theorem answers_checked (k : IntKind) (overflow : String) (n : Int) :
    Answers (checkedValue k.make overflow span (k.carrier.fit n)) (k.value n : Option (Value β)) := by
  rw [← carrier_make, checkedValue]
  cases (k.carrier.fit n).bind (k.make : Int → Option (Value β)) with
  | none => exact ⟨_, rfl⟩
  | some value => rfl

/-- The value a number has in each kind. -/
theorem eq_of_value (h : k.value n = some v) : match k with
    | .int => v = .int n
    | .uint => ∃ m : ℕ, n = m ∧ v = .uint m
    | .u128 => ∃ m : ℕ, n = m ∧ v = .u128 m
    | .fixed kind => ∃ h, v = .fixedInt ⟨kind, n, h⟩ := by
  obtain ⟨hr, hv⟩ := value_eq_some h
  cases k with
  | int => exact (Option.some.inj hv).symm
  | uint | u128 => exact ⟨_, (Int.toNat_of_nonneg hr.1).symm, (Option.some.inj hv).symm⟩
  | fixed kind =>
    obtain ⟨x, hx, rfl⟩ := Option.map_eq_some_iff.mp hv
    obtain ⟨_, ⟨⟩⟩ := Option.dite_none_right_eq_some.mp hx
    exact ⟨_, rfl⟩

section Operands

variable (ha : k.value a = some left) (hb : k.value b = some right)
include ha hb

theorem numericBinary_eq (lib : RustLibrary) (span : Span) : ∃ overflow, ∀ operator,
    numericBinary lib left operator right span =
      some (k.carrier.arithmetic.binary k.make overflow a operator b span) := by
  have ha := eq_of_value ha
  have hb := eq_of_value hb
  cases k with
  | int =>
    cases ha
    cases hb
    exact ⟨_, fun _ => rfl⟩
  | uint | u128 =>
    obtain ⟨_, rfl, rfl⟩ := ha
    obtain ⟨_, rfl, rfl⟩ := hb
    exact ⟨_, fun _ => rfl⟩
  | fixed kind =>
    obtain ⟨_, rfl⟩ := ha
    obtain ⟨_, rfl⟩ := hb
    exact ⟨_, fun _ => congrArg some (if_neg (not_not.mpr rfl))⟩

theorem beq_eq : left.beq lib right = decide (a = b) := by
  have ha := eq_of_value ha
  have hb := eq_of_value hb
  cases k with
  | int =>
    cases ha
    cases hb
    rfl
  | uint | u128 =>
    obtain ⟨_, rfl, rfl⟩ := ha
    obtain ⟨_, rfl, rfl⟩ := hb
    rw [Value.beq, Bool.beq_eq_decide_eq, decide_eq_decide, Int.natCast_inj]
  | fixed kind =>
    obtain ⟨_, rfl⟩ := ha
    obtain ⟨_, rfl⟩ := hb
    simp [Value.beq, Bool.beq_eq_decide_eq]

end Operands

theorem vmBinary_eq : vmBinary lib left operator right span = binary lib left operator right span := by
  cases left <;> cases right <;> first | rfl | cases operator <;> rfl

theorem answers_negate (ha : k.value a = some left) (hs : k.signed = true) :
    Answers (negate lib left span) (k.value (-a)) := by
  have ha := eq_of_value ha
  rw [← carrier_make]
  cases k with
  | int =>
    cases ha
    rw [negate, Width.checkedNeg, IntKind.carrier, IntKind.width]
    cases Width.i64.fit (-a) with
    | none => exact ⟨_, rfl⟩
    | some n => rfl
    exact nofun
  | uint | u128 => cases hs
  | fixed kind =>
    obtain ⟨_, rfl⟩ := ha
    replace hs : kind.signed = true := hs
    simp only [negate, hs, if_pos, Width.checkedNeg, IntKind.carrier]
    cases FixedInt.carrier.fit (-a) with
    | none => exact ⟨_, rfl⟩
    | some n =>
      simp only [Option.bind_some, IntKind.make]
      cases FixedInt.new kind n with
      | none => exact ⟨_, rfl⟩
      | some number => rfl

/-- The remainder lies between the dividend and nought. -/
theorem tmod_between (a b : Int) :
    (0 ≤ a.tmod b ∧ a.tmod b ≤ a) ∨ (a ≤ a.tmod b ∧ a.tmod b ≤ 0) := by
  have hle : (a.tmod b).natAbs ≤ a.natAbs := Int.natAbs_tmod a b ▸ Nat.mod_le _ _
  obtain ha | ha := Int.le_total 0 a
  · have := Int.tmod_nonneg b ha
    omega
  · have := Int.tmod_nonneg b (Int.neg_nonneg_of_nonpos ha)
    rw [Int.neg_tmod] at this
    omega

/-- The quotient leaves the machine type for the least number by minus one alone, where the kind is
as wide as the machine type. -/
theorem fit_tdiv_eq_none (ha : k.width.minimum ≤ a ∧ a ≤ k.width.maximum)
    (hb : k.width.minimum ≤ b ∧ b ≤ k.width.maximum) : k.carrier.fit (a.tdiv b) = none ↔
      (k = .int ∨ k = .fixed .i128) ∧ a = k.width.minimum ∧ b = -1 := by
  have hneg : b = -1 → a.tdiv b = -a := by rintro rfl; simp
  have hpos : 0 ≤ b → (0 ≤ a.tdiv b ∧ a.tdiv b ≤ a) ∨ (a ≤ a.tdiv b ∧ a.tdiv b ≤ 0) := fun hb => by
    have hle := Int.natAbs_tdiv_le_natAbs a b
    obtain ha | ha := Int.le_total 0 a
    · have := Int.tdiv_nonneg ha hb
      omega
    · have := Int.tdiv_nonneg (Int.neg_nonneg_of_nonpos ha) hb
      rw [Int.neg_tdiv] at this
      omega
  have hhalf : b ≤ -2 → (a.tdiv b).natAbs ≤ a.natAbs / 2 := fun hb => by
    rw [Int.natAbs_tdiv]
    exact Nat.div_le_div_left (by omega) (by decide)
  rw [Width.fit, ite_eq_right_iff, imp_iff_not (Option.some_ne_none _)]
  cases k with
  | fixed kind =>
    cases kind <;> simp only [IntKind.width, IntKind.carrier, FixedKind.width, FixedInt.carrier,
      Width.u64, reduceCtorEq, IntKind.fixed.injEq, or_self, or_true, false_and, true_and,
      iff_false] at * <;> omega
  | _ =>
    simp only [IntKind.width, IntKind.carrier, Width.i64, Width.u64, Width.u128,
      reduceCtorEq, or_self, true_or, false_and, true_and, iff_false] at *
    omega

/-- The least number of a signed machine type by minus one. -/
def IntKind.Refuses (k : IntKind) (operator : TokenKind) (a b : Int) : Prop :=
  operator = .percent ∧ (k = .int ∨ k = .fixed .i128) ∧ a = k.width.minimum ∧ b = -1

theorem answers_remainder (overflow : String) (hne : b ≠ 0)
    (ha : k.width.minimum ≤ a ∧ a ≤ k.width.maximum)
    (hb : k.width.minimum ≤ b ∧ b ≤ k.width.maximum) :
    Answers (checkedValue k.make overflow span (k.carrier.checkedRem a b))
      (k.value (a.tmod b) : Option (Value β)) ↔ ¬ k.Refuses .percent a b := by
  rw [Width.checkedRem, if_neg hne, IntKind.Refuses, ← fit_tdiv_eq_none ha hb]
  cases hq : k.carrier.fit (a.tdiv b) with
  | none =>
    obtain ⟨hk, -, rfl⟩ := (fit_tdiv_eq_none ha hb).mp hq
    rw [Int.tmod_neg, Int.tmod_one]
    refine iff_of_false ?_ (by simp)
    obtain rfl | rfl := hk <;> exact nofun
  | some q =>
    have hr := @answers_checked β span k overflow (a.tmod b)
    have hle := width_le_carrier k
    have hbetween := tmod_between a b
    rw [Width.fit, if_pos (by omega)] at hr
    simpa using hr

theorem answers_binary (overflow : String) (ha : k.width.minimum ≤ a ∧ a ≤ k.width.maximum)
    (hb : k.width.minimum ≤ b ∧ b ≤ k.width.maximum)
    (hop : operator ∈ [TokenKind.plus, .minus, .star, .slash, .percent]) :
    Answers (k.carrier.arithmetic.binary k.make overflow a operator b span)
      ((exactResult operator a b).bind k.value : Option (Value β)) ↔ ¬ k.Refuses operator a b := by
  have hother : operator ≠ .percent → ¬ k.Refuses operator a b := fun h hr => h hr.1
  simp only [List.mem_cons, List.not_mem_nil, or_false] at hop
  by_cases hzero : b = 0
  · subst hzero
    have hdefined : ¬ k.Refuses operator a 0 := fun h => absurd h.2.2.2 (by decide)
    obtain rfl | rfl | rfl | rfl | rfl := hop
    case inr.inr.inr.inl | inr.inr.inr.inr => exact iff_of_true ⟨_, rfl⟩ hdefined
    all_goals exact iff_of_true (answers_checked k overflow _) hdefined
  obtain rfl | rfl | rfl | rfl | rfl := hop
  case inr.inr.inr.inr =>
    simpa [Arithmetic.binary, Width.arithmetic, exactResult, hzero] using
      answers_remainder overflow hzero ha hb
  case inr.inr.inr.inl =>
    refine iff_of_true ?_ (hother (by simp))
    simpa [Arithmetic.binary, Width.arithmetic, exactResult, hzero, Width.checkedDiv] using
      answers_checked k overflow (a.tdiv b)
  all_goals exact iff_of_true (answers_checked k overflow _) (hother (by simp))

/-- Integer arithmetic is exact but for the remainder of the least `Int` or `I128` by minus one. -/
theorem exact_iff (ha : k.value a = some left) (hb : k.value b = some right)
    (hop : operator ∈ [TokenKind.plus, .minus, .star, .slash, .percent]) :
    k.Exact lib a b left right operator span ↔ ¬ k.Refuses operator a b := by
  obtain ⟨overflow, hnum⟩ := numericBinary_eq ha hb lib span
  have hbinary : binary lib left operator right span =
      k.carrier.arithmetic.binary k.make overflow a operator b span := by
    simp only [List.mem_cons, List.not_mem_nil, or_false] at hop
    obtain rfl | rfl | rfl | rfl | rfl := hop <;> simp only [binary, hnum]
  rw [← answers_binary overflow (value_eq_some ha).1 (value_eq_some hb).1 hop, ← hbinary]
  refine ⟨IntKind.Exact.tree, fun h => ⟨h, vmBinary_eq ▸ h, answers_negate ha, beq_eq ha hb, ?_⟩⟩
  intro order decision hd
  unfold compareBy at hd
  split at hd
  all_goals cases hd
  all_goals simp only [binary, hnum]
  all_goals rfl

theorem exact_seven_by_two : IntKind.int.Exact RustLibrary.bare (-7) 2 (.int (-7) : Value Unit)
    (.int 2) .percent ⟨0, 0⟩ :=
  (exact_iff rfl rfl (by decide)).mpr fun h => absurd h.2.2.2 (by decide)

/-- The remainder is nought, but the machine refuses to compute it. -/
theorem least_by_minus_one :
    (exactResult .percent (-(2 ^ 63)) (-1)).bind IntKind.int.value = some (.int 0 : Value Unit) ∧
      binary RustLibrary.bare (.int (-(2 ^ 63)) : Value Unit) .percent (.int (-1)) ⟨0, 0⟩ =
        fail "integer overflow" ⟨0, 0⟩ :=
  ⟨rfl, rfl⟩

end Nivren
