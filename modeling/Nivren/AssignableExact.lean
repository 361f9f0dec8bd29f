import Nivren.Assignable

/-! Where `compatible` goes wrong.

For compatible types that are not assignable there is a world and a value of the one type that is not
a value of the other. The world declares every shape and choice with one field or case for each type
parameter, so a mismatch at any depth shows up in some value.
-/

namespace Nivren

open List

variable {β : Type}

variable {v : Value β}

def paramName (i : ℕ) : String := String.ofList (replicate i 'p')

variable {i : ℕ}

theorem paramName_inj {j : ℕ} : paramName i = paramName j ↔ i = j := by
  constructor
  · intro h
    have hlen := congrArg (fun s => s.toList.length) h
    simpa [paramName] using hlen
  · rintro rfl
    rfl

theorem lookup_paramNames (offset : ℕ) (as : List Ty) (width i : ℕ) (hi : i < width) :
    (((range' offset width).map paramName).zip as).lookup (paramName (offset + i)) = as[i]? := by
  induction width generalizing offset as i with
  | zero => omega
  | succ width ih =>
    cases as with
    | nil => simp
    | cons a as =>
      rw [List.range'_succ, map_cons, zip_cons_cons, lookup_cons]
      cases i with
      | zero => simp
      | succ i =>
        have hne : (paramName (offset + (i + 1)) == paramName offset) = false := by
          rw [beq_eq_false_iff_ne, Ne, paramName_inj]
          omega
        have hr := ih (offset + 1) as i (by omega)
        rw [Nat.add_assoc, Nat.add_comm 1] at hr
        rw [hne, hr]
        rfl

/-- The world of a heap: a shape has a field and a choice a case for each of `width` parameters. The
handle `0` is empty and the handle `i + 1` holds the heap's entry `i`. -/
def World.wide (width : ℕ) (heap : List (Value β × Value β)) : World β where
  records _ := some ((range width).map paramName,
    (range width).map fun i => (paramName i, .generic (paramName i)))
  enums _ := some ((range width).map paramName,
    ("unit", none) :: (range width).map fun i => (paramName i, some (.generic (paramName i))))
  generics _ v := ∃ n, v = .int n
  items
    | 0 => []
    | i + 1 => (heap[i]?.map Prod.fst).toList
  entries
    | 0 => []
    | i + 1 => heap[i]?.toList

variable {as : List Ty} {name : String}

section Wide

variable {width : ℕ} {heap : List (Value β × Value β)}

theorem substitute_paramName (hi : i < width) :
    (Ty.generic (paramName i)).substitute (((range width).map paramName).zip as) =
      as[i]?.getD .unknown := by
  have h := lookup_paramNames 0 as width i hi
  rw [Nat.zero_add, ← range_eq_range'] at h
  rw [Ty.substitute, h]

def recordOf (name : String) (width : ℕ) (field : ℕ → Value β) : Value β :=
  .record name ((range width).map fun i => (paramName i, field i))

theorem hasType_recordOf {field : ℕ → Value β} :
    HasType (World.wide width heap) (recordOf name width field) (.record name as) ↔
      ∀ i < width, HasType (World.wide width heap) (field i) (as[i]?.getD .unknown) := by
  constructor
  · intro h i hi
    cases h with
    | record hd hna h =>
      cases hd
      have hf := h (paramName i, field i) (mem_map.mpr ⟨i, mem_range.mpr hi, rfl⟩) _
        (mem_map.mpr ⟨i, mem_range.mpr hi, rfl⟩)
      rwa [substitute_paramName hi] at hf
  · intro h
    refine .record rfl (by simp [Function.comp_def]) fun v hv t ht => ?_
    obtain ⟨i, hi, rfl⟩ := mem_map.mp hv
    obtain ⟨j, hj, heq⟩ := mem_map.mp ht
    obtain ⟨hn, rfl⟩ := Prod.mk.injEq .. ▸ heq
    rw [hn, substitute_paramName (mem_range.mp hi)]
    exact h i (mem_range.mp hi)

theorem hasType_payload (hi : i < width) :
    HasType (World.wide width heap) (.enum name (paramName i) (some v)) (.enum name as) ↔
      HasType (World.wide width heap) v (as[i]?.getD .unknown) := by
  constructor
  · generalize hn : paramName i = variant
    intro h
    cases h with
    | payload hd hc h =>
      cases hd
      rcases mem_cons.mp hc with hc | hc
      · cases hc
      · obtain ⟨j, hj, heq⟩ := mem_map.mp hc
        obtain ⟨hna, hp⟩ := Prod.mk.injEq .. ▸ heq
        cases hp
        rwa [hna, ← hn, substitute_paramName hi] at h
  · intro h
    refine .payload rfl (mem_cons_of_mem _ (mem_map.mpr ⟨i, mem_range.mpr hi, rfl⟩)) ?_
    rwa [substitute_paramName hi]

end Wide

namespace Ty

mutual

/-- The type has no unknown and no function type in it, and the members of its modules have distinct
names. -/
def plain : Ty → Bool
  | .unknown | .function .. => false
  | .array t | .iterator t | .set t | .nullable t => t.plain
  | .map a b | .result a b | .transaction a b => a.plain && b.plain
  | .record _ ts | .enum _ ts => allPlain ts
  | .module ms => decide (ms.map Prod.fst).Nodup && membersPlain ms
  | _ => true

def allPlain : List Ty → Bool
  | [] => true
  | t :: ts => t.plain && allPlain ts

def membersPlain : List (String × Ty) → Bool
  | [] => true
  | (_, t) :: ms => t.plain && membersPlain ms

end

mutual

def width : Ty → ℕ
  | .array t | .iterator t | .set t | .nullable t => t.width
  | .map a b | .result a b | .transaction a b => max a.width b.width
  | .record _ ts | .enum _ ts => max ts.length (widthAll ts)
  | _ => 0

def widthAll : List Ty → ℕ
  | [] => 0
  | t :: ts => max t.width (widthAll ts)

end

mutual

/-- A value of the type in wide worlds. -/
def witness (width : ℕ) : Ty → Value β
  | .int | .generic _ => .int 0
  | .uint => .uint 0
  | .u128 => .u128 0
  | .float => .float 0
  | .string => .string ""
  | .bytes => .bytes []
  | .secretKey => .handle .secretKey 0
  | .bool => .bool false
  | .null | .unknown | .function .. => .null
  | .array _ => .array []
  | .iterator _ => .handle .iterator 0
  | .map .. => .map []
  | .set _ => .set []
  | .nullable t => witness width t
  | .record name ts => recordOf name width fun i => (witnesses width ts)[i]?.getD .null
  | .enum name _ => .enum name "unit" none
  | .enumNamespace name => .enumType ⟨0, name, [], []⟩
  | .protocolNamespace name => .protocolType ⟨0, name, []⟩
  | .result ok _ => .ok (witness width ok)
  | .module ms => .module 0 (memberWitnesses width ms)
  | .file => .handle .file 0
  | .tcpListener => .handle .tcpListener 0
  | .tcpStream => .handle .tcpStream 0
  | .tlsStream => .handle .tlsStream 0
  | .webSocket => .handle .webSocket 0
  | .tlsListener => .handle .tlsListener 0
  | .lock => .handle .lock 0
  | .lockGuard => .handle .lockGuard 0
  | .atomicInt => .handle .atomicInt 0
  | .nativeHandle => .handle .nativeHandle 0
  | .nativeLibrary => .handle .nativeLibrary 0
  | .transaction .. => .handle .transaction 0
  | .dateTime => .dateTime ""
  | .bigInt => .bigInt 0
  | .decimal => .decimal 0
  | .fixed kind => .fixedInt ⟨kind, 0, by cases kind <;> decide⟩
  | .task => .handle .task 0
  | .channel => .handle .channel 0

def witnesses (width : ℕ) : List Ty → List (Value β)
  | [] => []
  | t :: ts => witness width t :: witnesses width ts

def memberWitnesses (width : ℕ) : List (String × Ty) → List (String × Value β)
  | [] => []
  | (name, t) :: ms => (name, witness width t) :: memberWitnesses width ms

end

end Ty

variable {t : Ty}

section Witness

open Ty

variable {width : ℕ} {heap : List (Value β × Value β)}

theorem memberWitnesses_lookup {ms : List (String × Ty)} (hn : (ms.map Prod.fst).Nodup)
    {m : String × Ty} (hm : m ∈ ms) :
    (memberWitnesses width ms : List (String × Value β)).lookup m.1 = some (witness width m.2) := by
  induction ms with
  | nil => cases hm
  | cons head ms ih =>
    obtain ⟨name, t⟩ := head
    rw [map_cons, nodup_cons] at hn
    rw [memberWitnesses, lookup_cons]
    rcases mem_cons.mp hm with rfl | hm
    · simp
    · have hne : (m.1 == name) = false := by
        rw [beq_eq_false_iff_ne]
        intro heq
        have hmem : m.1 ∈ ms.map Prod.fst := mem_map_of_mem hm
        exact hn.1 (heq ▸ hmem)
      rw [hne]
      exact ih hn.2 hm

mutual

theorem hasType_witness (t : Ty) (h : t.plain = true) :
    HasType (World.wide width heap) (witness width t) t := by
  cases t
  case unknown | function => cases h
  case nullable t =>
    rw [plain] at h
    rw [witness]
    exact .some (hasType_witness t h)
  case record name ts =>
    rw [plain] at h
    rw [witness, hasType_recordOf]
    exact fun i _ => hasType_witnesses ts h i
  case enum =>
    rw [witness]
    exact .enum rfl mem_cons_self
  case result ok error =>
    rw [plain, Bool.and_eq_true] at h
    rw [witness]
    exact .ok error (hasType_witness ok h.1)
  case module ms =>
    rw [plain, Bool.and_eq_true, decide_eq_true_eq] at h
    rw [witness]
    refine .module (fun name => ((memberWitnesses width ms).lookup name).getD .null)
      (fun m hm => ?_) (fun m hm => ?_)
    · rw [memberWitnesses_lookup h.1 hm]
      rfl
    · rw [memberWitnesses_lookup h.1 hm]
      exact hasType_memberWitnesses ms h.2 m hm
  case array => rw [witness]; exact .array (by simp)
  case set => rw [witness]; exact .set (by simp)
  case map => rw [witness]; exact .map (by simp) (by simp)
  case iterator => rw [witness]; exact .iterator (by simp [World.wide])
  case transaction =>
    rw [witness]
    exact .transaction (by simp [World.wide]) (by simp [World.wide])
  case generic => exact .generic ⟨0, rfl⟩
  all_goals
    rw [witness]
    first | exact .handle 0 rfl | constructor

theorem hasType_witnesses : (ts : List Ty) → allPlain ts = true → ∀ i : ℕ,
    HasType (World.wide width heap) ((witnesses width ts)[i]?.getD .null) (ts[i]?.getD .unknown)
  | [], _, _ => .unknown _
  | t :: ts, h, i => by
    rw [allPlain, Bool.and_eq_true] at h
    cases i with
    | zero => exact hasType_witness t h.1
    | succ i => exact hasType_witnesses ts h.2 i

theorem hasType_memberWitnesses : (ms : List (String × Ty)) → membersPlain ms = true → ∀ m ∈ ms,
    HasType (World.wide width heap) (witness width m.2) m.2
  | (_, t) :: ms, h, m, hm => by
    rw [membersPlain, Bool.and_eq_true] at h
    rcases mem_cons.mp hm with rfl | hm
    · exact hasType_witness t h.1
    · exact hasType_memberWitnesses ms h.2 m hm

end

theorem witness_ne_null (hp : t.plain = true) (h : t.core ≠ .null) :
    (witness width t : Value β) ≠ .null := by
  induction t using layers with
  | base t ht =>
    rw [core_eq_of_ne ht] at h
    cases t
    case nullable inner => exact absurd rfl (ht inner)
    case null => exact absurd rfl h
    case unknown => cases hp
    case function => cases hp
    all_goals
      rw [witness]
      nofun
  | step inner ih =>
    rw [plain] at hp
    rw [witness]
    exact ih hp h

end Witness

variable {w : World β}

open Ty in
theorem hasType_core (hv : v ≠ .null) (h : HasType w v t) : HasType w v t.core := by
  induction t using layers with
  | base t ht => rwa [core_eq_of_ne ht]
  | step inner ih =>
    rw [core]
    cases h with
    | none => exact absurd rfl hv
    | some h => exact ih h
    | handle id hki => rename_i kind; cases kind <;> cases hki

variable {a b : Ty}

namespace Ty

theorem core_plain (h : t.plain = true) : t.core.plain = true := by
  induction t using layers with
  | base t ht => rwa [core_eq_of_ne ht]
  | step inner ih =>
    rw [plain] at h
    exact ih h

theorem assignable_of_core_null {u : Ty} (ht : t.core = .null) (hu : u.acceptsNull = true) :
    assignable t u = true := by
  induction t using layers with
  | base t hne =>
    rw [core_eq_of_ne hne] at ht
    subst ht
    exact hu
  | step inner ih =>
    rw [assignable, Bool.and_eq_true]
    exact ⟨hu, ih ht⟩

theorem compatible_of_same (h : same a b = true) : compatible a b = true := by
  cases a
  case null =>
    cases b <;> simp only [same, Bool.false_eq_true] at h
    rfl
  case unknown => rfl
  all_goals
    apply orInner_of_test
    simp only [h, Bool.true_or]

theorem compatible_nullable (h : compatible a b = true) : compatible a (.nullable b) = true := by
  cases a
  case unknown => rfl
  all_goals exact orInner_nullable h

theorem compatible_of_nullable (hb : b.plain = true)
    (h : compatible (.nullable a) b = true) : compatible a b = true ∨ b.core = .null := by
  induction b using layers with
  | base b hne =>
    rw [compatible, orInner_eq_of_ne hne] at h
    cases b <;> simp_all [same, isUnknown, core, plain]
  | step inner ih =>
    rw [plain] at hb
    rw [compatible, orInner, Bool.or_eq_true] at h
    rcases h with h | h
    · simp only [same, isUnknown, Bool.or_false, Bool.or_eq_true] at h
      rcases h with h | h
      · exact .inl (compatible_nullable (compatible_of_same h))
      · exact .inl h
    · rcases ih hb (by rw [compatible]; exact h) with h | h
      · exact .inl (compatible_nullable h)
      · exact .inr h

end Ty

/-- Some value is one of the first type and not one of the second, in every wide world whose heap
starts in the same way: what is stored later does not change its types. -/
def Separated (β : Type) (width : ℕ) (found expected : Ty) : Prop :=
  ∃ (heap : List (Value β × Value β)) (v : Value β), ∀ later,
    HasType (World.wide width (heap ++ later)) v found ∧
      ¬ HasType (World.wide width (heap ++ later)) v expected

variable {expected : Ty}

/-- A value that is not null and separates a part of the types separates the types, if it is wrapped
in a value that is not null. -/
theorem Separated.wrap {width : ℕ} {found core : Ty} (h : Separated β width a b)
    (hc : expected.core = core) (into : Value β → Value β) (hne : ∀ v, into v ≠ .null)
    (hf : ∀ heap v, HasType (World.wide width heap) v a →
      HasType (World.wide width heap) (into v) found)
    (hep : ∀ heap v, HasType (World.wide width heap) (into v) core →
      HasType (World.wide width heap) v b) : Separated β width found expected := by
  obtain ⟨heap, v, h⟩ := h
  subst hc
  refine ⟨heap, into v, fun later => ⟨hf _ v (h later).1, fun hin => ?_⟩⟩
  exact (h later).2 (hep _ v (hasType_core (hne v) hin))

theorem Separated.store {width : ℕ} {a b found expected core : Ty} (h : Separated β width a b)
    (hc : expected.core = core) (kind : HandleKind) (entry : Value β → Value β × Value β)
    (hf : ∀ heap later v, HasType (World.wide width (heap ++ entry v :: later)) v a →
      HasType (World.wide width (heap ++ entry v :: later)) (.handle kind (heap.length + 1)) found)
    (hep : ∀ heap later v, HasType (World.wide width (heap ++ entry v :: later))
        (.handle kind (heap.length + 1)) core →
      HasType (World.wide width (heap ++ entry v :: later)) v b) :
    Separated β width found expected := by
  obtain ⟨heap, v, h⟩ := h
  subst hc
  refine ⟨heap ++ [entry v], .handle kind (heap.length + 1), fun later => ?_⟩
  rw [append_assoc, singleton_append]
  refine ⟨hf heap later v (h _).1, fun hin => ?_⟩
  exact (h _).2 (hep heap later v (hasType_core (by nofun) hin))

open Ty

variable {width : ℕ} {bs : List Ty}

theorem Separated.field (h : Separated β width a b) (hi : i < width) (hp : allPlain as = true)
    (ha : as[i]? = some a) (hb : bs[i]? = some b) (hc : expected.core = .record name bs) :
    Separated β width (.record name as) expected := by
  refine h.wrap hc (fun v => recordOf name width fun j =>
      if j = i then v else (witnesses width as)[j]?.getD .null) (by nofun) ?_ ?_
  · intro heap v hv
    rw [hasType_recordOf]
    intro j _
    by_cases hj : j = i
    · rw [if_pos hj, hj, ha]
      exact hv
    · rw [if_neg hj]
      exact hasType_witnesses as hp j
  · intro heap v hv
    rw [hasType_recordOf] at hv
    have hf := hv i hi
    rwa [if_pos rfl, hb] at hf

theorem Separated.variant
    (h : Separated β width a b) (hi : i < width) (ha : as[i]? = some a) (hb : bs[i]? = some b)
    (hc : expected.core = .enum name bs) : Separated β width (.enum name as) expected := by
  refine h.wrap hc (fun v => .enum name (paramName i) (some v)) (by nofun) ?_ ?_
  · intro heap v hv
    rw [hasType_payload hi, ha]
    exact hv
  · intro heap v hv
    rwa [hasType_payload hi, hb] at hv

theorem eq_null_of_hasType (h : HasType w v .null) : v = .null := by
  cases h with
  | null => rfl
  | handle id hki => rename_i kind; cases kind <;> cases hki

theorem acceptsNull_of_hasType {heap : List (Value β × Value β)} (ht : t.plain = true)
    (h : HasType (World.wide width heap) .null t) : t.acceptsNull = true := by
  cases h with
  | null | none | some => rfl
  | generic h => obtain ⟨n, hn⟩ := h; cases hn
  | function h => cases h
  | unknown => cases ht

variable {head : Head} {f e : Ty}

namespace Ty

/-- What a type with parts is apart from them. -/
inductive Head
  | array | iterator | set | map | result | transaction
  | record (name : String)
  | enum (name : String)

/-- The type's head and the types it is made from. -/
def parts : Ty → Option (Head × List Ty)
  | .array t => some (.array, [t])
  | .iterator t => some (.iterator, [t])
  | .set t => some (.set, [t])
  | .map k t => some (.map, [k, t])
  | .result t e => some (.result, [t, e])
  | .transaction k t => some (.transaction, [k, t])
  | .record name ts => some (.record name, ts)
  | .enum name ts => some (.enum name, ts)
  | _ => none

theorem compatibleAll_of_sameAll (h : sameAll as bs = true) : compatibleAll as bs = true := by
  induction as generalizing bs with
  | nil => cases bs <;> simp_all [sameAll, compatibleAll]
  | cons a as ih =>
    cases bs with
    | nil => simp [sameAll] at h
    | cons b bs =>
      rw [sameAll, Bool.and_eq_true] at h
      rw [compatibleAll, compatible_of_same h.1, ih h.2]
      rfl

theorem compatible_parts (hf : f.parts = some (head, as))
    (he : e.plain = true) (h : compatible f e = true) :
    ∃ bs, e.core.parts = some (head, bs) ∧ compatibleAll as bs = true ∧
      assignable f e = assignableAll as bs := by
  have hpl := core_plain he
  cases f <;> simp only [parts, reduceCtorEq, Option.some.injEq, Prod.mk.injEq] at hf
  all_goals
    obtain ⟨rfl, rfl⟩ := hf
    rw [compatible, orInner_eq_core (fun _ => by simp [same, isUnknown])] at h
    rw [assignable, orInner_eq_core (fun _ => rfl)]
    generalize e.core = c at *
    cases c <;> simp only [same, isUnknown, Bool.or_false, Bool.false_eq_true] at h
    case unknown => cases hpl
    simp only [Bool.or_eq_true, Bool.and_eq_true, beq_iff_eq] at h
  case array.array | iterator.iterator | set.set =>
    have h := h.elim compatible_of_same id
    exact ⟨_, rfl, by simp [compatibleAll, h], by simp [assignableAll]⟩
  case map.map | result.result | transaction.transaction =>
    have h := h.elim (fun h => ⟨compatible_of_same h.1, compatible_of_same h.2⟩) id
    exact ⟨_, rfl, by simp [compatibleAll, h], by simp [assignableAll]⟩
  case record.record | enum.enum =>
    have h := h.elim (fun h => ⟨h.1, compatibleAll_of_sameAll h.2⟩) id
    obtain ⟨rfl, hp⟩ := h
    exact ⟨_, rfl, hp, by simp⟩

theorem exists_not_assignable (hc : compatibleAll as bs = true)
    (ha : assignableAll as bs = false) : ∃ (i : ℕ) (a b : Ty), as[i]? = some a ∧ bs[i]? = some b ∧
      compatible a b = true ∧ assignable a b = false := by
  induction as generalizing bs with
  | nil => cases bs <;> simp_all [compatibleAll, assignableAll]
  | cons a as ih =>
    cases bs with
    | nil => simp [compatibleAll] at hc
    | cons b bs =>
      rw [compatibleAll, Bool.and_eq_true] at hc
      by_cases h : assignable a b = true
      · rw [assignableAll, h, Bool.true_and] at ha
        obtain ⟨i, found⟩ := ih hc.2 ha
        exact ⟨i + 1, found⟩
      · exact ⟨0, a, b, rfl, rfl, hc.1, by simpa using h⟩

variable {ts : List Ty}

theorem allPlain_iff : allPlain ts = true ↔ ∀ t ∈ ts, t.plain = true := by
  induction ts with
  | nil => simp [allPlain]
  | cons t ts ih => simp [allPlain, ih]

theorem le_widthAll (h : t ∈ ts) : t.width ≤ widthAll ts := by
  induction ts with
  | nil => cases h
  | cons u ts ih =>
    rw [widthAll]
    rcases mem_cons.mp h with rfl | h
    · omega
    · have := ih h
      omega

theorem of_mem_parts {u : Ty} (ht : t.parts = some (head, ts))
    (hu : u ∈ ts) : (t.plain = true → u.plain = true) ∧ u.width ≤ t.width ∧ sizeOf u < sizeOf t := by
  cases t <;> simp only [parts, reduceCtorEq, Option.some.injEq, Prod.mk.injEq] at ht
  case record name arguments | enum name arguments =>
    obtain ⟨-, rfl⟩ := ht
    have hw := le_widthAll hu
    have hs := sizeOf_lt_of_mem hu
    refine ⟨fun h => ?_, ?_, ?_⟩
    · rw [plain] at h
      exact allPlain_iff.mp h u hu
    · rw [width]
      omega
    · simp only [record.sizeOf_spec, enum.sizeOf_spec]
      omega
  case array | iterator | set =>
    obtain ⟨-, rfl⟩ := ht
    obtain rfl := mem_singleton.mp hu
    simp [plain, width]
  all_goals
    obtain ⟨-, rfl⟩ := ht
    rcases mem_pair.mp hu with rfl | rfl <;> simp +contextual [plain, width] <;> omega

theorem orInner_of_or_unknown {test : Ty → Bool} (ht : t.plain = true)
    (h : orInner (fun right => test right || right.isUnknown) t = true) : orInner test t = true := by
  induction t using layers with
  | base t hne =>
    rw [orInner_eq_of_ne hne, Bool.or_eq_true] at h
    rw [orInner_eq_of_ne hne]
    cases t
    case unknown => cases ht
    all_goals exact h.resolve_right (by simp [isUnknown])
  | step inner ih =>
    rw [plain] at ht
    simp only [orInner, isUnknown, Bool.or_false, Bool.or_eq_true] at h
    rw [orInner, Bool.or_eq_true]
    exact h.imp_right (ih ht)

theorem assignable_of_parts_none (hf : f.parts = none) (hp : f.plain = true)
    (hne : ∀ inner, f ≠ .nullable inner) (he : e.plain = true) (h : compatible f e = true) :
    assignable f e = true := by
  cases f
  case null =>
    cases e
    case null | nullable => rfl
    case unknown => cases he
    all_goals exact h
  case nullable inner => exact absurd rfl (hne inner)
  case unknown | function => cases hp
  case array | iterator | set | map | result | transaction | record | enum => cases hf
  all_goals exact orInner_of_or_unknown he h

end Ty

theorem eq_of_getElem?_singleton {α : Type} {x y a b : α} (hb : [y][i]? = some b)
    (ha : [x][i]? = some a) : a = x ∧ b = y := by
  match i with
  | 0 => exact ⟨(Option.some.inj ha).symm, (Option.some.inj hb).symm⟩
  | i + 1 => cases ha

theorem eq_of_getElem?_pair {α : Type} {x x' y y' a b : α} (hb : [y, y'][i]? = some b)
    (ha : [x, x'][i]? = some a) : a = x ∧ b = y ∨ a = x' ∧ b = y' := by
  match i with
  | 0 => exact .inl ⟨(Option.some.inj ha).symm, (Option.some.inj hb).symm⟩
  | 1 => exact .inr ⟨(Option.some.inj ha).symm, (Option.some.inj hb).symm⟩
  | i + 2 => cases ha

theorem Separated.part
    (h : Separated β width a b) (hf : f.parts = some (head, as)) (hp : f.plain = true)
    (hw : f.width ≤ width) (he : e.core.parts = some (head, bs)) (ha : as[i]? = some a)
    (hb : bs[i]? = some b) : Separated β width f e := by
  cases f <;> simp only [parts, reduceCtorEq, Option.some.injEq, Prod.mk.injEq] at hf
  all_goals
    obtain ⟨rfl, rfl⟩ := hf
    cases hc : e.core <;>
      simp only [hc, parts, reduceCtorEq, Option.some.injEq, Prod.mk.injEq, false_and, true_and,
        Head.record.injEq, Head.enum.injEq] at he
  case record.record =>
    obtain ⟨rfl, rfl⟩ := he
    rw [plain] at hp
    rw [Ty.width] at hw
    have hi := (List.getElem?_eq_some_iff.mp ha).1
    exact h.field (by omega) hp ha hb hc
  case enum.enum =>
    obtain ⟨rfl, rfl⟩ := he
    rw [Ty.width] at hw
    have hi := (List.getElem?_eq_some_iff.mp ha).1
    exact h.variant (by omega) ha hb hc
  case array.array =>
    obtain ⟨rfl, rfl⟩ := eq_of_getElem?_singleton (he ▸ hb) ha
    refine h.wrap hc (fun v => .array [v]) nofun ?_ ?_
    · exact fun heap v hv => .array (by simpa using hv)
    · exact fun heap v (.array h) => h v mem_cons_self
  case set.set =>
    obtain ⟨rfl, rfl⟩ := eq_of_getElem?_singleton (he ▸ hb) ha
    refine h.wrap hc (fun v => .set [v]) nofun ?_ ?_
    · exact fun heap v hv => .set (by simpa using hv)
    · exact fun heap v (.set h) => h v mem_cons_self
  case iterator.iterator =>
    obtain ⟨rfl, rfl⟩ := eq_of_getElem?_singleton (he ▸ hb) ha
    refine h.store hc .iterator (fun v => (v, v)) ?_ ?_
    · exact fun heap later v hv => .iterator (by simpa [World.wide] using hv)
    · intro heap later v hv
      cases hv with
      | iterator h => exact h v (by simp [World.wide])
      | handle id hki => cases hki
  case result.result =>
    rcases eq_of_getElem?_pair (he ▸ hb) ha with ⟨rfl, rfl⟩ | ⟨rfl, rfl⟩
    · refine h.wrap hc .ok nofun (fun heap v hv => .ok _ hv) ?_
      exact fun heap v (.ok _ h) => h
    · refine h.wrap hc .err nofun (fun heap v hv => .err _ hv) ?_
      exact fun heap v (.err _ h) => h
  case map.map k t _ _ =>
    rw [plain, Bool.and_eq_true] at hp
    rcases eq_of_getElem?_pair (he ▸ hb) ha with ⟨rfl, rfl⟩ | ⟨rfl, rfl⟩
    · refine h.wrap hc (fun v => .map [(v, witness width t)]) nofun ?_ ?_
      · exact fun heap v hv => .map (by simpa using hv) (by simpa using hasType_witness t hp.2)
      · exact fun heap v (.map hk _) => hk _ mem_cons_self
    · refine h.wrap hc (fun v => .map [(witness width k, v)]) nofun ?_ ?_
      · exact fun heap v hv => .map (by simpa using hasType_witness k hp.1) (by simpa using hv)
      · exact fun heap v (.map _ ht) => ht _ mem_cons_self
  case transaction.transaction k t _ _ =>
    rw [plain, Bool.and_eq_true] at hp
    rcases eq_of_getElem?_pair (he ▸ hb) ha with ⟨rfl, rfl⟩ | ⟨rfl, rfl⟩
    · refine h.store hc .transaction (fun v => (v, witness width t)) ?_ ?_
      · exact fun heap later v hv => .transaction (by simpa [World.wide] using hv)
          (by simpa [World.wide] using hasType_witness t hp.2)
      · intro heap later v hv
        cases hv with
        | transaction hk _ => exact hk (v, witness width t) (by simp [World.wide])
        | handle id hki => cases hki
    · refine h.store hc .transaction (fun v => (witness width k, v)) ?_ ?_
      · exact fun heap later v hv => .transaction (by simpa [World.wide] using hasType_witness k hp.1)
          (by simpa [World.wide] using hv)
      · intro heap later v hv
        cases hv with
        | transaction _ ht => exact ht (witness width k, v) (by simp [World.wide])
        | handle id hki => cases hki

theorem separated (f e : Ty) (hf : f.plain = true) (he : e.plain = true) (hw : f.width ≤ width)
    (hc : compatible f e = true) (ha : assignable f e = false) : Separated β width f e := by
  by_cases hn : ∃ inner, f = .nullable inner
  · obtain ⟨f, rfl⟩ := hn
    rw [plain] at hf
    rw [Ty.width] at hw
    rw [assignable, Bool.and_eq_false_iff] at ha
    by_cases hnu : e.acceptsNull = true
    · have ha : assignable f e = false := ha.resolve_left (by simp [hnu])
      rcases compatible_of_nullable he hc with hc | hco
      · obtain ⟨heap, v, h⟩ := separated f e hf he hw hc ha
        exact ⟨heap, v, fun later => ⟨.some (h later).1, (h later).2⟩⟩
      · -- below its `maybe`s the expected type only has null, and the found type has another value
        have hne : f.core ≠ .null := by
          intro hco
          rw [assignable_of_core_null hco hnu] at ha
          cases ha
        refine ⟨[], witness width f, fun _ => ⟨.some (hasType_witness f hf), fun h => ?_⟩⟩
        have hin := hasType_core (witness_ne_null hf hne) h
        rw [hco] at hin
        exact witness_ne_null hf hne (eq_null_of_hasType hin)
    · refine ⟨[], .null, fun _ => ⟨.none f, fun h => ?_⟩⟩
      exact hnu (acceptsNull_of_hasType he h)
  · have hne (inner : Ty) : f ≠ .nullable inner := fun heq => hn ⟨inner, heq⟩
    cases hp : f.parts with
    | none =>
      rw [assignable_of_parts_none hp hf hne he hc] at ha
      cases ha
    | some parts =>
      obtain ⟨head, as⟩ := parts
      obtain ⟨bs, hco, hcs, has⟩ := compatible_parts hp he hc
      rw [has] at ha
      obtain ⟨i, a, b, hia, hib, hab, hnot⟩ := exists_not_assignable hcs ha
      obtain ⟨hpl, hwi, hsi⟩ := of_mem_parts hp (mem_of_getElem? hia)
      have hb := (of_mem_parts hco (mem_of_getElem? hib)).1 (core_plain he)
      have h := separated a b (hpl hf) hb (Nat.le_trans hwi hw) hab hnot
      exact h.part hp hf hw hco hia hib
termination_by sizeOf f

/-- `compatible` types without unknown and function parts are sound exactly where a value that may be
null only goes where null is accepted. -/
theorem compatible_sound_iff {found expected : Ty} (hf : found.plain = true)
    (he : expected.plain = true) (hc : compatible found expected = true) :
    (∀ (w : World β) (v : Value β), HasType w v found → HasType w v expected) ↔
      assignable found expected = true := by
  constructor
  · intro h
    by_contra hnot
    have hsep : Separated β found.width found expected :=
      separated found expected hf he (Nat.le_refl _) hc (by simpa using hnot)
    obtain ⟨heap, v, hv⟩ := hsep
    exact (hv []).2 (h _ v (hv []).1)
  · intro h w v hv
    exact hv.of_assignable h

/-- A list of optional numbers passes for a list of numbers, and a list of numbers for a list of
optional numbers. -/
theorem compatible_sound_iff_array :
    ((∀ (w : World Unit) (v : Value Unit), HasType w v (.array (.nullable .int)) →
        HasType w v (.array .int)) ↔ assignable (.array (.nullable .int)) (.array .int) = true) ∧
    ((∀ (w : World Unit) (v : Value Unit), HasType w v (.array .int) →
        HasType w v (.array (.nullable .int))) ↔
      assignable (.array .int) (.array (.nullable .int)) = true) :=
  ⟨compatible_sound_iff (by decide) (by decide) (by decide),
    compatible_sound_iff (by decide) (by decide) (by decide)⟩

/-- A `maybe Int` is accepted where an `Int` is expected, and null is a value of the one only. -/
theorem null_accepted_as_int :
    compatible (.nullable .int) .int = true ∧
      ∀ w : World Unit, HasType w .null (.nullable .int) ∧ ¬ HasType w .null .int :=
  ⟨by decide, fun _ => ⟨.none _, fun h => nomatch h⟩⟩

end Nivren
