import Nivren.Types
import Nivren.Value

/-! What assignability means for run-time values.

A world says what the names in types stand for: the declared shapes and choices, the values of type
parameters, and the contents of iterators and transactions. `compatible` lets a `maybe` value flow
into any place its inner type fits; `assignable` is the same test without that clause, and it is
exactly the part of `compatible` that every world respects.
-/

namespace Nivren

open List

structure World (β : Type) where
  /-- Type parameters and fields of a shape. -/
  records : String → Option (List String × List (String × Ty))
  /-- Type parameters and cases of a choice, with the payload type of each case. -/
  enums : String → Option (List String × List (String × Option Ty))
  generics : String → Value β → Prop
  /-- The values an iterator still produces. -/
  items : ℕ → List (Value β)
  /-- The entries a transaction holds. -/
  entries : ℕ → List (Value β × Value β)

variable {β : Type}

def Value.callable : Value β → Bool
  | .function _ | .native _ | .recordType _ | .enumConstructor _ | .protocolMethod _
  | .derivedMethod _ => true
  | _ => false

/-- The types whose values are the handles of one kind. -/
def HandleKind.ty : HandleKind → Option Ty
  | .secretKey => some .secretKey
  | .file => some .file
  | .tcpListener => some .tcpListener
  | .tcpStream => some .tcpStream
  | .tlsStream => some .tlsStream
  | .webSocket => some .webSocket
  | .tlsListener => some .tlsListener
  | .lock => some .lock
  | .lockGuard => some .lockGuard
  | .atomicInt => some .atomicInt
  | .nativeHandle => some .nativeHandle
  | .nativeLibrary => some .nativeLibrary
  | .task => some .task
  | .channel => some .channel
  | .sourceDeclaration | .iterator | .transaction => none

inductive HasType (w : World β) : Value β → Ty → Prop
  | int (n : Int) : HasType w (.int n) .int
  | uint (n : ℕ) : HasType w (.uint n) .uint
  | u128 (n : ℕ) : HasType w (.u128 n) .u128
  | float (bits : UInt64) : HasType w (.float bits) .float
  | string (s : String) : HasType w (.string s) .string
  | bytes (data : List UInt8) : HasType w (.bytes data) .bytes
  | bool (b : Bool) : HasType w (.bool b) .bool
  | null : HasType w .null .null
  | generic {name : String} {v : Value β} (h : w.generics name v) : HasType w v (.generic name)
  | function {v : Value β} {typeParams constraints params gives needs} (h : v.callable = true) :
      HasType w v (.function typeParams constraints params gives needs)
  | array {vs : List (Value β)} {t : Ty} (h : ∀ v ∈ vs, HasType w v t) :
      HasType w (.array vs) (.array t)
  | iterator {id : ℕ} {t : Ty} (h : ∀ v ∈ w.items id, HasType w v t) :
      HasType w (.handle .iterator id) (.iterator t)
  | map {es : List (Value β × Value β)} {k t : Ty} (hk : ∀ e ∈ es, HasType w e.1 k)
      (ht : ∀ e ∈ es, HasType w e.2 t) : HasType w (.map es) (.map k t)
  | set {vs : List (Value β)} {t : Ty} (h : ∀ v ∈ vs, HasType w v t) : HasType w (.set vs) (.set t)
  | none (t : Ty) : HasType w .null (.nullable t)
  | some {v : Value β} {t : Ty} (h : HasType w v t) : HasType w v (.nullable t)
  | record {name : String} {params : List String} {fields : List (String × Ty)}
      {vs : List (String × Value β)} {arguments : List Ty}
      (hdecl : w.records name = .some (params, fields))
      (hnames : vs.map Prod.fst = fields.map Prod.fst)
      (h : ∀ v ∈ vs, ∀ t, (v.1, t) ∈ fields → HasType w v.2 (t.substitute (params.zip arguments))) :
      HasType w (.record name vs) (.record name arguments)
  | enum {name variant : String} {params : List String} {cases : List (String × Option Ty)}
      {arguments : List Ty} (hdecl : w.enums name = .some (params, cases))
      (hcase : (variant, Option.none) ∈ cases) :
      HasType w (.enum name variant .none) (.enum name arguments)
  | payload {name variant : String} {params : List String} {cases : List (String × Option Ty)}
      {arguments : List Ty} {v : Value β} {t : Ty} (hdecl : w.enums name = .some (params, cases))
      (hcase : (variant, Option.some t) ∈ cases)
      (h : HasType w v (t.substitute (params.zip arguments))) :
      HasType w (.enum name variant (.some v)) (.enum name arguments)
  | enumNamespace (choice : EnumType) : HasType w (.enumType choice) (.enumNamespace choice.name)
  | protocolNamespace (protocol : ProtocolType) :
      HasType w (.protocolType protocol) (.protocolNamespace protocol.name)
  | ok {v : Value β} {t : Ty} (e : Ty) (h : HasType w v t) : HasType w (.ok v) (.result t e)
  | err {v : Value β} {e : Ty} (t : Ty) (h : HasType w v e) : HasType w (.err v) (.result t e)
  | module {id : ℕ} {vs : List (String × Value β)} {members : List (String × Ty)}
      (member : String → Value β) (hget : ∀ m ∈ members, vs.lookup m.1 = .some (member m.1))
      (h : ∀ m ∈ members, HasType w (member m.1) m.2) : HasType w (.module id vs) (.module members)
  | handle {kind : HandleKind} {t : Ty} (id : ℕ) (h : kind.ty = .some t) :
      HasType w (.handle kind id) t
  | transaction {id : ℕ} {k t : Ty} (hk : ∀ e ∈ w.entries id, HasType w e.1 k)
      (ht : ∀ e ∈ w.entries id, HasType w e.2 t) :
      HasType w (.handle .transaction id) (.transaction k t)
  | dateTime (s : String) : HasType w (.dateTime s) .dateTime
  | bigInt (n : Int) : HasType w (.bigInt n) .bigInt
  | decimal (n : ℕ) : HasType w (.decimal n) .decimal
  | fixed (n : FixedInt) : HasType w (.fixedInt n) (.fixed n.kind)
  | unknown (v : Value β) : HasType w v .unknown

variable {test : Ty → Bool} {t : Ty}

namespace Ty

/-- `null` is a value of the type whatever the names in it stand for. -/
def acceptsNull : Ty → Bool
  | .null | .nullable _ => true
  | _ => false

mutual

/-- `compatible` where a value that may be null only goes where null is accepted. -/
def assignable : Ty → Ty → Bool
  | .null => acceptsNull
  | .nullable inner => fun right => right.acceptsNull && assignable inner right
  | .result ok error => orInner fun
    | .result ok' error' => assignable ok ok' && assignable error error'
    | _ => false
  | .array element => orInner fun
    | .array element' => assignable element element'
    | _ => false
  | .iterator element => orInner fun
    | .iterator element' => assignable element element'
    | _ => false
  | .transaction key value => orInner fun
    | .transaction key' value' => assignable key key' && assignable value value'
    | _ => false
  | .map key value => orInner fun
    | .map key' value' => assignable key key' && assignable value value'
    | _ => false
  | .set element => orInner fun
    | .set element' => assignable element element'
    | _ => false
  | .record name arguments => orInner fun
    | .record name' arguments' => name == name' && assignableAll arguments arguments'
    | _ => false
  | .enum name arguments => orInner fun
    | .enum name' arguments' => name == name' && assignableAll arguments arguments'
    | _ => false
  | .function .. => orInner fun
    | .function .. => true
    | _ => false
  | left => orInner (same left)

def assignableAll : List Ty → List Ty → Bool
  | [], [] => true
  | a :: as, b :: bs => assignable a b && assignableAll as bs
  | _, _ => false

end

theorem orInner_of_test (h : test t = true) : orInner test t = true := by
  cases t <;> simp [orInner, h]

theorem orInner_nullable (h : orInner test t = true) : orInner test (.nullable t) = true := by
  simp [orInner, h]

/-- The innermost type below `maybe`. -/
def core : Ty → Ty
  | .nullable inner => core inner
  | t => t

theorem orInner_eq_of_ne (h : ∀ inner, t ≠ .nullable inner) : orInner test t = test t := by
  cases t
  case nullable inner => exact absurd rfl (h inner)
  all_goals rfl

theorem layers {motive : Ty → Prop} (base : ∀ t, (∀ inner, t ≠ .nullable inner) → motive t)
    (step : ∀ inner, motive inner → motive (.nullable inner)) (t : Ty) : motive t := by
  by_cases h : ∃ inner, t = .nullable inner
  · obtain ⟨inner, rfl⟩ := h
    exact step inner (layers base step inner)
  · exact base t fun inner heq => h ⟨inner, heq⟩
termination_by sizeOf t

theorem core_eq_of_ne (h : ∀ inner, t ≠ .nullable inner) : t.core = t := by
  cases t
  case nullable inner => exact absurd rfl (h inner)
  all_goals rfl

theorem orInner_eq_core (hte : ∀ inner, test (.nullable inner) = false)
    (t : Ty) : orInner test t = test t.core := by
  induction t using layers with
  | base t h => rw [orInner_eq_of_ne h, core_eq_of_ne h]
  | step inner ih => rw [orInner, hte, Bool.false_or, core, ih]

theorem assignable_nullable {a b : Ty} (h : assignable a b = true) :
    assignable a (.nullable b) = true := by
  induction a using layers with
  | base a ha =>
    cases a
    case null => rfl
    case nullable inner => exact absurd rfl (ha inner)
    all_goals exact orInner_nullable h
  | step inner ih =>
    rw [assignable, Bool.and_eq_true] at h
    rw [assignable, Bool.and_eq_true]
    exact ⟨rfl, ih h.2⟩

mutual

theorem same_refl (t : Ty) : same t t = true := by
  cases t
  case array t | iterator t | set t | nullable t => rw [same, same_refl t]
  case map a b | result a b | transaction a b => rw [same, same_refl a, same_refl b]; rfl
  case record _ ts | enum _ ts => rw [same, sameAll_refl ts]; simp
  case function _ _ params gives _ => rw [same, sameAll_refl params, same_refl gives]; simp
  case module ms =>
    have h : ms.all (isMember ms) = true := all_eq_true.mpr fun m hm => isMember_of_mem ms m hm
    rw [same, h, Bool.and_true]
    exact sameMembers_of_subset ms ms fun _ hm => hm
  all_goals simp [same]

theorem sameAll_refl : (ts : List Ty) → sameAll ts ts = true
  | [] => by rw [sameAll]
  | t :: ts => by rw [sameAll, same_refl t, sameAll_refl ts]; rfl

theorem sameMembers_of_subset : (ms ns : List (String × Ty)) → (∀ m ∈ ms, m ∈ ns) →
    sameMembers ms ns = true
  | [], _, _ => by rw [sameMembers]
  | (name, t) :: ms, ns, h => by
    have hmem : ns.any (fun b => name == b.1 && same t b.2) = true :=
      any_eq_true.mpr ⟨_, h _ mem_cons_self, by simp [same_refl t]⟩
    rw [sameMembers, hmem, sameMembers_of_subset ms ns fun m hm => h m (mem_cons_of_mem _ hm)]
    rfl

theorem isMember_of_mem : (ms : List (String × Ty)) → (m : String × Ty) → m ∈ ms →
    isMember ms m = true
  | (name, t) :: ms, m, h => by
    rw [isMember, Bool.or_eq_true]
    rcases mem_cons.mp h with rfl | h
    · exact .inl (by simp [same_refl t])
    · exact .inr (isMember_of_mem ms m h)

end

mutual

theorem assignable_of_same (a b : Ty) (h : same a b = true) : assignable a b = true := by
  cases a
  case nullable a =>
    cases b <;> simp only [same, Bool.false_eq_true] at h
    rw [assignable, Bool.and_eq_true]
    exact ⟨rfl, assignable_nullable (assignable_of_same a _ h)⟩
  case null | function =>
    cases b <;> simp only [same, Bool.false_eq_true] at h
    rfl
  case array a | iterator a | set a =>
    cases b <;> simp only [same, Bool.false_eq_true] at h
    exact assignable_of_same a _ h
  case map k v | result k v | transaction k v =>
    cases b <;> simp only [same, Bool.false_eq_true, Bool.and_eq_true] at h
    exact Bool.and_eq_true_iff.mpr ⟨assignable_of_same k _ h.1, assignable_of_same v _ h.2⟩
  case record _ ts | enum _ ts =>
    cases b <;> simp only [same, Bool.false_eq_true, Bool.and_eq_true] at h
    exact Bool.and_eq_true_iff.mpr ⟨h.1, assignableAll_of_sameAll ts _ h.2⟩
  all_goals exact orInner_of_test h

theorem assignableAll_of_sameAll : (as bs : List Ty) → sameAll as bs = true →
    assignableAll as bs = true
  | [], [], _ => by rw [assignableAll]
  | a :: as, b :: bs, h => by
    rw [sameAll, Bool.and_eq_true] at h
    rw [assignableAll, assignable_of_same a b h.1, assignableAll_of_sameAll as bs h.2]
    rfl
  | [], _ :: _, h | _ :: _, [], h => by simp [sameAll] at h

end

theorem assignable_refl (t : Ty) : assignable t t = true := assignable_of_same t t (same_refl t)

def atomic : Ty → Bool
  | .function .. | .array _ | .iterator _ | .map .. | .set _ | .nullable _ | .record .. | .enum ..
  | .result .. | .module _ | .transaction .. => false
  | _ => true

theorem eq_of_same_atomic {u : Ty} (ht : t.atomic = true) (h : same t u = true) : u = t := by
  rw [same.eq_def] at h
  split at h
  all_goals first
    | rfl
    | cases h
    | (obtain rfl := beq_iff_eq.mp h; rfl)
    | cases ht

/-- The first substitution gives every name an argument that is assignable to the second's. -/
def Below (s s' : Substitutions) : Prop :=
  ∀ name, assignable ((s.lookup name).getD .unknown) ((s'.lookup name).getD .unknown) = true

mutual

theorem assignable_substitute {s s' : Substitutions} (h : Below s s') (t : Ty) :
    assignable (t.substitute s) (t.substitute s') = true := by
  cases t
  case generic name => rw [substitute, substitute]; exact h name
  case nullable t =>
    rw [substitute, substitute, assignable, Bool.and_eq_true]
    exact ⟨rfl, assignable_nullable (assignable_substitute h t)⟩
  case array t | iterator t | set t =>
    exact assignable_substitute h t
  case map a b | result a b | transaction a b =>
    exact Bool.and_eq_true_iff.mpr ⟨assignable_substitute h a, assignable_substitute h b⟩
  case record name ts | enum name ts =>
    rw [substitute, substitute]
    exact Bool.and_eq_true_iff.mpr ⟨beq_self_eq_true name, assignableAll_substitute h ts⟩
  case function => rw [substitute, substitute]; rfl
  all_goals exact assignable_refl _

theorem assignableAll_substitute {s s' : Substitutions} (h : Below s s') :
    (ts : List Ty) → assignableAll (substituteAll s ts) (substituteAll s' ts) = true
  | [] => by rw [substituteAll, substituteAll, assignableAll]
  | t :: ts => by
    rw [substituteAll, substituteAll, assignableAll, assignable_substitute h t,
      assignableAll_substitute h ts]
    rfl

end

theorem below_zip {params : List String} {as bs : List Ty} (h : assignableAll as bs = true) :
    Below (params.zip as) (params.zip bs) := by
  intro name
  induction params generalizing as bs with
  | nil => exact assignable_refl _
  | cons param params ih =>
    match as, bs with
    | [], [] => exact assignable_refl _
    | a :: as, b :: bs =>
      rw [assignableAll, Bool.and_eq_true] at h
      simp only [zip_cons_cons, lookup_cons]
      split
      · exact h.1
      · exact ih h.2
    | [], _ :: _ | _ :: _, [] => simp [assignableAll] at h

end Ty

variable {w : World β} {v : Value β}

open Ty in
theorem hasType_orInner
    (h : orInner test t = true) (hte : ∀ u, test u = true → HasType w v u) : HasType w v t := by
  induction t using layers with
  | base t ht =>
    rw [orInner_eq_of_ne ht] at h
    exact hte t h
  | step inner ih =>
    rw [orInner, Bool.or_eq_true] at h
    rcases h with h | h
    · exact hte _ h
    · exact .some (ih h)

open Ty in
theorem HasType.of_atomic {u : Ty} (ht : t.atomic = true)
    (hv : HasType w v t) (h : orInner (same t) u = true) : HasType w v u :=
  hasType_orInner h fun _ hu => eq_of_same_atomic ht hu ▸ hv

open Ty in
theorem exists_of_isMember {ms : List (String × Ty)} {m : String × Ty} (h : isMember ms m = true) :
    ∃ a, (m.1, a) ∈ ms ∧ same a m.2 = true := by
  induction ms with
  | nil => simp [isMember] at h
  | cons head ms ih =>
    obtain ⟨name, a⟩ := head
    rw [isMember, Bool.or_eq_true, Bool.and_eq_true, beq_iff_eq] at h
    rcases h with ⟨rfl, h⟩ | h
    · exact ⟨a, mem_cons_self, h⟩
    · obtain ⟨b, hb, hsa⟩ := ih h
      exact ⟨b, mem_cons_of_mem _ hb, hsa⟩

open Ty in
theorem HasType.of_assignable {found : Ty} (hv : HasType w v found)
    {expected : Ty} (h : assignable found expected = true) : HasType w v expected := by
  induction hv generalizing expected with
  | null =>
    cases expected <;> simp [assignable, acceptsNull] at h
    · exact .null
    · exact .none _
  | none t =>
    rw [assignable, Bool.and_eq_true] at h
    cases expected <;> simp [acceptsNull] at h
    · exact .null
    · exact .none _
  | some _ ih =>
    rw [assignable, Bool.and_eq_true] at h
    exact ih h.2
  | array hvs ih | iterator hvs ih | set hvs ih =>
    refine hasType_orInner h fun u hu => ?_
    split at hu
    · constructor
      exact fun v hv => ih v hv hu
    · cases hu
  | map hk ht ihk iht =>
    refine hasType_orInner h fun u hu => ?_
    split at hu
    · rw [Bool.and_eq_true] at hu
      exact .map (fun e he => ihk e he hu.1) (fun e he => iht e he hu.2)
    · cases hu
  | transaction hk ht ihk iht =>
    refine hasType_orInner h fun u hu => ?_
    split at hu
    · rw [Bool.and_eq_true] at hu
      exact .transaction (fun e he => ihk e he hu.1) (fun e he => iht e he hu.2)
    · cases hu
  | ok e _ ih =>
    refine hasType_orInner h fun u hu => ?_
    split at hu
    · rw [Bool.and_eq_true] at hu
      exact .ok _ (ih hu.1)
    · cases hu
  | err t _ ih =>
    refine hasType_orInner h fun u hu => ?_
    split at hu
    · rw [Bool.and_eq_true] at hu
      exact .err _ (ih hu.2)
    · cases hu
  | record hd hn hvs ih =>
    refine hasType_orInner h fun u hu => ?_
    split at hu
    · rw [Bool.and_eq_true, beq_iff_eq] at hu
      obtain ⟨rfl, har⟩ := hu
      exact .record hd hn fun v hv t ht =>
        ih v hv t ht (assignable_substitute (below_zip har) t)
    · cases hu
  | enum hd hca =>
    refine hasType_orInner h fun u hu => ?_
    split at hu
    · rw [Bool.and_eq_true, beq_iff_eq] at hu
      obtain ⟨rfl, -⟩ := hu
      exact .enum hd hca
    · cases hu
  | payload hd hca _ ih =>
    refine hasType_orInner h fun u hu => ?_
    split at hu
    · rw [Bool.and_eq_true, beq_iff_eq] at hu
      obtain ⟨rfl, har⟩ := hu
      exact .payload hd hca (ih (assignable_substitute (below_zip har) _))
    · cases hu
  | function hc =>
    refine hasType_orInner h fun u hu => ?_
    split at hu
    · exact .function hc
    · cases hu
  | module member hget hvs ih =>
    refine hasType_orInner h fun u hu => ?_
    cases u <;> simp only [same, Bool.false_eq_true, Bool.and_eq_true, all_eq_true] at hu
    refine .module member (fun m hm => ?_) (fun m hm => ?_)
    · obtain ⟨a, ha, -⟩ := exists_of_isMember (hu.2 m hm)
      exact hget (m.1, a) ha
    · obtain ⟨a, ha, hsa⟩ := exists_of_isMember (hu.2 m hm)
      exact ih _ ha (assignable_of_same _ _ hsa)
  | int | uint | u128 | float | string | bytes | bool | enumNamespace | protocolNamespace | dateTime
  | bigInt | decimal | fixed | unknown => exact of_atomic rfl (by constructor) h
  | generic hg => exact of_atomic rfl (.generic hg) h
  | @handle kind t id hki =>
    cases kind <;> simp only [HandleKind.ty, Option.some.injEq, reduceCtorEq] at hki
    all_goals
      subst hki
      exact of_atomic rfl (.handle id rfl) h

end Nivren
