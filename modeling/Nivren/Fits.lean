import Nivren.Layout

/-! How frames, scopes and slot frames fit together.

`Fits` describes a stack of frames down to a chosen bottom: every suspended activation waits at a
place the verifier has reached, with the operands it expects; the scopes the frames will come back to
are saved; and the current scope has as many ancestors as the activation has open blocks.
-/

namespace Nivren

variable {ν : Type}

/-- `e'` lies `n` scopes outside `e`. -/
def Ancestor (h : Heap Chunk) : Nat → Env → Env → Prop
  | 0, e, e' => e = e'
  | n + 1, e, e' => ∃ p, (h.get e).parent = some p ∧ Ancestor h n p e'

variable {K : Env → Prop}

namespace Ancestor

variable {h h' : Heap Chunk} {n : Nat} {e : Env}

theorem add {m : Nat} {e' e'' : Env} (h₁ : Ancestor h m e e') (h₂ : Ancestor h n e' e'') :
    Ancestor h (m + n) e e'' := by
  induction m generalizing e with
  | zero =>
    cases h₁
    rwa [Nat.zero_add]
  | succ m ih =>
    obtain ⟨p, hp, h₁⟩ := h₁
    rw [Nat.succ_add]
    exact ⟨p, hp, ih h₁⟩

theorem split {m : Nat} {e'' : Env} (h₁ : Ancestor h (m + n) e e'') :
    ∃ e', Ancestor h m e e' ∧ Ancestor h n e' e'' := by
  induction m generalizing e with
  | zero => exact ⟨e, rfl, by rwa [Nat.zero_add] at h₁⟩
  | succ m ih =>
    rw [Nat.succ_add] at h₁
    obtain ⟨p, hp, h₁⟩ := h₁
    obtain ⟨e', h₂, h₃⟩ := ih h₁
    exact ⟨e', ⟨p, hp, h₂⟩, h₃⟩

theorem mono
    (hK : ∀ e p, K e → (h.get e).parent = some p → (h'.get e).parent = some p ∧ K p) {e' : Env}
    (ha : Ancestor h n e e') (he : K e) : Ancestor h' n e e' ∧ K e' := by
  induction n generalizing e with
  | zero =>
    cases ha
    exact ⟨rfl, he⟩
  | succ n ih =>
    obtain ⟨p, hp, ha⟩ := ha
    obtain ⟨hp', hkp⟩ := hK e p he hp
    obtain ⟨ha', hk⟩ := ih ha hkp
    exact ⟨⟨p, hp', ha'⟩, hk⟩

end Ancestor

/-- The scopes that `n` open blocks have added: none while a plan keeps blocks in slots. -/
def opened (flags : List Bool) (n : Nat) : Nat := if flags.head? = some true then 0 else n

@[simp] theorem opened_zero {flags : List Bool} : opened flags 0 = 0 := by
  unfold opened
  split <;> rfl

/-- A `stop` or `skip` that arrives here ends in a loop. -/
def AllowsExit : List (Frame ν) → Prop
  | .repeatBody .. :: _ | .iteration .. :: _ => True
  | .carriesThen _ :: rest | .carriesElse :: rest | .activation _ :: rest => AllowsExit rest
  | _ => False

/-- An error or a `give` that arrives here comes to a frame that restores the scope, or to the end,
without meeting one that would go on. -/
def Unwinds : List (Frame ν) → Prop
  | [] => True
  | .repeatCondition .. :: rest | .repeatBody .. :: rest | .carriesElse :: rest
  | .activation _ :: rest => Unwinds rest
  | .native .. :: _ | .advance .. :: _ | .operands .. :: _ => False
  | _ => True

/-- The frames below a chunk verified in a loop context. -/
structure Hosts (inLoop : Bool) (frames : List (Frame ν)) : Prop where
  exit : inLoop = true → AllowsExit frames
  unwinds : Unwinds frames

/-- A suspended activation goes on after its instruction with one more operand. -/
structure Activation.Waits (a : Activation) (inLoop : Bool) (height n : Nat) : Prop where
  verified : Verified a.chunk inLoop
  current : a.current.isSome
  before : ∃ height, Reaches a.chunk a.instruction ⟨height, n⟩
  reaches : Reaches a.chunk (a.instruction + 1) ⟨height + 1, n⟩

structure ArmFits (arm : BytecodeArm) : Prop where
  guard : ∀ guard ∈ arm.guard, Verified guard false
  body : Verified arm.body false

def PurposeFits : Purpose → Prop
  | .call .. => True
  | .drain loop => Verified loop.body true

/-- Frames above a bottom `F`, with the flags of the slot frames, the scopes they have saved and the
scope they expect to be current. `Base` is what is expected where the bottom is reached. -/
inductive Fits (F : List (Frame ν)) (Base : Env → Prop) (h : Heap Chunk) :
    List (Frame ν) → List Bool → List Env → Env → Prop
  | base {flags e} : Base e → Fits F Base h F flags [] e
  | activation {a rest flags saved e e' l n} : a.Waits l a.stack.length n → Hosts l rest →
      Ancestor h (opened flags n) e e' → Fits F Base h rest flags saved e' →
      Fits F Base h (.activation a :: rest) flags saved e
  | operands {a count rest flags saved e e' l n} : a.Waits l (a.stack.length - count) n →
      Hosts l rest → Ancestor h (opened flags n) e e' → Fits F Base h rest flags saved e' →
      Fits F Base h (.operands a count :: rest) flags saved e
  | function {name span previous fast rest flags saved e} :
      Fits F Base h rest (if fast then flags.tail else flags) saved previous →
      Fits F Base h (.function name span previous fast :: rest) flags (previous :: saved) e
  | native {purpose state rest flags saved e} : PurposeFits purpose →
      Fits F Base h rest flags saved e →
      Fits F Base h (.native purpose state :: rest) flags saved e
  | guard {subject arm others span previous rest flags saved e} : ArmFits arm →
      (∀ arm ∈ others, ArmFits arm) → Fits F Base h rest flags.tail saved previous →
      Fits F Base h (.guard subject arm others span previous :: rest) flags (previous :: saved) e
  | arm {previous rest flags saved e} : Fits F Base h rest flags.tail saved previous →
      Fits F Base h (.arm previous :: rest) flags (previous :: saved) e
  | module {name exports span previous moduleScope rest flags saved e} :
      Fits F Base h rest flags.tail saved previous →
      Fits F Base h (.module name exports span previous moduleScope :: rest) flags
        (previous :: saved) e
  | advance {implementation items loop rest flags saved e} : Verified loop.body true →
      Fits F Base h rest flags saved e →
      Fits F Base h (.advance implementation items loop :: rest) flags saved e
  | iteration {loop values last previous rest flags saved e} : Verified loop.body true →
      Fits F Base h rest flags.tail saved previous →
      Fits F Base h (.iteration loop values last previous :: rest) flags (previous :: saved) e
  | repeatCondition {condition body last span rest flags saved e} : Verified condition false →
      Verified body true → Unwinds rest → Fits F Base h rest flags.tail saved e →
      Fits F Base h (.repeatCondition condition body last span :: rest) flags saved e
  | repeatBody {condition body last span rest flags saved e} : Verified condition false →
      Verified body true → Unwinds rest → Fits F Base h rest flags.tail saved e →
      Fits F Base h (.repeatBody condition body last span :: rest) flags saved e
  | carriesThen {previous rest flags saved e} : Fits F Base h rest flags.tail saved previous →
      Fits F Base h (.carriesThen previous :: rest) flags (previous :: saved) e
  | carriesElse {rest flags saved e} : Fits F Base h rest flags.tail saved e →
      Fits F Base h (.carriesElse :: rest) flags saved e
  | sample {title shows span previous rest flags saved e} :
      Fits F Base h rest flags.tail saved previous →
      Fits F Base h (.sample title shows span previous :: rest) flags (previous :: saved) e
  | using {resource span previous rest flags saved e} :
      Fits F Base h rest flags.tail saved previous →
      Fits F Base h (.using resource span previous :: rest) flags (previous :: saved) e

namespace Fits

variable {F frames : List (Frame ν)} {Base : Env → Prop} {h h' : Heap Chunk} {flags : List Bool}
  {saved : List Env} {e : Env}

theorem mono (hK : ∀ e p, K e → (h.get e).parent = some p → (h'.get e).parent = some p ∧ K p)
    (hf : Fits F Base h frames flags saved e) (he : K e) (hs : ∀ x ∈ saved, K x) :
    Fits F Base h' frames flags saved e := by
  induction hf with
  | base hb => exact .base hb
  | activation hw hh ha _ ih =>
    obtain ⟨ha', he'⟩ := ha.mono hK he
    exact .activation hw hh ha' (ih he' hs)
  | operands hw hh ha _ ih =>
    obtain ⟨ha', he'⟩ := ha.mono hK he
    exact .operands hw hh ha' (ih he' hs)
  | function _ ih => exact .function (ih (hs _ (by simp)) fun x hx => hs x (by simp [hx]))
  | native hp _ ih => exact .native hp (ih he hs)
  | guard ha ho _ ih => exact .guard ha ho (ih (hs _ (by simp)) fun x hx => hs x (by simp [hx]))
  | arm _ ih => exact .arm (ih (hs _ (by simp)) fun x hx => hs x (by simp [hx]))
  | module _ ih => exact .module (ih (hs _ (by simp)) fun x hx => hs x (by simp [hx]))
  | advance hl _ ih => exact .advance hl (ih he hs)
  | iteration hl _ ih => exact .iteration hl (ih (hs _ (by simp)) fun x hx => hs x (by simp [hx]))
  | repeatCondition hc hb hu _ ih => exact .repeatCondition hc hb hu (ih he hs)
  | repeatBody hc hb hu _ ih => exact .repeatBody hc hb hu (ih he hs)
  | carriesThen _ ih => exact .carriesThen (ih (hs _ (by simp)) fun x hx => hs x (by simp [hx]))
  | carriesElse _ ih => exact .carriesElse (ih he hs)
  | sample _ ih => exact .sample (ih (hs _ (by simp)) fun x hx => hs x (by simp [hx]))
  | «using» _ ih => exact .using (ih (hs _ (by simp)) fun x hx => hs x (by simp [hx]))

theorem deepen (hba : ∀ {k e e'}, Ancestor h k e e' → Base e' → Base e)
    (hf : Fits F Base h frames flags saved e) {k : Nat} {d : Env} (hd : Ancestor h k d e) :
    Fits F Base h frames flags saved d := by
  induction hf generalizing k d with
  | base hb => exact .base (hba hd hb)
  | activation hw hh ha _ ih =>
    obtain ⟨e₁, h₁, h₂⟩ := (Nat.add_comm k _ ▸ hd.add ha).split
    exact .activation hw hh h₁ (ih h₂)
  | operands hw hh ha _ ih =>
    obtain ⟨e₁, h₁, h₂⟩ := (Nat.add_comm k _ ▸ hd.add ha).split
    exact .operands hw hh h₁ (ih h₂)
  | function hf _ => exact .function hf
  | native hp _ ih => exact .native hp (ih hd)
  | guard ha ho hf _ => exact .guard ha ho hf
  | arm hf _ => exact .arm hf
  | module hf _ => exact .module hf
  | advance hl _ ih => exact .advance hl (ih hd)
  | iteration hl hf _ => exact .iteration hl hf
  | repeatCondition hc hb hu _ ih => exact .repeatCondition hc hb hu (ih hd)
  | repeatBody hc hb hu _ ih => exact .repeatBody hc hb hu (ih hd)
  | carriesThen hf _ => exact .carriesThen hf
  | carriesElse _ ih => exact .carriesElse (ih hd)
  | sample hf _ => exact .sample hf
  | «using» hf _ => exact .using hf

end Fits

end Nivren
