import Nivren.Compile

/-! The stack discipline of compiled code.

A stretch of code fits between two depths when the depths of its instructions can be filled in so
that every instruction finds what it needs and hands the right depths on to all its successors. The
stretches the compiler emits are joined from smaller ones; jumps between them become inner ones.
-/

namespace Nivren

open List

def Depths.push (d : Depths) : Depths := ⟨d.operands + 1, d.scopes⟩

def Depths.pushes (d : Depths) (n : ℕ) : Depths := ⟨d.operands + n, d.scopes⟩

@[simp] theorem Depths.pushes_zero (d : Depths) : d.pushes 0 = d := by simp [Depths.pushes]

theorem Depths.pushes_push (d : Depths) (n : ℕ) : d.push.pushes n = d.pushes (n + 1) := by
  simp only [Depths.pushes, Depths.push, Depths.mk.injEq, and_true]
  push_cast
  omega

@[simp] theorem Depths.pushes_one (d : Depths) : d.pushes 1 = d.push := rfl

def Depths.enter (d : Depths) : Depths := ⟨d.operands, d.scopes + 1⟩

structure Depths.Nonneg (d : Depths) : Prop where
  operands : 0 ≤ d.operands
  scopes : 0 ≤ d.scopes

theorem Depths.nonneg_zero : Depths.Nonneg ⟨0, 0⟩ := ⟨Int.le_refl 0, Int.le_refl 0⟩

variable {d : Depths}

theorem Depths.Nonneg.push (h : d.Nonneg) : d.push.Nonneg where
  operands := by have := h.operands; simp only [Depths.push]; omega
  scopes := h.scopes

theorem Depths.Nonneg.enter (h : d.Nonneg) : d.enter.Nonneg where
  operands := h.operands
  scopes := by have := h.scopes; simp only [Depths.enter]; omega

theorem Depths.Nonneg.one_le_push (h : d.Nonneg) : 1 ≤ d.push.operands := by
  have := h.operands
  simp only [Depths.push]
  omega

def Depths.after (d : Depths) (op : Op) : Depths :=
  ⟨d.operands + stackEffect op, d.scopes + scopeEffect op⟩

theorem Depths.after_eq_self {op : Op} (he : stackEffect op = 0) (hs : scopeEffect op = 0) :
    d.after op = d := by
  simp [Depths.after, he, hs]

/-- The op finds its operands at `i` and its successors have the depths it leaves. -/
structure StepKeeps (D : ℕ → Depths) (i : ℕ) (op : Op) : Prop where
  pops : stackPops op ≤ (D i).operands
  nonneg : ((D i).after op).Nonneg
  next : ∀ j ∈ successors op i, D j = (D i).after op

/-- What stands at the places of a list that starts at an index. -/
def Each {α : Type} (P : ℕ → α → Prop) (i : ℕ) (l : List α) : Prop :=
  ∀ k x, l[k]? = some x → P (i + k) x

theorem each_append {α : Type} {P : ℕ → α → Prop} {i : ℕ} {a b : List α} :
    Each P i (a ++ b) ↔ Each P i a ∧ Each P (i + a.length) b := by
  constructor
  · intro h
    constructor
    · intro k x hk
      exact h k x (by grind)
    · intro k x hk
      rw [Nat.add_assoc]
      exact h _ x (by grind)
  · rintro ⟨ha, hb⟩ k x hk
    rcases Nat.lt_or_ge k a.length with hl | hl
    · exact ha k x (by grind)
    · have hr := hb (k - a.length) x (by grind)
      rwa [Nat.add_assoc, Nat.add_sub_cancel' hl] at hr

abbrev FlowKeeps (D : ℕ → Depths) : ℕ → List Instruction → Prop :=
  Each fun i instruction => StepKeeps D i instruction.op

abbrev Agrees (D : ℕ → Depths) : ℕ → List Depths → Prop := Each (D · = ·)

variable {D : ℕ → Depths} {i : ℕ} {code : List Instruction}

theorem agrees_getD (ds : List Depths) (e : Depths) :
    Agrees (fun i => (ds ++ [e]).getD i e) 0 ds := by
  intro k d hk
  grind

/-- A stretch of code that starts at an index and takes the depths `d` to `e`. The places outside
that it jumps to have the depths given with them. -/
def Stretch (i : ℕ) (code : List Instruction) (d e : Depths) (exits : List (ℕ × Depths)) : Prop :=
  ∃ ds : List Depths, ds.length = code.length ∧ ∀ D, Agrees D i ds → D (i + code.length) = e →
    D i = d ∧ ((∀ x ∈ exits, D x.1 = x.2) → FlowKeeps D i code)

variable {a b : List Instruction} {e f : Depths} {X Y Z : List (ℕ × Depths)} {op : Op} {span : Span}

namespace Stretch

theorem nil : Stretch i [] d d [] := ⟨[], rfl, fun _ _ he => ⟨he, fun _ => nofun⟩⟩

theorem eq_of_nil (h : Stretch i [] d e X) : d = e := by
  obtain ⟨ds, hlen, hds⟩ := h
  obtain rfl := length_eq_zero_iff.mp hlen
  exact (hds (fun _ => e) nofun rfl).1.symm

theorem one (hp : stackPops op ≤ d.operands) (ha : d.after op = f) (hf : f.Nonneg)
    (hs : ∀ j ∈ successors op i, j = i + 1 ∧ e = f ∨ (j, f) ∈ X) :
    Stretch i [⟨op, span⟩] d e X := by
  refine ⟨[d], rfl, fun D hD he => ?_⟩
  obtain rfl : D i = d := hD 0 d rfl
  refine ⟨rfl, fun hX k x hk => ?_⟩
  obtain ⟨rfl, rfl⟩ : k = 0 ∧ x = ⟨op, span⟩ := by grind
  subst ha
  refine ⟨hp, hf, fun j hj => ?_⟩
  rcases hs j hj with ⟨rfl, rfl⟩ | hx
  · exact he
  · exact hX _ hx

/-- Jumps to the start, the seam and the end of two stretches stay inside the joined one. -/
theorem append (ha : Stretch i a d e X) (hb : Stretch (i + a.length) b e f Y)
    (hc : ∀ x ∈ X ++ Y, x ∈ Z ∨ x ∈ [(i, d), (i + a.length, e), (i + a.length + b.length, f)]) :
    Stretch i (a ++ b) d f Z := by
  obtain ⟨as, hal, has⟩ := ha
  obtain ⟨bs, hbl, hbs⟩ := hb
  refine ⟨as ++ bs, by simp [hal, hbl], fun D hD hend => ?_⟩
  obtain ⟨hDa, hDb⟩ := each_append.mp hD
  rw [length_append, ← Nat.add_assoc] at hend
  rw [hal] at hDb
  obtain ⟨hmid, hfw⟩ := hbs D hDb hend
  obtain ⟨hst, hfl⟩ := has D hDa hmid
  refine ⟨hst, fun hZ => ?_⟩
  have hall : ∀ x ∈ X ++ Y, D x.1 = x.2 := by
    intro x hx
    rcases hc x hx with hx | hx
    · exact hZ x hx
    · simp only [mem_cons, not_mem_nil, or_false] at hx
      rcases hx with rfl | rfl | rfl <;> assumption
  rw [forall_mem_append] at hall
  exact each_append.mpr ⟨hfl hall.1, hfw hall.2⟩

end Stretch

theorem successors_le {length : ℕ} (hi : i < length)
    (hop : validOperand op length = true) : ∀ j ∈ successors op i, j ≤ length := by
  intro j hj
  unfold successors at hj
  split at hj
  all_goals simp only [validOperand, decide_eq_true_eq] at hop
  all_goals simp only [mem_cons, not_mem_nil, or_false] at hj
  all_goals omega

theorem verifyStack_of_stretch (hne : code ≠ [])
    (h : Stretch 0 code ⟨0, 0⟩ e []) (hr : 1 ≤ e.operands) (hsc : e.scopes = 0)
    (hv : ∀ i ∈ code, validOperand i.op code.length = true) :
    ∃ facts, verifyStack code = .ok facts := by
  obtain ⟨ds, hlen, hds⟩ := h
  have hend : (ds ++ [e]).getD (0 + code.length) e = e := by simp [← hlen]
  obtain ⟨hsr, hfl⟩ := hds _ (agrees_getD ds e) hend
  have hfl := hfl nofun
  -- the pairs of the walk are the points of the chunk with the depths of the stretch
  have hgood : ∀ i d, i ≤ code.length ∧ d = (ds ++ [e]).getD i e →
      (i = code.length ∧ (verifyStackEnd d).isOk) ∨ (i < code.length ∧ ∃ next,
        (verifyStackStep code i d).toOption = some next ∧
          ∀ p ∈ next, p.1 ≤ code.length ∧ p.2 = (ds ++ [e]).getD p.1 e) := by
    rintro i d ⟨hi, rfl⟩
    rcases Nat.eq_or_lt_of_le hi with rfl | hi
    · rw [Nat.zero_add] at hend
      refine .inl ⟨rfl, ?_⟩
      rw [hend, verifyStackEnd, if_neg (by omega), if_neg (by omega)]
      rfl
    · obtain ⟨⟨op, span⟩, hget⟩ : ∃ instruction, code[i]? = some instruction :=
        ⟨code[i], List.getElem?_eq_getElem hi⟩
      have hst := hfl i _ hget
      rw [Nat.zero_add] at hst
      have hops := hst.nonneg.operands
      have hscs := hst.nonneg.scopes
      have hpo : stackPops op ≤ ((ds ++ [e]).getD i e).operands := hst.pops
      simp only [Depths.after] at hops hscs
      have htr : verifyStackStep code i ((ds ++ [e]).getD i e) =
          .ok ((successors op i).map (·, ((ds ++ [e]).getD i e).after op)) := by
        simp only [verifyStackStep, hget]
        rw [if_neg (by omega), if_neg (by omega), if_neg (by omega)]
        rfl
      refine .inr ⟨hi, _, Worklist.toOption_eq_some.mpr htr, fun p hp => ?_⟩
      obtain ⟨j, hj, rfl⟩ := mem_map.mp hp
      exact ⟨successors_le hi (hv _ (mem_of_getElem? hget)) j hj, (hst.next j hj).symm⟩
  have hrun := (stackAnalysis code).loop_eq_run (code.length * 2 + 1) [(0, ⟨0, 0⟩)] []
  rw [← Option.some_get (stackAnalysis_loop_isSome code)] at hrun
  obtain ⟨facts, hx⟩ := Worklist.Flow.run_ok fifo_perm _ hgood
    (fun i d d' hd hd' => if_pos (hd'.2.trans hd.2.symm)) hrun.symm ⟨Nat.zero_le _, hsr.symm⟩
  rw [verifyStack, if_neg (by simpa using hne)]
  exact ⟨facts, Worklist.toOption_eq_some.mp hx⟩

end Nivren
