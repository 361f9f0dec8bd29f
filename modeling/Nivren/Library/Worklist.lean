import Mathlib

/-! Forward data-flow analyses that record one fact for every program point.

A flow walks a list of `(point, fact)` pairs. A point that is met for the first time records its
fact and contributes the pairs its transfer function produces; a point that is met again joins the
fact to the one it has, and contributes again only when that changed it. In which order pairs wait
is a parameter. A finished walk is a solution of the transfer equations, and the walk always
finishes when a join lowers a rank.

An `Analysis` is the flow whose joins demand equal facts, first in first out and with its errors.
-/

namespace Worklist

open List

variable {F E : Type*}

/-- Depths that solve the equations of a graph: the points after a point have its depth changed by
the effect of that point. -/
structure Fixpoint {D : Type*} (size : ℕ) (edges : ℕ → List ℕ) (effect : ℕ → D → D) (start : D)
    (depth : ℕ → Option D) : Prop where
  start : depth 0 = some start
  next : ∀ i d, depth i = some d → ∀ j ∈ edges i, j < size → depth j = some (effect i d)

/-- Two fixpoints give every point that can be reached the same depth. -/
theorem Fixpoint.agree {D : Type*} {size : ℕ} {edges : ℕ → List ℕ} {effect : ℕ → D → D} {start : D}
    {a b : ℕ → Option D} (ha : Fixpoint size edges effect start a)
    (hb : Fixpoint size edges effect start b) (hend : ∀ i, size ≤ i → edges i = []) {i : ℕ}
    (hr : Relation.ReflTransGen (fun i j => j ∈ edges i) 0 i) (hi : i < size) :
    ∃ d, a i = some d ∧ b i = some d := by
  induction hr with
  | refl => exact ⟨start, ha.start, hb.start⟩
  | @tail i j _ hj ih =>
    obtain ⟨d, had, hbd⟩ := ih (by
      by_contra hle
      simp [hend i (by omega)] at hj)
    exact ⟨effect i d, ha.next i d had j hj hi, hb.next i d hbd j hj hi⟩

/-- A flow over the points `0, …, size`; `size` is the exit. `join g f` is the recorded fact `g`
after `f` has arrived, `none` when they do not fit. -/
structure Flow (F : Type*) where
  size : ℕ
  exit : F → Bool
  join : F → F → Option F
  transfer : ℕ → F → Option (List (ℕ × F))

namespace Flow

variable (A : Flow F)

/-- The fact a point has after one more has arrived. -/
def merge (facts : List (ℕ × F)) (i : ℕ) (f : F) : Option F :=
  match facts.lookup i with
  | none => some f
  | some g => A.join g f

/-- One round: what waits and what is recorded after the pair `p` has been taken up. -/
def round [DecidableEq F] (push : List (ℕ × F) → List (ℕ × F) → List (ℕ × F)) (p : ℕ × F)
    (queue facts : List (ℕ × F)) : Option (List (ℕ × F) × List (ℕ × F)) :=
  if p.1 = A.size ∧ A.exit p.2 then some (queue, facts)
  else if A.size ≤ p.1 then none
  else do
    let h ← A.merge facts p.1 p.2
    if facts.lookup p.1 = some h then some (queue, facts)
    else do
      let next ← A.transfer p.1 h
      some (push next queue, (p.1, h) :: facts)

/-- The walk: `none` without fuel, `some none` when a round rejects its pair. -/
def run [DecidableEq F] (push : List (ℕ × F) → List (ℕ × F) → List (ℕ × F)) :
    ℕ → List (ℕ × F) → List (ℕ × F) → Option (Option (List (ℕ × F)))
  | _, [], facts => some (some facts)
  | 0, _ :: _, _ => none
  | fuel + 1, p :: queue, facts =>
    match A.round push p queue facts with
    | none => some none
    | some (queue, facts) => run push fuel queue facts

/-- A pair the recorded facts account for: an accepted exit, or one its point has absorbed. -/
def Covered (facts : List (ℕ × F)) (p : ℕ × F) : Prop :=
  (p.1 = A.size ∧ A.exit p.2) ∨ ∃ g, facts.lookup p.1 = some g ∧ A.join g p.2 = some g

/-- A fact arriving twice changes nothing the second time, nor does one absorbed before. -/
structure Lawful : Prop where
  join_self : ∀ f, A.join f f = some f
  join_join : ∀ g f h e, A.join g f = some h → e = f ∨ A.join g e = some g → A.join h e = some h

/-- A pair that is accounted for, or still waiting. -/
def Due (queue facts : List (ℕ × F)) (p : ℕ × F) : Prop := A.Covered facts p ∨ p ∈ queue

/-- Facts that satisfy the transfer equations from a start pair on. -/
structure Solution (start : ℕ × F) (facts : List (ℕ × F)) : Prop where
  start : A.Covered facts start
  closed : ∀ i f, facts.lookup i = some f →
    i < A.size ∧ ∃ next, A.transfer i f = some next ∧ ∀ p ∈ next, A.Covered facts p

variable {A} {facts queue next out queue' facts' : List (ℕ × F)} {fuel : ℕ} {h : F} {p : ℕ × F}
  {push : List (ℕ × F) → List (ℕ × F) → List (ℕ × F)}

theorem lookup_cons_ne {i j : ℕ} (hj : j ≠ i) :
    ((i, h) :: facts).lookup j = facts.lookup j := by
  rw [lookup_cons, beq_eq_false_iff_ne.mpr hj]

theorem lookup_cons_eq_some {i j : ℕ} {f : F} (hl : ((i, h) :: facts).lookup j = some f) :
    (j = i ∧ f = h) ∨ facts.lookup j = some f := by
  by_cases hj : j = i
  · subst hj
    exact .inl ⟨rfl, (by simpa using hl : h = f).symm⟩
  · exact .inr (by rwa [lookup_cons_ne hj] at hl)

theorem Covered.cons (hA : A.Lawful) (hm : A.merge facts p.1 p.2 = some h) {q : ℕ × F}
    (hq : q = p ∨ A.Covered facts q) : A.Covered ((p.1, h) :: facts) q := by
  rcases hq with rfl | hq | ⟨g, hg, hj⟩
  · refine .inr ⟨h, by simp, ?_⟩
    unfold merge at hm
    split at hm
    · cases hm
      exact hA.join_self _
    · exact hA.join_join _ _ _ _ hm (.inl rfl)
  · exact .inl hq
  · by_cases hqp : q.1 = p.1
    · rw [hqp] at hg
      simp only [merge, hg] at hm
      exact .inr ⟨h, by simp [hqp], hA.join_join _ _ _ _ hm (.inr hj)⟩
    · exact .inr ⟨g, by rw [lookup_cons_ne hqp, hg], hj⟩

/-- The depths of a solution are a fixpoint. -/
theorem Solution.fixpoint {D : Type*} (depth : F → D) {edges : ℕ → List ℕ} {effect : ℕ → D → D}
    {f : F} (hs : A.Solution (0, f) facts) (hne : ¬(0 = A.size ∧ A.exit f))
    (hj : ∀ g f, A.join g f = some g → depth g = depth f)
    (ht : ∀ i f next, A.transfer i f = some next →
      next.map (fun p => (p.1, depth p.2)) = (edges i).map (·, effect i (depth f))) :
    Fixpoint A.size edges effect (depth f) (fun i => (facts.lookup i).map depth) := by
  have covered {p : ℕ × F} (hp : A.Covered facts p) (hne : ¬(p.1 = A.size ∧ A.exit p.2)) :
      (facts.lookup p.1).map depth = some (depth p.2) := by
    obtain ⟨g, hg, hgf⟩ := hp.resolve_left hne
    rw [hg, Option.map_some, hj _ _ hgf]
  refine ⟨covered hs.start hne, fun i d hd j hj hlt => ?_⟩
  obtain ⟨f, hf, rfl⟩ := Option.map_eq_some_iff.mp hd
  obtain ⟨-, next, hn, hc⟩ := hs.closed i f hf
  obtain ⟨p, hp, heq⟩ := mem_map.mp (ht i f next hn ▸ mem_map_of_mem hj)
  obtain ⟨rfl, hd⟩ := Prod.mk.inj heq
  rw [covered (hc p hp) fun h => hlt.ne h.1, hd]

/-- What bounds a walk: a point has at most `width` successors, a join that changes a fact lowers
its rank, and a fact whose weight, at most one more than that of the fact before it, is no larger
than the flow has a rank of at most `bound`. -/
structure Ranked (A : Flow F) (rank weight : F → ℕ) (width bound : ℕ) : Prop where
  transfer : ∀ i f next, A.transfer i f = some next →
    next.length ≤ width ∧ ∀ p ∈ next, weight p.2 ≤ weight f + 1
  join : ∀ g f h, A.join g f = some h → weight h = weight g ∧ (h ≠ g → rank h < rank g)
  rank_le : ∀ f, weight f ≤ A.size → rank f ≤ bound

/-- How often a point may still be recorded. -/
def slot (rank : F → ℕ) (bound : ℕ) (facts : List (ℕ × F)) (i : ℕ) : ℕ :=
  match facts.lookup i with
  | none => bound + 1
  | some f => rank f

/-- How often all points may still be recorded; with no ranks, the points not met yet. -/
def potential (A : Flow F) (rank : F → ℕ) (bound : ℕ) (facts : List (ℕ × F)) : ℕ :=
  ∑ i ∈ Finset.range A.size, slot rank bound facts i

theorem slot_cons_le {rank : F → ℕ} {bound i : ℕ} (hr : rank h ≤ slot rank bound facts i) (j : ℕ) :
    slot rank bound ((i, h) :: facts) j ≤ slot rank bound facts j := by
  by_cases hj : j = i
  · subst hj
    simpa [slot] using hr
  · simp only [slot, lookup_cons_ne hj, le_refl]

theorem potential_cons_lt {rank : F → ℕ} {bound i : ℕ} (hi : i < A.size)
    (hr : rank h < slot rank bound facts i) :
    A.potential rank bound ((i, h) :: facts) < A.potential rank bound facts := by
  refine Finset.sum_lt_sum (fun j _ => slot_cons_le hr.le j) ⟨i, Finset.mem_range.mpr hi, ?_⟩
  simpa [slot] using hr

variable [DecidableEq F]

theorem Solution.fixpoint_of_eq {edges : ℕ → List ℕ} {effect : ℕ → F → F} {f : F}
    (hs : A.Solution (0, f) facts) (hne : ¬(0 = A.size ∧ A.exit f))
    (hj : ∀ g f, A.join g f = if g = f then some g else none)
    (ht : ∀ i f next, A.transfer i f = some next → next = (edges i).map (·, effect i f)) :
    Fixpoint A.size edges effect f (fun i => facts.lookup i) := by
  have hf := hs.fixpoint id hne (fun g f h => (Option.ite_none_right_eq_some.mp (hj g f ▸ h)).1)
    fun i f next hn => (map_id next).trans (ht i f next hn)
  simpa only [Option.map_id_fun, id] using hf

theorem Lawful.of_eq (hj : ∀ g f, A.join g f = if g = f then some g else none) :
    A.Lawful := by
  refine ⟨fun f => by simp [hj], fun g f h e hm he => ?_⟩
  grind

theorem Ranked.of_eq (hj : ∀ g f, A.join g f = if g = f then some g else none) {width : ℕ}
    (hw : ∀ i f next, A.transfer i f = some next → next.length ≤ width) : A.Ranked 0 0 width 0 := by
  refine ⟨fun i f next hn => ⟨hw i f next hn, by simp⟩, fun g f h hm => ?_, by simp⟩
  grind

/-- What a round that goes on has done: skipped a covered pair, or recorded a new fact. -/
theorem round_eq_some (hr : A.round push p queue facts = some (queue', facts')) :
    (A.Covered facts p ∧ queue' = queue ∧ facts' = facts) ∨
      ∃ h next, p.1 < A.size ∧ A.merge facts p.1 p.2 = some h ∧ facts.lookup p.1 ≠ some h ∧
        A.transfer p.1 h = some next ∧ queue' = push next queue ∧ facts' = (p.1, h) :: facts := by
  unfold round at hr
  split at hr
  next he =>
    cases hr
    exact .inl ⟨.inl he, rfl, rfl⟩
  · split at hr
    · cases hr
    · obtain ⟨h, hm, hr⟩ := Option.bind_eq_some_iff.mp hr
      split at hr
      next hl =>
        cases hr
        simp only [merge, hl] at hm
        exact .inl ⟨.inr ⟨h, hl, hm⟩, rfl, rfl⟩
      next hl =>
        obtain ⟨next, hn, hr⟩ := Option.bind_eq_some_iff.mp hr
        cases hr
        exact .inr ⟨h, next, by omega, hm, hl, hn, rfl, rfl⟩

/-- An invariant every round keeps holds where the walk ends; `R` is what a rejection tells. -/
theorem run_induct (Inv : List (ℕ × F) → List (ℕ × F) → Prop) (R : Prop)
    (hs : ∀ p queue facts, Inv (p :: queue) facts → match A.round push p queue facts with
      | none => R
      | some (queue', facts') => Inv queue' facts')
    {result : Option (List (ℕ × F))} (hr : A.run push fuel queue facts = some result)
    (hi : Inv queue facts) : (∃ out, result = some out ∧ Inv [] out) ∨ result = none ∧ R := by
  induction fuel, queue, facts using run.induct A push with
  | case1 =>
    simp only [run, Option.some.injEq] at hr
    exact .inl ⟨_, hr.symm, hi⟩
  | case2 => cases hr
  | case3 fuel p queue facts h =>
    have hR := hs p queue facts hi
    rw [run, h] at hr
    rw [h] at hR
    exact .inr ⟨(Option.some.inj hr).symm, hR⟩
  | case4 fuel p queue facts queue' facts' h ih =>
    have hi := hs p queue facts hi
    rw [run, h] at hr
    rw [h] at hi
    exact ih hr hi

variable (hpush : ∀ next queue, push next queue ~ next ++ queue) {start : ℕ × F}

include hpush

theorem Due.round (hA : A.Lawful) (hr : A.round push p queue facts = some (queue', facts'))
    {q : ℕ × F} (hq : A.Due (p :: queue) facts q) : A.Due queue' facts' q := by
  have hq : (q = p ∨ A.Covered facts q) ∨ q ∈ queue := by
    rcases hq with hq | hq
    · exact .inl (.inr hq)
    · exact (mem_cons.mp hq).imp_left .inl
  obtain ⟨hc, rfl, rfl⟩ | ⟨h, next, -, hm, -, -, rfl, rfl⟩ := round_eq_some hr
  · exact hq.imp_left fun hq => hq.elim (· ▸ hc) id
  · exact hq.imp (.cons hA hm) fun hq => (hpush _ _).mem_iff.mpr (mem_append_right _ hq)

/-- A finished walk solves the transfer equations. -/
theorem run_solution (hA : A.Lawful) (hr : A.run push fuel [start] [] = some (some out)) :
    A.Solution start out := by
  -- the consequences of what is recorded are accounted for, or still waiting
  obtain ⟨_, hout, hd, hp⟩ | ⟨hout, -⟩ := run_induct (fun queue facts => A.Due queue facts start ∧
    ∀ i f, facts.lookup i = some f → i < A.size ∧ ∃ next, A.transfer i f = some next ∧
      ∀ q ∈ next, A.Due queue facts q) True (fun p queue facts ⟨hd, hp⟩ => by
    split
    · trivial
    next queue' facts' hs =>
      refine ⟨hd.round hpush hA hs, fun i f hif => ?_⟩
      have old (hif : facts.lookup i = some f) : i < A.size ∧ ∃ next,
          A.transfer i f = some next ∧ ∀ q ∈ next, A.Due queue' facts' q := by
        obtain ⟨hi, next, hn, hq⟩ := hp i f hif
        exact ⟨hi, next, hn, fun q hq' => (hq q hq').round hpush hA hs⟩
      obtain ⟨-, rfl, rfl⟩ | ⟨h, next, hlt, -, -, hn, rfl, rfl⟩ := round_eq_some hs
      · exact old hif
      · obtain ⟨rfl, rfl⟩ | hif := lookup_cons_eq_some hif
        · exact ⟨hlt, next, hn, fun q hq =>
            .inr ((hpush _ _).mem_iff.mpr (mem_append_left _ hq))⟩
        · exact old hif) hr (by simp [Due])
  · cases hout
    exact ⟨by simpa [Due] using hd, by simpa [Due] using hp⟩
  · cases hout

/-- A walk over pairs that are all acceptable is not rejected. -/
theorem run_ok (Good : ℕ → F → Prop)
    (hg : ∀ i f, Good i f → (i = A.size ∧ A.exit f) ∨ (i < A.size ∧ ∃ next,
      A.transfer i f = some next ∧ ∀ p ∈ next, Good p.1 p.2))
    (hj : ∀ i f g, Good i f → Good i g → A.join g f = some g)
    {result : Option (List (ℕ × F))} (hr : A.run push fuel [start] [] = some result)
    (hs : Good start.1 start.2) : ∃ out, result = some out := by
  obtain ⟨out, rfl, -⟩ | ⟨-, ⟨⟩⟩ := run_induct (fun queue facts =>
    (∀ p ∈ queue, Good p.1 p.2) ∧ ∀ i f, facts.lookup i = some f → Good i f) False
    (fun p queue facts ⟨hq, hf⟩ => by
      obtain ⟨hp, hq⟩ := forall_mem_cons.mp hq
      rcases hg _ _ hp with he | ⟨hlt, next, hn, hgood⟩
      · simpa only [round, if_pos he] using ⟨hq, hf⟩
      · rw [round, if_neg (by omega), if_neg (by omega)]
        cases hl : facts.lookup p.1 with
        | some g =>
          simp only [merge, hl, hj _ _ _ hp (hf _ _ hl), Option.bind_eq_bind, Option.bind_some,
            if_true]
          exact ⟨hq, hf⟩
        | none =>
          simp only [merge, hl, hn, Option.bind_eq_bind, Option.bind_some, reduceCtorEq, if_false]
          refine ⟨fun q hq' => ?_, fun i f hif => ?_⟩
          · rcases mem_append.mp ((hpush _ _).mem_iff.mp hq') with hq' | hq'
            · exact hgood q hq'
            · exact hq q hq'
          · obtain ⟨rfl, rfl⟩ | hif := lookup_cons_eq_some hif
            · exact hp
            · exact hf i f hif) hr (by simpa using hs)
  exact ⟨out, rfl⟩

/-- The walk empties its queue within the fuel its potential asks for. -/
theorem run_isSome {rank weight : F → ℕ} {width bound : ℕ} (hA : A.Ranked rank weight width bound)
    (hq : ∀ p ∈ queue, weight p.2 + A.potential 0 0 facts ≤ A.size)
    (hf : ∀ i f, facts.lookup i = some f → weight f + A.potential 0 0 facts < A.size)
    (hfuel : A.potential rank bound facts * width + queue.length ≤ fuel) :
    (A.run push fuel queue facts).isSome := by
  induction fuel, queue, facts using run.induct A push with
  | case1 => rw [run]; rfl
  | case2 => simp at hfuel
  | case3 fuel p queue facts h => rw [run, h]; rfl
  | case4 fuel p queue facts queue' facts' hs ih =>
    rw [run, hs]
    have hq' : ∀ q ∈ queue, weight q.2 + A.potential 0 0 facts ≤ A.size :=
      fun q hq' => hq q (mem_cons_of_mem _ hq')
    rw [length_cons] at hfuel
    obtain ⟨-, rfl, rfl⟩ | ⟨h, next, hlt, hm, hl, hn, rfl, rfl⟩ := round_eq_some hs
    · exact ih hq' hf (by omega)
    obtain ⟨hwidth, hnext⟩ := hA.transfer _ _ _ hn
    -- the new fact weighs less than the points met, and its rank is lower than the old one's
    have hw : weight h + A.potential 0 0 ((p.1, h) :: facts) < A.size ∧
        A.potential 0 0 ((p.1, h) :: facts) ≤ A.potential 0 0 facts ∧
        rank h < slot rank bound facts p.1 := by
      unfold merge at hm
      split at hm
      next hg =>
        obtain rfl := Option.some.inj hm
        have hp := hq p mem_cons_self
        have hlt' : A.potential 0 0 ((p.1, p.2) :: facts) < A.potential 0 0 facts :=
          potential_cons_lt hlt (by simp [slot, hg])
        refine ⟨by omega, hlt'.le, ?_⟩
        have := hA.rank_le p.2 (by omega)
        simp only [slot, hg]
        omega
      next g hg =>
        obtain ⟨hweight, hrank⟩ := hA.join _ _ _ hm
        have hle : A.potential 0 0 ((p.1, h) :: facts) ≤ A.potential 0 0 facts :=
          Finset.sum_le_sum fun j _ => slot_cons_le (by simp [slot]) j
        have := hf _ _ hg
        refine ⟨by omega, hle, ?_⟩
        simp only [slot, hg]
        exact hrank fun hgh => hl (hgh ▸ hg)
    have hpot := potential_cons_lt hlt hw.2.2
    refine ih (fun q hq'' => ?_) (fun i f hif => ?_) ?_
    · rcases mem_append.mp ((hpush _ _).mem_iff.mp hq'') with hq'' | hq''
      · have := hnext q hq''
        omega
      · have := hq' q hq''
        omega
    · obtain ⟨rfl, rfl⟩ | hif := lookup_cons_eq_some hif
      · exact hw.1
      · have := hf i f hif
        omega
    · have hlen := (hpush next queue).length_eq
      have hmul := Nat.mul_le_mul_right width hpot
      rw [Nat.succ_mul] at hmul
      rw [length_append] at hlen
      omega

/-- A walk from one pair of no weight. -/
theorem run_start_isSome {rank weight : F → ℕ} {width bound : ℕ}
    (hA : A.Ranked rank weight width bound) (hw : weight start.2 = 0)
    (hfuel : A.size * (bound + 1) * width + 1 ≤ fuel) : (A.run push fuel [start] []).isSome := by
  refine run_isSome hpush hA ?_ (by simp) ?_
  · simp [potential, slot, hw]
  · simpa [potential, slot] using hfuel

end Flow

theorem toOption_eq_some {α : Type*} {x : Except E α} {a : α} :
    x.toOption = some a ↔ x = .ok a := by
  cases x <;> simp [Except.toOption]

/-- A forward analysis over the points `0, …, size` that records one fact for each; `size` is the
exit. -/
structure Analysis (F E : Type*) where
  size : ℕ
  exit : F → Except E Unit
  outside : E
  conflict : ℕ → E
  transfer : ℕ → F → Except E (List (ℕ × F))

namespace Analysis

variable [DecidableEq F] (A : Analysis F E)

/-- The worklist loop, with the recorded facts as an association list. -/
def loop : ℕ → List (ℕ × F) → List (ℕ × F) → Option (Except E (List (ℕ × F)))
  | _, [], facts => some (.ok facts)
  | 0, _ :: _, _ => none
  | fuel + 1, (i, f) :: queue, facts =>
    if i = A.size then
      match A.exit f with
      | .error e => some (.error e)
      | .ok () => loop fuel queue facts
    else if A.size < i then
      some (.error A.outside)
    else
      match facts.lookup i with
      | some g => if g = f then loop fuel queue facts else some (.error (A.conflict i))
      | none =>
        match A.transfer i f with
        | .error e => some (.error e)
        | .ok next => loop fuel (queue ++ next) ((i, f) :: facts)

/-- The analysis as a flow. -/
@[simps]
def flow : Flow F where
  size := A.size
  exit f := (A.exit f).isOk
  join g f := if g = f then some g else none
  transfer i f := (A.transfer i f).toOption

theorem loop_eq_run (fuel : ℕ) (queue facts : List (ℕ × F)) : (A.loop fuel queue facts).map Except.toOption =
    A.flow.run (fun next queue => queue ++ next) fuel queue facts := by
  induction fuel generalizing queue facts with
  | zero => cases queue <;> rfl
  | succ fuel ih =>
    obtain _ | ⟨⟨i, f⟩, queue⟩ := queue
    · rfl
    rw [loop, Flow.run, Flow.round]
    by_cases hi : i = A.size
    · cases he : A.exit f
      · simp [hi, Except.isOk, Except.toBool, Except.toOption, he]
      · simpa [hi, Except.isOk, Except.toBool, he] using ih _ _
    by_cases hlt : A.size < i
    · simp [hi, hlt, hlt.le, Except.toOption]
    have hle : ¬A.size ≤ i := by omega
    cases hl : facts.lookup i with
    | some g =>
      by_cases hg : g = f
      · simpa [Flow.merge, hl, hi, hlt, hle, hg] using ih _ _
      · simp [Flow.merge, hl, hi, hlt, hle, hg, Except.toOption]
    | none =>
      cases ht : A.transfer i f
      · simp [Flow.merge, hl, hi, hlt, hle, ht, Except.toOption]
      · simpa [Flow.merge, hl, hi, hlt, hle, ht, Except.toOption] using ih _ _

end Analysis
end Worklist
