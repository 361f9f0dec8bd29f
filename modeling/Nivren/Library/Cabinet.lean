import Nivren.Library.Program

/-! Cabinets of documents.

A document is written or removed as a whole, and the cabinet keeps what it held before every such
change. A process that is cut off leaves one of the contents its run passed through. Some documents
are placed once: a second placement has to agree with the first.
-/

open Program

variable {ε κ ν α β : Type}

abbrev Contents (κ ν : Type) := κ → Option ν

structure Cabinet (κ ν : Type) where
  contents : Contents κ ν
  /-- What was kept before each change, the last one first. -/
  past : List (Contents κ ν)

namespace Cabinet

variable [DecidableEq κ]

def change (key : κ) (document : Option ν) (c : Cabinet κ ν) : Cabinet κ ν :=
  ⟨Function.update c.contents key document, c.contents :: c.past⟩

@[simp] theorem contents_change (key : κ) (document : Option ν) (c : Cabinet κ ν) :
    (change key document c).contents = Function.update c.contents key document := rfl

def put (key : κ) (document : ν) : Fallible ε (Cabinet κ ν) Unit := write (change key (some document))

def remove (key : κ) : Fallible ε (Cabinet κ ν) Unit := write (change key none)

@[simp] theorem exec_put (key : κ) (document : ν) (c : Cabinet κ ν) :
    exec (put key document : Fallible ε (Cabinet κ ν) Unit) c =
      (.ok (), change key (some document) c) := rfl

structure Placement (ε κ ν : Type) where
  key : κ
  document : ν
  /-- What is already there will do. -/
  agrees : ν → Bool
  refusal : ε

def place (p : Placement ε κ ν) : Fallible ε (Cabinet κ ν) Unit := do
  match ← read fun c => c.contents p.key with
  | none => put p.key p.document
  | some existing => if p.agrees existing then return else throw p.refusal

def placeAll : List (Placement ε κ ν) → Fallible ε (Cabinet κ ν) Unit
  | [] => return
  | p :: rest => do
    place p
    placeAll rest

def Placement.Conflicts (p : Placement ε κ ν) (contents : Contents κ ν) : Prop :=
  ∃ existing, contents p.key = some existing ∧ p.agrees existing = false

def Orderly : List (Placement ε κ ν) → Contents κ ν → Prop
  | [], _ => True
  | p :: rest, contents =>
    (contents p.key = none → ∀ q ∈ rest, ¬ q.Conflicts contents) ∧
      ∀ existing, contents p.key = some existing → p.agrees existing = true → Orderly rest contents

variable {c : Cabinet κ ν} {p : Placement ε κ ν} {ps : List (Placement ε κ ν)}

theorem exec_place_missing (h : c.contents p.key = none) :
    exec (place p) c = (.ok (), change p.key (some p.document) c) := by
  rw [place, exec_bind, exec_read, h]
  rfl

theorem exec_place_agrees {existing : ν} (h : c.contents p.key = some existing)
    (ha : p.agrees existing = true) : exec (place p) c = (.ok (), c) := by
  rw [place, exec_bind, exec_read, h]
  dsimp only
  rw [if_pos ha, exec_pure]

theorem exec_place_conflict (h : p.Conflicts c.contents) :
    exec (place p) c = (.error p.refusal, c) := by
  obtain ⟨existing, hes, ha⟩ := h
  rw [place, exec_bind, exec_read, hes]
  dsimp only
  rw [if_neg (by simp [ha]), exec_throw]

omit [DecidableEq κ] in
theorem Placement.not_conflicts (h : c.contents p.key = none ∨
    ∃ existing, c.contents p.key = some existing ∧ p.agrees existing = true) :
    ¬ p.Conflicts c.contents := by
  rintro ⟨other, hot, hnot⟩
  rcases h with hn | ⟨existing, hkey, ha⟩
  · rw [hn] at hot
    cases hot
  · obtain rfl := Option.some.inj (hkey.symm.trans hot)
    simp [ha] at hnot

/-- The three things a placement can do. -/
theorem place_cases (p : Placement ε κ ν) (c : Cabinet κ ν) :
    c.contents p.key = none ∧ exec (place p) c = (.ok (), change p.key (some p.document) c) ∨
      (∃ existing, c.contents p.key = some existing ∧ p.agrees existing = true) ∧
        exec (place p) c = (.ok (), c) ∨
      p.Conflicts c.contents ∧ exec (place p) c = (.error p.refusal, c) := by
  cases hkey : c.contents p.key with
  | none => exact .inl ⟨rfl, exec_place_missing hkey⟩
  | some existing =>
    cases ha : p.agrees existing with
    | true => exact .inr (.inl ⟨⟨existing, rfl, ha⟩, exec_place_agrees hkey ha⟩)
    | false =>
      have hc : p.Conflicts c.contents := ⟨existing, hkey, ha⟩
      exact .inr (.inr ⟨hc, exec_place_conflict hc⟩)

variable {c' : Cabinet κ ν}

theorem exec_placeAll_cons_of_ok (h : exec (place p) c = (.ok (), c')) :
    exec (placeAll (p :: ps)) c = exec (placeAll ps) c' := by
  rw [placeAll, exec_bind, h]

theorem exec_placeAll_cons_of_error {e : ε}
    (h : exec (place p) c = (.error e, c')) : exec (placeAll (p :: ps)) c = (.error e, c') := by
  rw [placeAll, exec_bind, h]

/-- What is there stays there. -/
theorem placeAll_keeps {key : κ} {document : ν} (h : c.contents key = some document) :
    (exec (placeAll ps) c).2.contents key = some document := by
  induction ps generalizing c with
  | nil => exact h
  | cons p rest ih =>
    rcases place_cases p c with ⟨hn, hec⟩ | ⟨-, hec⟩ | ⟨-, hec⟩
    · rw [exec_placeAll_cons_of_ok hec]
      have hne : key ≠ p.key := by
        rintro rfl
        rw [h] at hn
        cases hn
      exact ih ((Function.update_of_ne hne ..).trans h)
    · rw [exec_placeAll_cons_of_ok hec]
      exact ih h
    · rw [exec_placeAll_cons_of_error hec]
      exact h

theorem conflicts_change {key : κ} {document : Option ν} (h : p.key ≠ key) :
    p.Conflicts (change key document c).contents ↔ p.Conflicts c.contents := by
  rw [Placement.Conflicts, contents_change, Function.update_of_ne h, Placement.Conflicts]

/-- Documents under different keys are all placed exactly if none conflicts. -/
theorem placeAll_isOk (hke : (ps.map Placement.key).Nodup) :
    (exec (placeAll ps) c).1 = .ok () ↔ ∀ p ∈ ps, ¬ p.Conflicts c.contents := by
  induction ps generalizing c with
  | nil => exact ⟨fun _ _ hp => absurd hp List.not_mem_nil, fun _ => rfl⟩
  | cons p rest ih =>
    obtain ⟨hf, hr⟩ := List.nodup_cons.mp hke
    rw [List.forall_mem_cons]
    rcases place_cases p c with ⟨hn, hec⟩ | ⟨hth, hec⟩ | ⟨hc, hec⟩
    · have hsa : (∀ q ∈ rest, ¬ q.Conflicts (change p.key (some p.document) c).contents) ↔
          ∀ q ∈ rest, ¬ q.Conflicts c.contents := by
        refine forall₂_congr fun q hq => not_congr (conflicts_change fun heq => hf ?_)
        exact heq ▸ List.mem_map_of_mem hq
      rw [exec_placeAll_cons_of_ok hec, ih hr, hsa]
      exact ⟨fun h => ⟨Placement.not_conflicts (.inl hn), h⟩, And.right⟩
    · rw [exec_placeAll_cons_of_ok hec, ih hr]
      exact ⟨fun h => ⟨Placement.not_conflicts (.inr hth), h⟩, And.right⟩
    · rw [exec_placeAll_cons_of_error hec]
      exact ⟨fun h => (nomatch h), fun h => absurd hc h.1⟩

/-- Refused placements change nothing exactly if they are orderly. -/
theorem placeAll_unchanged_iff (hke : (ps.map Placement.key).Nodup) :
    ((exec (placeAll ps) c).1 ≠ .ok () → (exec (placeAll ps) c).2.contents = c.contents) ↔
      Orderly ps c.contents := by
  induction ps generalizing c with
  | nil => exact ⟨fun _ => trivial, fun _ _ => rfl⟩
  | cons p rest ih =>
    obtain ⟨hf, hr⟩ := List.nodup_cons.mp hke
    rcases place_cases p c with ⟨hn, hec⟩ | ⟨⟨existing, hkey, ha⟩, hec⟩ | ⟨hc, hec⟩
    · -- the document is there afterwards, so a refusal behind it shows
      have hch : (exec (placeAll rest) (change p.key (some p.document) c)).2.contents ≠
          c.contents := by
        intro heq
        have hp := @placeAll_keeps _ _ _ _ (change p.key (some p.document) c) rest p.key
          p.document (Function.update_self ..)
        rw [heq, hn] at hp
        cases hp
      have hall := placeAll_isOk (c := c) hke
      rw [exec_placeAll_cons_of_ok hec, List.forall_mem_cons] at hall
      rw [exec_placeAll_cons_of_ok hec]
      constructor
      · intro h
        have hok := not_imp_comm.mp h hch
        exact ⟨fun _ => (hall.mp hok).2, by simp [hn]⟩
      · intro h hnot
        exact absurd (hall.mpr ⟨Placement.not_conflicts (.inl hn), h.1 hn⟩) hnot
    · rw [exec_placeAll_cons_of_ok hec, ih hr]
      constructor
      · exact fun h => ⟨by simp [hkey], fun _ _ _ => h⟩
      · exact fun h => h.2 existing hkey ha
    · obtain ⟨existing, hkey, ha⟩ := hc
      rw [exec_placeAll_cons_of_error hec]
      refine iff_of_true (fun _ => rfl) ⟨by simp [hkey], fun other hot htr => ?_⟩
      obtain rfl := Option.some.inj (hkey.symm.trans hot)
      simp [ha] at htr

/-- The contents that a run passes through, from the first to the last. A run that is cut off after a
number of changes leaves the contents of that number. -/
def passed (m : Fallible ε (Cabinet κ ν) α) (contents : Contents κ ν) : List (Contents κ ν) :=
  let after := (exec m ⟨contents, []⟩).2
  after.past.reverse ++ [after.contents]

/-- One cabinet comes from another by changes of one kind. -/
inductive Trail (R : Contents κ ν → Contents κ ν → Prop) (c : Cabinet κ ν) : Cabinet κ ν → Prop
  | start : Trail R c c
  | change {c' : Cabinet κ ν} {key : κ} {document : Option ν} (h : Trail R c c')
      (hchange : R c'.contents (Function.update c'.contents key document)) :
      Trail R c (change key document c')

open Relation

variable {R : Contents κ ν → Contents κ ν → Prop} {c' : Cabinet κ ν}

theorem Trail.trans {c₁ c₂ c₃ : Cabinet κ ν} (h : Trail R c₁ c₂) (h' : Trail R c₂ c₃) :
    Trail R c₁ c₃ := by
  induction h' with
  | start => exact h
  | change _ hc ih => exact .change ih hc

theorem Trail.reaches (h : Trail R c c') : ReflTransGen R c.contents c'.contents := by
  induction h with
  | start => exact .refl
  | change h hc ih => exact ih.tail hc

/-- Everything that was kept on the way can be reached and was left by a change of the kind. -/
theorem Trail.past (h : Trail R c c') : ∃ stores, c'.past = stores ++ c.past ∧
      ∀ store ∈ stores, ReflTransGen R c.contents store ∧ ∃ next, R store next := by
  induction h with
  | start => exact ⟨[], rfl, fun _ h => absurd h List.not_mem_nil⟩
  | @change before key document h hc ih =>
    obtain ⟨stores, hp, hst⟩ := ih
    refine ⟨before.contents :: stores, congrArg (before.contents :: ·) hp, ?_⟩
    rw [List.forall_mem_cons]
    exact ⟨⟨h.reaches, _, hc⟩, hst⟩

end Cabinet
