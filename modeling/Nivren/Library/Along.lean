import Mathlib

/-! State programs that move the state along a relation.

`Moves` is a class: for a reflexive and transitive relation its instances follow the text of a
program, so that instance search goes through everything but case distinctions.
-/

namespace Along

variable {S α β γ : Type} {R : S → S → Prop}

/-- Every run of the program moves the state along the relation. -/
class Moves (R : S → S → Prop) (m : StateM S α) : Prop where
  moves : ∀ s, R s (m.run s).2

theorem moves_modify {f : S → S} (h : ∀ s, R s (f s)) : Moves R (modify f) := ⟨h⟩

variable {m : StateM S α}

instance [hm : Moves R m] : Moves R (discard m) := ⟨hm.moves⟩

instance {c : Prop} [Decidable c] {n : StateM S α} [hm : Moves R m] [hn : Moves R n] :
    Moves R (if c then m else n) := by
  by_cases hc : c
  · rwa [if_pos hc]
  · rwa [if_neg hc]

section Preorder

variable [Std.Refl R]

instance (a : α) : Moves R (pure a) := ⟨fun s => Std.Refl.refl s⟩

instance moves_get : Moves R (get : StateM S S) := ⟨fun s => Std.Refl.refl s⟩

end Preorder

/-- The program started in `s` ends in a state that meets `Q`. -/
def Ends (m : StateM S α) (s : S) (Q : S → Prop) : Prop := Q (m.run s).2

variable {f : α → StateM S β}

/-- A property that holds at the end only if it held before can be read off each part of a
program. -/
theorem ends_bind {Q : S → Prop} {s : S}
    (hb : ∀ s s', R s s' → Q s' → Q s) [hf : ∀ a, Moves R (f a)] (h : Ends (m >>= f) s Q) :
    Ends m s Q ∧ Ends (f (m.run s).1) (m.run s).2 Q :=
  ⟨hb _ _ ((hf _).moves _) h, h⟩

variable [IsTrans S R]

theorem Moves.bind (hm : Moves R m) (hf : ∀ a, Moves R (f a)) : Moves R (m >>= f) := by
  constructor
  intro s
  have hfi : R s (m.run s).2 := hm.moves s
  have hse : R (m.run s).2 ((f (m.run s).1).run (m.run s).2).2 := (hf _).moves _
  exact IsTrans.trans _ _ _ hfi hse

instance [hm : Moves R m] [hf : ∀ a, Moves R (f a)] : Moves R (m >>= f) := hm.bind hf

instance {n : StateM S β} [hm : Moves R m] [hn : Moves R n] : Moves R (m *> n) :=
  hm.bind fun _ => hn

variable {f : γ → StateM S PUnit} {values : List γ}

theorem Moves.forM [Std.Refl R] (h : ∀ a, Moves R (f a)) : Moves R (values.forM f) := by
  induction values with
  | nil => exact inferInstanceAs (Moves R (pure PUnit.unit))
  | cons a rest ih => exact (h a).bind fun _ => ih

instance [Std.Refl R] [h : ∀ a, Moves R (f a)] : Moves R (values.forM f) := .forM h

end Along
