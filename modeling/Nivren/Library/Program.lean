import Mathlib

/-! Programs with state and failure, and three ways to reason about them.

A failure keeps the state it happened in. `Ensures` is a weakest precondition; its rules are
equivalences, so `simp` runs a program symbolically. `Moves` says that a program takes the state along
a relation, whatever comes of it. `Blind` says that a program cannot tell a
state from its image under a map and keeps an invariant.
-/

theorem bind_eq_ok_iff {ε α β : Type} {x : Except ε α} {f : α → Except ε β} {b : β} :
    (x >>= f) = .ok b ↔ ∃ a, x = .ok a ∧ f a = .ok b := by
  cases x with
  | error e => exact ⟨fun h => (nomatch h), fun ⟨_, h, _⟩ => (nomatch h)⟩
  | ok a => exact ⟨fun h => ⟨a, rfl, h⟩, fun ⟨_, rfl, h⟩ => h⟩

/-- A check in a `do` block that may end it. -/
theorem unless_eq_ok_iff {ε α : Type} {c : Prop} [Decidable c] {e : ε} {k : PUnit → Except ε α}
    {a : α} :
    (if c then (throw e : Except ε PUnit) >>= k else k ⟨⟩) = .ok a ↔ ¬ c ∧ k ⟨⟩ = .ok a := by
  split
  next hc => exact ⟨fun h => (nomatch h), fun h => absurd hc h.1⟩
  next hc => exact ⟨fun h => ⟨hc, h⟩, fun h => h.2⟩

namespace Program

variable {ε S α β : Type}

abbrev Fallible (ε S : Type) := ExceptT ε (StateM S)

def exec (m : Fallible ε S α) (s : S) : Except ε α × S := m.run s

def read (f : S → α) : Fallible ε S α :=
  return f (← get)

def write (f : S → S) : Fallible ε S Unit := modify f

def zoom {T ε' : Type} (get : S → T) (set : T → S → S) (f : ε → ε') (m : Fallible ε T α) :
    Fallible ε' S α :=
  fun s => ((exec m (get s)).1.mapError f, set (exec m (get s)).2 s)

section Exec

variable (s : S)

@[simp] theorem exec_pure (a : α) : exec (pure a : Fallible ε S α) s = (.ok a, s) := rfl

@[simp] theorem exec_throw (e : ε) : exec (throw e : Fallible ε S α) s = (.error e, s) := rfl

@[simp] theorem exec_read (f : S → α) : exec (read f : Fallible ε S α) s = (.ok (f s), s) := rfl

@[simp] theorem exec_write (f : S → S) : exec (write f : Fallible ε S Unit) s = (.ok (), f s) := rfl

@[simp] theorem exec_lift (r : Except ε α) : exec (liftM r : Fallible ε S α) s = (r, s) := rfl

theorem lift_ok_bind (a : α) (f : α → Fallible ε S β) :
    ((liftM (.ok a : Except ε α) : Fallible ε S α) >>= f) = f a := rfl

theorem exec_bind (m : Fallible ε S α) (f : α → Fallible ε S β) : exec (m >>= f) s =
      match exec m s with
      | (.ok a, s') => exec (f a) s'
      | (.error e, s') => (.error e, s') := by
  change ExceptT.bindCont f (m s).1 (m s).2 = _
  unfold exec ExceptT.run
  rcases m s with ⟨_ | _, _⟩ <;> rfl

theorem exec_bind_eq_ok {m : Fallible ε S α} {f : α → Fallible ε S β} {s s' : S} {b : β}
    (h : exec (m >>= f) s = (.ok b, s')) :
    ∃ a s₁, exec m s = (.ok a, s₁) ∧ exec (f a) s₁ = (.ok b, s') := by
  rw [exec_bind] at h
  rcases hm : exec m s with ⟨_ | a, s₁⟩
  all_goals rw [hm] at h
  · cases h
  · exact ⟨a, s₁, rfl, h⟩

/-- A handler starts in the state the failure happened in. -/
theorem exec_tryCatch (m : Fallible ε S α) (handler : ε → Fallible ε S α) :
    exec (tryCatch m handler) s =
      match exec m s with
      | (.ok a, s') => (.ok a, s')
      | (.error e, s') => exec (handler e) s' := by
  change (ExceptT.tryCatch m handler).run s = _
  unfold exec ExceptT.run ExceptT.tryCatch ExceptT.mk
  change (match (m s).1 with | .ok a => pure (.ok a) | .error e => handler e : StateM S _) (m s).2 = _
  rcases m s with ⟨_ | _, _⟩ <;> rfl

end Exec

/-- `m` started in `s` ends in a result that meets `Q` or in a failure that meets `R`. -/
def Ensures (m : Fallible ε S α) (s : S) (Q : α → S → Prop) (R : ε → S → Prop) : Prop :=
  match exec m s with
  | (.ok a, s') => Q a s'
  | (.error e, s') => R e s'

variable {m : Fallible ε S α} {handler : ε → Fallible ε S α} {n : Fallible ε S β} {e : ε} {a : α}

section Ensures

variable {s : S} {Q : α → S → Prop} {R : ε → S → Prop}

@[simp] theorem ensures_pure : Ensures (pure a : Fallible ε S α) s Q R ↔ Q a s := Iff.rfl

@[simp] theorem ensures_throw : Ensures (throw e : Fallible ε S α) s Q R ↔ R e s := Iff.rfl

@[simp] theorem ensures_read {f : S → α} : Ensures (read f : Fallible ε S α) s Q R ↔ Q (f s) s :=
  Iff.rfl

@[simp] theorem ensures_write {f : S → S} {Q : Unit → S → Prop} :
    Ensures (write f : Fallible ε S Unit) s Q R ↔ Q () (f s) := Iff.rfl

@[simp] theorem ensures_bind {f : α → Fallible ε S β} {Q : β → S → Prop} :
    Ensures (m >>= f) s Q R ↔ Ensures m s (fun a s' => Ensures (f a) s' Q R) R := by
  unfold Ensures
  rw [exec_bind]
  rcases exec m s with ⟨_ | _, _⟩ <;> rfl

@[simp] theorem ensures_map {f : α → β} {Q : β → S → Prop} :
    Ensures (f <$> m) s Q R ↔ Ensures m s (fun a s' => Q (f a) s') R := by
  rw [← bind_pure_comp, ensures_bind]
  rfl

@[simp] theorem ensures_seqRight {Q : β → S → Prop} :
    Ensures (m *> n) s Q R ↔ Ensures m s (fun _ s' => Ensures n s' Q R) R := by
  rw [seqRight_eq_bind]
  simp

@[simp] theorem ensures_tryCatch :
    Ensures (tryCatch m handler) s Q R ↔ Ensures m s Q (fun e s' => Ensures (handler e) s' Q R) := by
  unfold Ensures
  rw [exec_tryCatch]
  rcases exec m s with ⟨_ | _, _⟩ <;> rfl

theorem ensures_zoom {T ε' : Type} {get : S → T} {set : T → S → S} {f : ε' → ε} {m : Fallible ε' T α} :
    Ensures (zoom get set f m) s Q R ↔
      Ensures m (get s) (fun a t => Q a (set t s)) (fun e t => R (f e) (set t s)) := by
  have hec : exec (zoom get set f m) s =
      ((exec m (get s)).1.mapError f, set (exec m (get s)).2 s) := rfl
  unfold Ensures
  rw [hec]
  rcases exec m (get s) with ⟨_ | _, _⟩ <;> rfl

/-- A lifted outcome. -/
@[simp] theorem ensures_lift {r : Except ε α} :
    Ensures (liftM r : Fallible ε S α) s Q R ↔ (∀ a, r = .ok a → Q a s) ∧ ∀ e, r = .error e → R e s := by
  unfold Ensures
  rw [exec_lift]
  cases r with
  | ok a => simp
  | error e => simp

variable {Q' : α → S → Prop} {R' : ε → S → Prop}

theorem Ensures.mono
    (h : Ensures m s Q R) (hQ : ∀ a s', Q a s' → Q' a s') (hR : ∀ e s', R e s' → R' e s') :
    Ensures m s Q' R' := by
  unfold Ensures at *
  split at h
  · exact hQ _ _ h
  · exact hR _ _ h

theorem Ensures.and (h : Ensures m s Q R)
    (h' : Ensures m s Q' R') : Ensures m s
    (fun a s' => Q a s' ∧ Q' a s') fun e s' => R e s' ∧ R' e s' := by
  unfold Ensures at *
  split at h
  next hec =>
    rw [hec] at h'
    exact ⟨h, h'⟩
  next hec =>
    rw [hec] at h'
    exact ⟨h, h'⟩

theorem Ensures.of_exec (hQ : ∀ a s', exec m s = (.ok a, s') → Q a s')
    (hR : ∀ e s', exec m s = (.error e, s') → R e s') : Ensures m s Q R := by
  unfold Ensures
  split
  next a s' hec => exact hQ a s' hec
  next e s' hec => exact hR e s' hec

theorem Ensures.of_ok {s' : S} (h : Ensures m s Q R) (hec : exec m s = (.ok a, s')) : Q a s' := by
  rwa [Ensures, hec] at h

/-- A program that cannot fail. -/
theorem Ensures.exists_ok (h : Ensures m s Q fun _ _ => False) :
    ∃ a s', exec m s = (.ok a, s') ∧ Q a s' := by
  unfold Ensures at h
  split at h
  next a s' hec => exact ⟨a, s', hec, h⟩
  · exact h.elim

/-- What holds of every result and every failure. -/
theorem Ensures.of_forall (hQ : ∀ a s', Q a s') (hR : ∀ e s', R e s') : Ensures m s Q R := by
  unfold Ensures
  split
  · exact hQ _ _
  · exact hR _ _

section Bind

variable {f : α → Fallible ε S β} {P : β → S → Prop}

theorem Ensures.bind (hm : Ensures m s Q R) (hf : ∀ a s', Q a s' → Ensures (f a) s' P R) :
    Ensures (m >>= f) s P R :=
  ensures_bind.mpr (hm.mono hf fun _ _ h => h)

/-- The first program does not fail. -/
theorem Ensures.total (hm : Ensures m s Q fun _ _ => False)
    (hf : ∀ a s', Q a s' → Ensures (f a) s' P R) : Ensures (m >>= f) s P R :=
  ensures_bind.mpr (hm.mono hf fun _ _ h => h.elim)

end Bind

/-- Every result meets `Q`; `m` may fail as well. -/
abbrev Returns (m : Fallible ε S α) (s : S) (Q : α → S → Prop) : Prop := Ensures m s Q fun _ _ => True

namespace Returns

theorem of_forall (hQ : ∀ a s', Q a s') : Returns m s Q := Ensures.of_forall hQ fun _ _ => trivial

variable {f : α → Fallible ε S β} {Q' : β → S → Prop}

theorem bind (hm : Ensures m s Q R) (hf : ∀ a s', Q a s' → Returns (f a) s' Q') :
    Returns (m >>= f) s Q' :=
  ensures_bind.mpr (hm.mono hf fun _ _ _ => trivial)

theorem skip (hf : ∀ a s', Returns (f a) s' Q') : Returns (m >>= f) s Q' :=
  ensures_bind.mpr (of_forall hf)

end Returns

end Ensures

/-- Every run of `m` takes the state along `R`. -/
def Moves (R : S → S → Prop) (m : Fallible ε S α) : Prop := ∀ s, R s (exec m s).2

namespace Moves

variable {R : S → S → Prop}

theorem ite {c : Prop} [Decidable c] {n : Fallible ε S α} (hm : Moves R m) (hn : Moves R n) :
    Moves R (if c then m else n) := by
  split
  · exact hm
  · exact hn

theorem write {g : S → S} (h : ∀ s, R s (g s)) : Moves R (write g : Fallible ε S Unit) := h

section Trans

variable [IsTrans S R]

theorem bind {k : α → Fallible ε S β} (hm : Moves R m) (hk : ∀ a, Moves R (k a)) :
    Moves R (m >>= k) := by
  intro s
  have hf := hm s
  rw [exec_bind]
  rcases hec : exec m s with ⟨outcome, s'⟩
  rw [hec] at hf
  cases outcome with
  | error e => exact hf
  | ok a => exact IsTrans.trans _ _ _ hf (hk a s')

theorem tryCatch (hm : Moves R m)
    (hh : ∀ e, Moves R (handler e)) : Moves R (tryCatch m handler) := by
  intro s
  have hf := hm s
  rw [exec_tryCatch]
  rcases hec : exec m s with ⟨outcome, s'⟩
  rw [hec] at hf
  cases outcome with
  | error e => exact IsTrans.trans _ _ _ hf (hh e s')
  | ok a => exact hf

end Trans

variable [Std.Refl R]

theorem pure (a : α) : Moves R (pure a : Fallible ε S α) := fun s => Std.Refl.refl s

theorem throw (e : ε) : Moves R (throw e : Fallible ε S α) := fun s => Std.Refl.refl s

theorem read {g : S → α} : Moves R (read g : Fallible ε S α) := fun s => Std.Refl.refl s

theorem lift (r : Except ε α) : Moves R (liftM r : Fallible ε S α) := fun s => Std.Refl.refl s

/-- A check in a `do` block that may end it. -/
theorem guarded {c : Prop} [Decidable c] {k : PUnit → Fallible ε S α} (hk : Moves R (k ⟨⟩)) :
    Moves R (if c then (throwThe ε e : Fallible ε S PUnit) >>= k else k ⟨⟩) :=
  .ite (fun s => Std.Refl.refl s) hk

theorem map [IsTrans S R] {g : α → β} (hm : Moves R m) : Moves R (g <$> m) := by
  rw [← bind_pure_comp]
  exact hm.bind fun a => .pure (g a)

end Moves

section Leaves

variable {γ : Type} {f : S → γ}

def Alike (f : S → γ) (s s' : S) : Prop := f s' = f s

instance : Std.Refl (Alike f) := ⟨fun _ => rfl⟩

instance : IsTrans S (Alike f) := ⟨fun _ _ _ h h' => h'.trans h⟩

/-- `m` does not change what `f` shows of the state. -/
abbrev Leaves (f : S → γ) (m : Fallible ε S α) : Prop := Moves (Alike f) m

namespace Leaves

theorem zoom {T ε' : Type} {get : S → T} {set : T → S → S} {e : ε' → ε} {m : Fallible ε' T α}
    {g : T → γ}
    (hm : Leaves g m) (hset : ∀ t s, g t = g (get s) → f (set t s) = f s) :
    Leaves f (Program.zoom get set e m) :=
  fun s => hset _ s (hm (get s))

theorem mono {δ : Type} {g : γ → δ} (hm : Leaves f m) : Leaves (fun s => g (f s)) m :=
  fun s => congrArg g (hm s)

theorem all {ι : Type} {g : ι → S → γ} (hm : ∀ i, Leaves (g i) m) : Leaves (fun s i => g i s) m :=
  fun s => funext fun i => hm i s

/-- What a program leaves alone is as before, whatever else is known of the outcome. -/
theorem ensures {s : S} {Q : α → S → Prop} {R : ε → S → Prop} (hm : Leaves f m)
    (h : Ensures m s Q R) :
    Ensures m s (fun a s' => Q a s' ∧ f s' = f s) fun e s' => R e s' ∧ f s' = f s := by
  have hsa := hm s
  unfold Ensures at *
  rcases hec : exec m s with ⟨outcome, s'⟩
  rw [hec] at h hsa
  cases outcome with
  | error e => exact ⟨h, hsa⟩
  | ok a => exact ⟨h, hsa⟩

theorem returns {s : S} (hm : Leaves f m) : Returns m s fun _ s' => f s' = f s :=
  (hm.ensures (Returns.of_forall fun _ _ => trivial)).mono (fun _ _ h => h.2) fun _ _ h => h.1

end Leaves

end Leaves

/-- `m` cannot tell `s` from `g s`: both runs have one outcome, and the states they leave correspond.
The run keeps `I`, and its result meets `Q`. -/
structure Blind (g : S → S) (I : S → Prop) (m : Fallible ε S α) (s : S) (Q : α → Prop) :
    Prop where
  commutes : exec m (g s) = ((exec m s).1, g (exec m s).2)
  ensures : Ensures m s (fun a s' => I s' ∧ Q a) (fun _ s' => I s')

namespace Blind

variable {g : S → S} {I : S → Prop} {s : S} {Q : α → Prop}

theorem pure (hI : I s) (hQ : Q a) : Blind g I (pure a : Fallible ε S α) s Q := ⟨rfl, hI, hQ⟩

theorem throw (hI : I s) : Blind g I (throw e : Fallible ε S α) s Q := ⟨rfl, hI⟩

theorem read {f : S → α} (hI : I s) (hf : f (g s) = f s) (hQ : Q (f s)) :
    Blind g I (read f : Fallible ε S α) s Q :=
  ⟨by rw [exec_read, exec_read, hf], hI, hQ⟩

theorem write {f : S → S} {Q : Unit → Prop} (hf : f (g s) = g (f s)) (hI : I (f s)) (hQ : Q ()) :
    Blind g I (write f : Fallible ε S Unit) s Q :=
  ⟨by rw [exec_write, exec_write, hf], hI, hQ⟩

variable {P : α → Prop}

theorem bind {f : α → Fallible ε S β} {Q : β → Prop}
    (hm : Blind g I m s P) (hf : ∀ a s', I s' → P a → Blind g I (f a) s' Q) :
    Blind g I (m >>= f) s Q := by
  obtain ⟨hc, he⟩ := hm
  constructor
  · rw [exec_bind, exec_bind, hc]
    unfold Ensures at he
    rcases hr : exec m s with ⟨r, s'⟩
    rw [hr] at he
    cases r with
    | error e => rfl
    | ok a => exact (hf a s' he.1 he.2).commutes
  · rw [ensures_bind]
    exact he.mono (fun a s' h => (hf a s' h.1 h.2).ensures) fun _ _ h => h

theorem seqRight {Q : β → Prop}
    (hm : Blind g I m s P) (hn : ∀ s', I s' → Blind g I n s' Q) : Blind g I (m *> n) s Q := by
  rw [seqRight_eq_bind]
  exact hm.bind fun _ s' hI _ => hn s' hI

end Blind

/-- `m` cannot tell any of the states `I` allows. -/
def Oblivious (g : S → S) (I : S → Prop) (m : Fallible ε S α) (Q : α → Prop) : Prop :=
  ∀ s, I s → Blind g I m s Q

namespace Oblivious

variable {g : S → S} {I : S → Prop} {P Q : α → Prop}

theorem pure (hQ : Q a) : Oblivious g I (pure a : Fallible ε S α) Q := fun _ hI => .pure hI hQ

theorem throw : Oblivious g I (throw e : Fallible ε S α) Q := fun _ hI => .throw hI

theorem bind {f : α → Fallible ε S β} {Q : β → Prop} (hm : Oblivious g I m P)
    (hf : ∀ a, P a → Oblivious g I (f a) Q) : Oblivious g I (m >>= f) Q :=
  fun s hI => (hm s hI).bind fun a s' hI ha => hf a ha s' hI

theorem seq {m : Fallible ε S Unit} {f : Unit → Fallible ε S β} {P : Unit → Prop} {Q : β → Prop}
    (hm : Oblivious g I m P) (hf : Oblivious g I (f ()) Q) : Oblivious g I (m >>= f) Q :=
  hm.bind fun _ _ => hf

theorem map {f : α → β} {Q : β → Prop}
    (hm : Oblivious g I m P) (hf : ∀ a, P a → Q (f a)) : Oblivious g I (f <$> m) Q := by
  rw [← bind_pure_comp]
  exact hm.bind fun a ha => .pure (hf a ha)

end Oblivious

end Program
