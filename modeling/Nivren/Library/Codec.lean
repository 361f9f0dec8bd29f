import Mathlib

/-! Binary formats.

A reader takes what it needs from the front of the input; an output is the bytes a writer produces,
or its refusal. `Mirrors` says what a reader makes of an output: it returns the written value when the
value is one it accepts and fails otherwise. `Consumes` goes the other way, from what a reader has
returned to the bytes it took.
-/

namespace Codec

open List

variable {ε α β : Type}

abbrev Bytes := List UInt8

abbrev Reader (ε : Type) := StateT Bytes (Except ε)

abbrev Output (ε : Type) := Except ε Bytes

/-- One output after another; the first refusal counts. -/
def Output.append (first second : Output ε) : Output ε :=
  match first with
  | .error e => .error e
  | .ok bytes =>
    match second with
    | .error e => .error e
    | .ok more => .ok (bytes ++ more)

instance : Append (Output ε) := ⟨Output.append⟩

variable {bytes : Bytes} {second first : Output ε}

@[simp] theorem Output.append_eq_ok :
    first ++ second = .ok bytes ↔ ∃ b c, first = .ok b ∧ second = .ok c ∧ bytes = b ++ c := by
  cases first with
  | error e => exact ⟨nofun, nofun⟩
  | ok b =>
    cases second with
    | error e => exact ⟨nofun, nofun⟩
    | ok c =>
      constructor
      · intro h
        cases h
        exact ⟨b, c, rfl, rfl, rfl⟩
      · rintro ⟨_, _, ⟨⟩, ⟨⟩, rfl⟩
        rfl

theorem Output.append_assoc (first second third : Output ε) :
    first ++ second ++ third = first ++ (second ++ third) := by
  cases first with
  | error e => rfl
  | ok b =>
    cases second with
    | error e => rfl
    | ok c =>
      cases third with
      | error e => rfl
      | ok d => exact congrArg Except.ok (List.append_assoc b c d)

@[simp] theorem Output.append_nil (output : Output ε) : output ++ (.ok [] : Output ε) = output := by
  cases output with
  | error e => rfl
  | ok bytes => exact congrArg Except.ok (List.append_nil bytes)

def Output.Done (output : Output ε) : Prop := ∃ bytes, output = .ok bytes

theorem Output.done_ok (bytes : Bytes) : Output.Done (.ok bytes : Output ε) := ⟨bytes, rfl⟩

@[simp] theorem Output.done_append : (first ++ second).Done ↔ first.Done ∧ second.Done := by
  constructor
  · rintro ⟨bytes, h⟩
    obtain ⟨b, c, hb, hc, -⟩ := Output.append_eq_ok.mp h
    exact ⟨⟨b, hb⟩, ⟨c, hc⟩⟩
  · rintro ⟨⟨b, rfl⟩, ⟨c, rfl⟩⟩
    exact ⟨b ++ c, rfl⟩

def leBytes : Nat → Nat → Bytes
  | 0, _ => []
  | width + 1, n => UInt8.ofNat (n % 256) :: leBytes width (n / 256)

def leValue : Bytes → Nat
  | [] => 0
  | byte :: rest => byte.toNat + 256 * leValue rest

@[simp] theorem leBytes_length (width n : Nat) : (leBytes width n).length = width := by
  induction width generalizing n with
  | zero => rfl
  | succ width ih => simp [leBytes, ih]

theorem leValue_leBytes {width n : Nat} (h : n < 256 ^ width) : leValue (leBytes width n) = n := by
  induction width generalizing n with
  | zero =>
    simp only [Nat.pow_zero, Nat.lt_one_iff] at h
    simp [leBytes, leValue, h]
  | succ width ih =>
    have hdiv : n / 256 < 256 ^ width := by
      exact Nat.div_lt_of_lt_mul (by rwa [Nat.mul_comm])
    have hb : (UInt8.ofNat (n % 256)).toNat = n % 256 := by simp
    simp only [leBytes, leValue, ih hdiv, hb]
    omega

theorem leBytes_leValue (bytes : Bytes) : leBytes bytes.length (leValue bytes) = bytes := by
  induction bytes with
  | nil => rfl
  | cons byte rest ih =>
    have hlt : byte.toNat < 256 := byte.toNat_lt
    have hmod : (byte.toNat + 256 * leValue rest) % 256 = byte.toNat := by omega
    have hdiv : (byte.toNat + 256 * leValue rest) / 256 = leValue rest := by omega
    simp [leBytes, leValue, hmod, hdiv, ih]

theorem leValue_lt (bytes : Bytes) : leValue bytes < 256 ^ bytes.length := by
  induction bytes with
  | nil => simp [leValue]
  | cons byte rest ih =>
    have hlt : byte.toNat < 256 := byte.toNat_lt
    simp only [leValue, length_cons, Nat.pow_succ]
    omega

def utf8 (text : String) : Bytes := text.toByteArray.data.toList

def ofUtf8 (bytes : Bytes) : Option String := String.fromUTF8? ⟨bytes.toArray⟩

@[simp] theorem ofUtf8_eq_some {text : String} : ofUtf8 bytes = some text ↔ bytes = utf8 text := by
  unfold ofUtf8 String.fromUTF8?
  constructor
  · intro h
    split at h
    · cases h
      simp [utf8, String.fromUTF8]
    · cases h
  · rintro rfl
    have hv : text.toByteArray.IsValidUTF8 := text.isValidUTF8
    have hb : (⟨(utf8 text).toArray⟩ : ByteArray) = text.toByteArray := by simp [utf8]
    simp only [hb]
    exact dif_pos hv

theorem utf8_ofList (t : List Char) : utf8 (String.ofList t) = t.flatMap String.utf8EncodeChar := by
  simp [utf8, String.ofList, List.utf8Encode]

theorem utf8_injective {a b : String} (h : utf8 a = utf8 b) : a = b := by
  have hso : ofUtf8 (utf8 a) = some b := ofUtf8_eq_some.mpr h
  rw [ofUtf8_eq_some.mpr rfl] at hso
  exact Option.some.inj hso

theorem utf8_inj {a b : String} : utf8 a = utf8 b ↔ a = b := ⟨utf8_injective, congrArg utf8⟩

/-- The next `count` bytes. -/
def take (truncated : ε) (count : Nat) : Reader ε Bytes := fun input =>
  if input.length < count then .error truncated else .ok (input.take count, input.drop count)

/-- `count` values, one after another. -/
def many (r : Reader ε α) : Nat → Reader ε (List α)
  | 0 => return []
  | count + 1 => return (← r) :: (← many r count)

def writeAll (w : α → Output ε) : List α → Output ε
  | [] => .ok []
  | value :: rest => w value ++ writeAll w rest

variable {w : α → Output ε}

def frame (width : Nat) (refusal : ε) (bytes : Bytes) : Output ε :=
  if bytes.length < 256 ^ width then .ok (leBytes width bytes.length ++ bytes) else .error refusal

section Frames

variable {width : Nat} {refusal : ε} {a b x y : Bytes}

theorem frame_eq_ok : frame width refusal a = .ok x ↔
      a.length < 256 ^ width ∧ x = leBytes width a.length ++ a := by
  unfold frame
  split
  next h => simp [h, eq_comm]
  next h => simp [h]

/-- A frame ends where its length says. -/
theorem frame_cancel {r s : Bytes} (hx : frame width refusal a = .ok x)
    (hy : frame width refusal b = .ok y) (h : x ++ r = y ++ s) : a = b ∧ r = s := by
  obtain ⟨ha, rfl⟩ := frame_eq_ok.mp hx
  obtain ⟨hb, rfl⟩ := frame_eq_ok.mp hy
  rw [List.append_assoc, List.append_assoc] at h
  obtain ⟨hc, hr⟩ := append_inj h (by simp)
  have hl : a.length = b.length := by
    rw [← leValue_leBytes ha, hc, leValue_leBytes hb]
  exact append_inj hr hl

/-- A sequence of frames tells what was framed. -/
theorem writeAll_frame_inj (hw : 0 < width) {as bs : List Bytes}
    (ha : writeAll (frame width refusal) as = .ok x)
    (hb : writeAll (frame width refusal) bs = .ok x) : as = bs := by
  have hne : ∀ {c z : Bytes} {more : Bytes}, frame width refusal c = .ok z → z ++ more ≠ [] := by
    intro c z more hz hnil
    obtain ⟨-, rfl⟩ := frame_eq_ok.mp hz
    have hl := congrArg length hnil
    simp only [length_append, leBytes_length, length_nil] at hl
    omega
  induction as generalizing bs x with
  | nil =>
    cases ha
    cases bs with
    | nil => rfl
    | cons b rest =>
      obtain ⟨z, more, hz, -, hnil⟩ := Output.append_eq_ok.mp hb
      exact absurd hnil.symm (hne hz)
  | cons a rest ih =>
    obtain ⟨y, more, hy, hm, rfl⟩ := Output.append_eq_ok.mp ha
    cases bs with
    | nil =>
      rw [writeAll, Except.ok.injEq] at hb
      exact absurd hb.symm (hne hy)
    | cons b others =>
      obtain ⟨z, left, hz, hlf, heq⟩ := Output.append_eq_ok.mp hb
      obtain ⟨rfl, rfl⟩ := frame_cancel hy hz heq
      rw [ih hm hlf]

end Frames

variable {a : α} {f : α → Except ε β}

theorem mapM_cons_eq_ok {as : List α} {ys : List β} :
    (a :: as).mapM f = .ok ys ↔ ∃ y rest, f a = .ok y ∧ as.mapM f = .ok rest ∧ ys = y :: rest := by
  rw [mapM_cons]
  cases hy : f a with
  | error e => simp [bind, Except.bind]
  | ok y =>
    cases hr : as.mapM f with
    | error e => simp [bind, Except.bind]
    | ok rest => simp [bind, Except.bind, pure, Except.pure, eq_comm]

/-- What the outputs tell of single values, the list of outputs tells of the list of values. -/
theorem mapM_inj {γ : Type} {g : α → γ}
    (hf : ∀ a b y, f a = .ok y → f b = .ok y → g a = g b) {as bs : List α} {ys : List β}
    (ha : as.mapM f = .ok ys) (hb : bs.mapM f = .ok ys) : as.map g = bs.map g := by
  induction as generalizing bs ys with
  | nil =>
    cases ha
    cases bs with
    | nil => rfl
    | cons b rest =>
      obtain ⟨y, others, -, -, hys⟩ := mapM_cons_eq_ok.mp hb
      cases hys
  | cons a rest ih =>
    obtain ⟨y, others, hy, hot, rfl⟩ := mapM_cons_eq_ok.mp ha
    cases bs with
    | nil => cases hb
    | cons b more =>
      obtain ⟨z, left, hz, hl, hys⟩ := mapM_cons_eq_ok.mp hb
      obtain ⟨rfl, rfl⟩ := cons.inj hys
      rw [map_cons, map_cons, hf a b y hy hz, ih hot hl]

theorem bind_apply (r : Reader ε α) (f : α → Reader ε β) (input : Bytes) : (r >>= f) input =
      match r input with
      | .error e => .error e
      | .ok (a, rest) => f a rest := by
  change Except.bind (r input) _ = _
  rcases r input with e | ⟨a, rest⟩ <;> rfl

theorem map_apply (r : Reader ε α) (f : α → β) (input : Bytes) : (f <$> r) input =
      match r input with
      | .error e => .error e
      | .ok (a, rest) => .ok (f a, rest) := by
  rw [← bind_pure_comp, bind_apply]
  rfl

/-- The reader returns `a` for these bytes when `accepted` holds, and fails otherwise. -/
def Answers (r : Reader ε α) (bytes : Bytes) (accepted : Prop) (a : α) : Prop :=
  ∀ rest, (accepted ∧ r (bytes ++ rest) = .ok (a, rest)) ∨
    (¬ accepted ∧ ∃ e, r (bytes ++ rest) = .error e)

def Mirrors (r : Reader ε α) (output : Output ε) (accepted : Prop) (a : α) : Prop :=
  ∀ bytes, output = .ok bytes → Answers r bytes accepted a

variable {c : Prop} {e : ε} {output : Output ε}

namespace Mirrors

variable {r : Reader ε α} {f : α → Reader ε β} {first second : Output ε} {p q : Prop} {a : α} {b : β}

theorem pure : Mirrors (pure a : Reader ε α) (.ok []) True a := by
  intro bytes h rest
  cases h
  exact .inl ⟨trivial, rfl⟩

theorem refuse (hp : ¬ p) : Mirrors (throw e : Reader ε α) output p a :=
  fun _ _ _ => .inr ⟨hp, e, rfl⟩

theorem bind (hr : Mirrors r first p a) (hf : Mirrors (f a) second q b) :
    Mirrors (r >>= f) (first ++ second) (p ∧ q) b := by
  intro bytes h rest
  obtain ⟨b₁, b₂, h₁, h₂, rfl⟩ := Output.append_eq_ok.mp h
  rw [List.append_assoc, bind_apply]
  rcases hr b₁ h₁ (b₂ ++ rest) with ⟨hp, heq⟩ | ⟨hp, e, heq⟩
  · rw [heq]
    rcases hf b₂ h₂ rest with ⟨hq, hok⟩ | ⟨hq, e, herr⟩
    · exact .inl ⟨⟨hp, hq⟩, hok⟩
    · exact .inr ⟨fun h => hq h.2, e, herr⟩
  · rw [heq]
    exact .inr ⟨fun h => hp h.1, e, rfl⟩

theorem map (hr : Mirrors r first p a) (g : α → β) : Mirrors (g <$> r) first p (g a) := by
  intro bytes h rest
  rw [map_apply]
  rcases hr bytes h rest with ⟨hp, heq⟩ | ⟨hp, e, heq⟩
  · rw [heq]
    exact .inl ⟨hp, rfl⟩
  · rw [heq]
    exact .inr ⟨hp, e, rfl⟩

theorem check (hr : Mirrors r first p a) (hf : Mirrors (f a) (.ok []) q b) :
    Mirrors (r >>= f) first (p ∧ q) b := by
  have h := hr.bind hf
  rwa [Output.append_nil] at h

theorem congr (hr : Mirrors r first p a) (h : p ↔ q) : Mirrors r first q a := by
  rwa [← propext h]

theorem last (hr : Mirrors r first p a) (g : α → β) :
    Mirrors (r >>= fun a => Pure.pure (g a)) first p (g a) := by
  rw [bind_pure_comp]
  exact hr.map g

theorem guard [Decidable c] (hr : Mirrors r first p a) :
    Mirrors (if c then throw e else r) first (¬ c ∧ p) a := by
  split
  next hc => exact refuse fun h => h.1 hc
  next hc => exact hr.congr ⟨fun hp => ⟨hc, hp⟩, fun h => h.2⟩

/-- A check in a `do` block that may end it. -/
theorem check_ends [Decidable c] {k : PUnit → Reader ε β} (hr : Mirrors (k ⟨⟩) first p b) :
    Mirrors (if c then (throw e : Reader ε PUnit) >>= k else k ⟨⟩) first (¬ c ∧ p) b :=
  hr.guard

theorem pass {check : Except ε PUnit} (hc : check = .ok ⟨⟩) (hr : Mirrors r first p a) :
    Mirrors (liftM check >>= fun _ => r) first p a := by
  subst hc
  exact hr

end Mirrors

/-- The reader mirrors the output, and nothing that it would accept was refused. -/
structure Copies (r : Reader ε α) (output : Output ε) (accepted : Prop) (a : α) : Prop where
  mirrors : Mirrors r output accepted a
  done : accepted → output.Done

namespace Copies

variable {r : Reader ε α} {f : α → Reader ε β} {first second : Output ε} {p q : Prop} {a : α} {b : β}

theorem refuse (hp : ¬ p) : Copies (throw e : Reader ε α) output p a :=
  ⟨.refuse hp, fun h => absurd h hp⟩

theorem bind (hr : Copies r first p a) (hf : Copies (f a) second q b) :
    Copies (r >>= f) (first ++ second) (p ∧ q) b :=
  ⟨hr.mirrors.bind hf.mirrors, fun h => Output.done_append.mpr ⟨hr.done h.1, hf.done h.2⟩⟩

theorem map (hr : Copies r first p a) (g : α → β) : Copies (g <$> r) first p (g a) :=
  ⟨hr.mirrors.map g, hr.done⟩

theorem check (hr : Copies r first p a) (hf : Mirrors (f a) (.ok []) q b) :
    Copies (r >>= f) first (p ∧ q) b :=
  ⟨hr.mirrors.check hf, fun h => hr.done h.1⟩

theorem congr (hr : Copies r first p a) (h : p ↔ q) : Copies r first q a := by
  rwa [← propext h]

theorem last (hr : Copies r first p a) (g : α → β) :
    Copies (r >>= fun a => Pure.pure (g a)) first p (g a) :=
  ⟨hr.mirrors.last g, hr.done⟩

theorem guard [Decidable c] (hr : Copies r first p a) :
    Copies (if c then throw e else r) first (¬ c ∧ p) a :=
  ⟨hr.mirrors.guard, fun h => hr.done h.2⟩

theorem many {p : α → Prop} {values : List α} (hr : ∀ a ∈ values, Copies r (w a) (p a) a) :
    Copies (Codec.many r values.length) (writeAll w values) (∀ a ∈ values, p a) values := by
  induction values with
  | nil => exact ⟨Mirrors.pure.congr (by simp), fun _ => Output.done_ok []⟩
  | cons a rest ih =>
    have hre := ih fun b hb => hr b (mem_cons_of_mem _ hb)
    refine ((hr a mem_cons_self).bind (hre.last (a :: ·))).congr ?_
    simp

end Copies

/-- Whatever the reader returns, it stands to the bytes taken as `Q` says. -/
def Consumes (r : Reader ε α) (Q : α → Bytes → Prop) : Prop :=
  ∀ input a rest, r input = .ok (a, rest) → ∃ bytes, input = bytes ++ rest ∧ Q a bytes

variable {g : α → β}

namespace Consumes

variable {r : Reader ε α} {f : α → Reader ε β} {P : α → Bytes → Prop} {Q : β → Bytes → Prop}

theorem pure (h : P a []) : Consumes (pure a : Reader ε α) P := by
  intro input b rest heq
  cases heq
  exact ⟨[], rfl, h⟩

theorem throw : Consumes (throw e : Reader ε α) P := fun _ _ _ h => by cases h

theorem bind (hr : Consumes r P)
    (hf : ∀ a bytes, P a bytes → Consumes (f a) fun b more => Q b (bytes ++ more)) :
    Consumes (r >>= f) Q := by
  intro input b rest heq
  rw [bind_apply] at heq
  split at heq
  · cases heq
  next a middle h =>
    obtain ⟨bytes, rfl, hP⟩ := hr input a middle h
    obtain ⟨more, rfl, hQ⟩ := hf a bytes hP middle b rest heq
    exact ⟨bytes ++ more, (List.append_assoc ..).symm, hQ⟩

theorem map (hr : Consumes r P) (h : ∀ a bytes, P a bytes → Q (g a) bytes) :
    Consumes (g <$> r) Q := by
  rw [← bind_pure_comp]
  refine hr.bind fun a bytes ha => .pure ?_
  rw [List.append_nil]
  exact h a bytes ha

theorem last (hr : Consumes r P) (h : ∀ a bytes, P a bytes → Q (g a) bytes) :
    Consumes (r >>= fun a => Pure.pure (g a)) Q := by
  rw [bind_pure_comp]
  exact hr.map h

theorem mono {P' : α → Bytes → Prop} (hr : Consumes r P) (h : ∀ a bytes, P a bytes → P' a bytes) :
    Consumes r P' := by
  intro input a rest heq
  obtain ⟨bytes, hin, hP⟩ := hr input a rest heq
  exact ⟨bytes, hin, h a bytes hP⟩

theorem guard [Decidable c] (hr : ¬ c → Consumes r P) :
    Consumes (if c then MonadExcept.throw e else r) P := by
  split
  · exact throw
  next hc => exact hr hc

/-- Lists: the bytes taken are those a writer would produce. -/
theorem many (hr : Consumes r fun a bytes => w a = .ok bytes) (count : Nat) :
    Consumes (Codec.many r count) fun values bytes =>
      values.length = count ∧ writeAll w values = .ok bytes := by
  induction count with
  | zero => exact .pure ⟨rfl, rfl⟩
  | succ count ih =>
    refine hr.bind fun a bytes ha => ih.bind fun rest more hre => .pure ⟨?_, ?_⟩
    · simp [hre.1]
    · simp [writeAll, ha, hre.2]

end Consumes

variable {truncated : ε}

theorem answers_take (bytes : Bytes) : Answers (take truncated bytes.length) bytes True bytes := by
  intro rest
  refine .inl ⟨trivial, ?_⟩
  have hl : ¬ (bytes ++ rest).length < bytes.length := by simp
  rw [take, if_neg hl, take_left, drop_left]

theorem mirrors_take (bytes : Bytes) :
    Mirrors (take truncated bytes.length) (.ok bytes) True bytes := by
  intro written h
  cases h
  exact answers_take bytes

/-- A number is read back from a fixed number of bytes. -/
theorem mirrors_fixed {refusal : ε} (width value : Nat) : Mirrors (leValue <$> take truncated width)
      (if value < 256 ^ width then .ok (leBytes width value) else .error refusal) True value := by
  split
  next hlt =>
    have hr := (@mirrors_take _ truncated (leBytes width value)).map leValue
    rwa [leBytes_length, leValue_leBytes hlt] at hr
  · exact fun _ h => nomatch h

/-- A text is read back from its bytes. -/
theorem mirrors_text {refusal : ε} (text : String) : Mirrors (do
      match ofUtf8 (← take truncated (utf8 text).length) with
      | some text => return text
      | none => throw refusal) (.ok (utf8 text)) True text := by
  have hutf : ofUtf8 (utf8 text) = some text := ofUtf8_eq_some.mpr rfl
  refine ((mirrors_take (utf8 text)).check (q := True) ?_).congr (by simp)
  rw [hutf]
  exact .pure

def Extends (r : Reader ε α) : Prop :=
  ∀ input a rest more, r input = .ok (a, rest) → r (input ++ more) = .ok (a, rest ++ more)

namespace Extends

variable {r : Reader ε α} {f : α → Reader ε β}

theorem pure : Extends (pure a : Reader ε α) := by
  intro input b rest more h
  cases h
  rfl

theorem throw : Extends (throw e : Reader ε α) := fun _ _ _ _ h => by cases h

theorem bind (hr : Extends r) (hf : ∀ a, Extends (f a)) : Extends (r >>= f) := by
  intro input b rest more h
  rw [bind_apply] at h ⊢
  split at h
  · cases h
  next a middle hm =>
    rw [hr input a middle more hm]
    exact hf a middle b rest more h

theorem map (hr : Extends r) : Extends (g <$> r) := by
  rw [← bind_pure_comp]
  exact hr.bind fun _ => pure

theorem guard [Decidable c] (hr : Extends r) : Extends (if c then MonadExcept.throw e else r) := by
  split
  · exact throw
  · exact hr

theorem take (count : Nat) : Extends (Codec.take truncated count) := by
  intro input a rest more h
  unfold Codec.take at h ⊢
  split at h
  · cases h
  next hl =>
    cases h
    have hm : ¬ (input ++ more).length < count := by
      rw [length_append]
      omega
    have hle : count ≤ input.length := by omega
    rw [if_neg hm, take_append_of_le_length hle, drop_append_of_le_length hle]

theorem lift {x : Except ε α} (hf : ∀ a, Extends (f a)) : Extends (liftM x >>= f) := by
  cases x with
  | error e => exact throw
  | ok a => exact hf a

/-- Of what was written, no proper part and no extension is read to its end. -/
theorem eq_of_isPrefix (hr : Extends r) {p : Prop} {other : Bytes} {b : α}
    (hm : Mirrors r output p a) (hou : output = .ok bytes)
    (hot : r other = .ok (b, [])) (h : other <+: bytes ∨ bytes <+: other) : other = bytes := by
  rcases h with ⟨more, rfl⟩ | ⟨more, rfl⟩
  · have hre := hr other b [] more hot
    rcases hm _ hou [] with ⟨-, hok⟩ | ⟨-, e, her⟩
    · rw [List.append_nil, hre] at hok
      rw [nil_append] at hok
      rw [(Prod.mk.inj (Except.ok.inj hok)).2, List.append_nil]
    · rw [List.append_nil, hre] at her
      cases her
  · rcases hm _ hou more with ⟨-, hok⟩ | ⟨-, e, her⟩
    · rw [hot] at hok
      rw [← (Prod.mk.inj (Except.ok.inj hok)).2, List.append_nil]
    · rw [hot] at her
      cases her

end Extends

theorem consumes_take (count : Nat) :
    Consumes (take truncated count) fun taken bytes => taken = bytes ∧ bytes.length = count := by
  intro input taken rest h
  unfold take at h
  split at h
  · cases h
  next hl =>
    cases h
    refine ⟨input.take count, (take_append_drop ..).symm, rfl, ?_⟩
    rw [length_take]
    omega

end Codec
