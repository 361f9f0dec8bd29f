import Nivren.Library.Search
import Nivren.Library.Text
import Nivren.Packages.Builtins

/-! The commands of a Redis pipeline.

Every string of a command is sent with its length in bytes before it. `Commands` reads a sequence of
arrays of bulk strings as the protocol defines it.
-/

namespace Nivren.Packages.Redis

open Codec

def problem (message : String) : Problem := ⟨"redis", message⟩

def bulk (value : String) : Except Problem String := do
  let start ← concat "$" (toString value.utf8ByteSize)
  let header ← concat start "\r\n"
  let body ← concat header value
  concat body "\r\n"

def command (parts : List String) : Except Problem String := do
  if parts.length = 0 then throw (problem "Redis command requires at least one part")
  if parts.length > 1024 then throw (problem "Redis command exceeds 1024 parts")
  let count ← concat "*" (toString parts.length)
  parts.foldlM (fun encoded part => do concat encoded (← bulk part)) (← concat count "\r\n")

def encode (commands : List (List String)) : Except Problem String :=
  commands.foldlM (fun encoded parts => do concat encoded (← command parts)) ""

section Pipeline

variable {σ Response : Type} (writeConnection : String → StateT σ (Except Problem) Unit)
  (receiveConnection : StateT σ (Except Problem) Response)

def receiveAll : ℕ → StateT σ (Except Problem) (List Response)
  | 0 => return []
  | count + 1 => return (← receiveConnection) :: (← receiveAll count)

/-- `pipeline`, over what writing to and receiving from the connection do. -/
def pipeline (commands : List (List String)) : StateT σ (Except Problem) (List Response) := do
  if commands.length = 0 then return []
  if commands.length > 4096 then throw (problem "Redis pipeline exceeds 4096 commands")
  writeConnection (← encode commands)
  receiveAll receiveConnection commands.length

end Pipeline

/-- A marker and the decimal number up to the next CR LF. -/
def readLength (marker : UInt8) (input : Bytes) : Option (ℕ × Bytes) := do
  if input.head? ≠ some marker then none
  let end_ ← Search.position [13, 10] input.tail
  let line ← ofUtf8 (input.tail.take end_)
  return (← Text.decimal line.toList, input.tail.drop (end_ + 2))

def readBulk (input : Bytes) : Option (Bytes × Bytes) := do
  let (length, rest) ← readLength 36 input
  if (rest.drop length).take 2 ≠ [13, 10] then none
  return (rest.take length, rest.drop (length + 2))

def readBulks : ℕ → Bytes → Option (List Bytes × Bytes)
  | 0, input => some ([], input)
  | count + 1, input => do
    let (value, rest) ← readBulk input
    let (values, rest) ← readBulks count rest
    return (value :: values, rest)

def readCommand (input : Bytes) : Option (List Bytes × Bytes) := do
  let (count, rest) ← readLength 42 input
  readBulks count rest

/-- The input is these commands one after another, and nothing else. -/
inductive Commands : Bytes → List (List Bytes) → Prop
  | nil : Commands [] []
  | cons {input rest : Bytes} {parts : List Bytes} {commands : List (List Bytes)}
      (hr : readCommand input = some (parts, rest)) (hc : Commands rest commands) :
      Commands input (parts :: commands)

def wireBulk (value : String) : Bytes :=
  36 :: (utf8 (toString value.utf8ByteSize) ++ 13 :: 10 :: (utf8 value ++ [13, 10]))

def wire (parts : List String) : Bytes :=
  42 :: (utf8 (toString parts.length) ++ 13 :: 10 :: parts.flatMap wireBulk)

variable {value : String} {parts : List String} {commands : List (List String)} {rest : Bytes}

theorem utf8_append (a b : String) : utf8 (a ++ b) = utf8 a ++ utf8 b := by simp [utf8]

theorem length_utf8 (a : String) : (utf8 a).length = a.utf8ByteSize := by simp [utf8]

theorem concat_ok {a b : String} (h : (utf8 a ++ utf8 b).length ≤ maximum) :
    concat a b = .ok (a ++ b) :=
  concat_eq_ok.mpr ⟨rfl, by rwa [← length_utf8, utf8_append]⟩

theorem bulk_ok (h : (wireBulk value).length ≤ maximum) :
    ∃ text, bulk value = .ok text ∧ utf8 text = wireBulk value := by
  have hcr : utf8 "\r\n" = [13, 10] := by decide
  have hd : utf8 "$" = [36] := by decide
  refine ⟨"$" ++ toString value.utf8ByteSize ++ "\r\n" ++ value ++ "\r\n", ?_, ?_⟩
  · simp [wireBulk] at h
    simp only [bulk, bind_eq_ok_iff]
    refine ⟨_, concat_ok ?_, _, concat_ok ?_, _, concat_ok ?_, concat_ok ?_⟩
    all_goals simp [utf8_append, hcr, hd]; omega
  · simp [utf8_append, hcr, hd, wireBulk]

/-- A loop that appends the text of each element. -/
theorem fold_ok {α : Type} {f : α → Except Problem String} {g : α → Bytes} {values : List α}
    {start : String}
    (hf : ∀ a ∈ values, (g a).length ≤ maximum → ∃ text, f a = .ok text ∧ utf8 text = g a)
    (h : (utf8 start ++ values.flatMap g).length ≤ maximum) :
    ∃ text, values.foldlM (fun encoded a => do concat encoded (← f a)) start = .ok text ∧
      utf8 text = utf8 start ++ values.flatMap g := by
  induction values generalizing start with
  | nil => exact ⟨start, rfl, by simp⟩
  | cons a rest ih =>
    simp only [List.flatMap_cons, ← List.append_assoc] at h ⊢
    have hl := h
    simp only [List.length_append] at hl
    obtain ⟨text, ha, hg⟩ := hf a List.mem_cons_self (by omega)
    rw [← hg, ← utf8_append] at h ⊢
    obtain ⟨out, ho, hu⟩ := ih (fun b hb => hf b (List.mem_cons_of_mem _ hb)) h
    refine ⟨out, ?_, hu⟩
    rw [List.foldlM_cons, ha]
    have hc : concat start text = .ok (start ++ text) := by
      refine concat_ok ?_
      rw [hg]
      simp
      omega
    simp only [Except.bind, bind, hc]
    exact ho

theorem command_ok (hp : parts ≠ []) (hl : parts.length ≤ 1024) (h : (wire parts).length ≤ maximum) :
    ∃ text, command parts = .ok text ∧ utf8 text = wire parts := by
  have hcr : utf8 "\r\n" = [13, 10] := by decide
  have hd : utf8 "*" = [42] := by decide
  have hw : wire parts = utf8 ("*" ++ toString parts.length ++ "\r\n") ++ parts.flatMap wireBulk := by
    simp [wire, utf8_append, hcr, hd]
  rw [hw] at h ⊢
  obtain ⟨text, hf, ht⟩ := @fold_ok _ bulk wireBulk parts _ (fun _ _ => bulk_ok) h
  refine ⟨text, ?_, ht⟩
  simp only [command, unless_eq_ok_iff, bind_eq_ok_iff]
  simp only [utf8_append, List.length_append] at h
  refine ⟨by simpa using hp, by omega, _, concat_ok ?_, _, concat_ok ?_, hf⟩
  all_goals simp only [utf8_append, List.length_append]; omega

theorem readLength_wire (marker : UInt8) (n : ℕ) :
    readLength marker (marker :: (utf8 (toString n) ++ 13 :: 10 :: rest)) = some (n, rest) := by
  have hcr : 13 ∉ utf8 (toString n) := by
    rw [← @String.ofList_toList (toString n), utf8_ofList, List.mem_flatMap]
    rintro ⟨c, hc, h⟩
    have hr : 48 ≤ c.toNat ∧ c.toNat ≤ 57 :=
      Char.isDigit_iff_toNat.mp (Text.isDigit_of_mem_toString hc)
    have hall : ∀ n < 58, 48 ≤ n → 13 ∉ String.utf8EncodeChar (Char.ofNat n) := by decide
    exact hall c.toNat (by omega) hr.1 (by simpa using h)
  have hu : ofUtf8 (utf8 (toString n)) = some (toString n) := ofUtf8_eq_some.mpr rfl
  simp [readLength, Search.position_append hcr, hu, Text.decimal_toString, -Nat.toString_eq_repr]

theorem readBulk_wire : readBulk (wireBulk value ++ rest) = some (utf8 value, rest) := by
  have hd : ∀ more, (utf8 value ++ more).drop value.utf8ByteSize = more := fun more =>
    List.drop_left' (length_utf8 value)
  have ht : ∀ more, (utf8 value ++ more).take value.utf8ByteSize = utf8 value := fun more =>
    List.take_left' (length_utf8 value)
  simp [readBulk, wireBulk, readLength_wire, hd, ht, ← List.drop_drop, -Nat.toString_eq_repr]

theorem readBulks_wire :
    readBulks parts.length (parts.flatMap wireBulk ++ rest) = some (parts.map utf8, rest) := by
  induction parts with
  | nil => rfl
  | cons part parts ih => simp [readBulks, readBulk_wire, ih]

theorem readCommand_wire : readCommand (wire parts ++ rest) = some (parts.map utf8, rest) := by
  simp [readCommand, wire, readLength_wire, readBulks_wire, -Nat.toString_eq_repr]

theorem commands_wire_iff {parsed : List (List Bytes)} :
    Commands (commands.flatMap wire) parsed ↔ parsed = commands.map (List.map utf8) := by
  induction commands generalizing parsed with
  | nil =>
    constructor
    · intro h
      cases h with
      | nil => rfl
      | cons hr => cases hr
    · rintro rfl
      exact .nil
  | cons parts commands ih =>
    rw [List.flatMap_cons, List.map_cons]
    constructor
    · intro h
      generalize hi : wire parts ++ commands.flatMap wire = input at h
      cases h with
      | nil => cases hi
      | cons hr hc =>
        rw [← hi, readCommand_wire] at hr
        cases hr
        rw [ih.mp hc]
    · rintro rfl
      exact .cons readCommand_wire (ih.mpr rfl)

section Sends

variable {σ Response : Type} (writeConnection : String → StateT σ (Except Problem) Unit)
  (receiveConnection : StateT σ (Except Problem) Response)

/-- A pipeline within the limits writes one text, which is read as exactly its commands, and from
then on only receives. -/
theorem pipeline_sends (hne : commands ≠ []) (hl : commands.length ≤ 4096)
    (hp : ∀ parts ∈ commands, parts ≠ [] ∧ parts.length ≤ 1024)
    (hs : (commands.flatMap wire).length ≤ maximum) :
    ∃ text, pipeline writeConnection receiveConnection commands =
        (do writeConnection text; receiveAll receiveConnection commands.length) ∧
      ∀ parsed, Commands (utf8 text) parsed ↔ parsed = commands.map (List.map utf8) := by
  obtain ⟨text, hf, ht⟩ := @fold_ok _ command wire commands ""
    (fun parts hm => command_ok (hp parts hm).1 (hp parts hm).2) hs
  refine ⟨text, ?_, fun parsed => ht ▸ commands_wire_iff⟩
  have h0 : commands.length ≠ 0 := by simpa using hne
  rw [pipeline, if_neg h0, if_neg (Nat.not_lt.mpr hl), encode, hf]
  rfl

end Sends

theorem pipeline_sends_ping :
    ∃ text, pipeline (fun _ => pure ()) (pure "PONG") [["SET", "a\r\n$1"]] =
        (do (fun _ => pure () : String → StateT Unit (Except Problem) Unit) text
            receiveAll (pure "PONG") 1) ∧
      ∀ parsed, Commands (utf8 text) parsed ↔ parsed = [["SET", "a\r\n$1"].map utf8] :=
  pipeline_sends _ _ (by decide) (by decide) (by decide) (by decide)

end Nivren.Packages.Redis
