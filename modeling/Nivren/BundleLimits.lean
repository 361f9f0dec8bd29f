import Nivren.Bundle

/-! What the bundle decoder makes of what the encoder writes.

The decoder limits every count, every length and the nesting, and wants at least one pattern in an
arm; the encoder knows none of this. `Bundle.Fits` states the limits for a chunk. The decoder reads
back exactly the chunks that fit.
-/

namespace Nivren.Bundle

open Codec Writer

namespace Fits

def count (n : Nat) : Bool := n ≤ maxItems

def string (s : String) : Bool := count s.toByteArray.data.toList.length

def span (s : Span) : Bool := count s.line && count s.column

def counted {α : Type} (fits : α → Bool) (values : List α) : Bool :=
  count values.length && values.all fits

def strings (values : List String) : Bool := counted string values

def pair (entry : String × String) : Bool := string entry.1 && string entry.2

/-- The integers are those of the source's `i64`. -/
def literal : Literal → Bool
  | .int value => decide (-2 ^ 63 ≤ value ∧ value < 2 ^ 63)
  | .string text => string text
  | _ => true

/-- The pattern has at most so many levels. -/
def pattern : Nat → Pattern → Bool
  | 0, _ => false
  | _ + 1, .any s => span s
  | _ + 1, .literal value s => span s && literal value
  | _ + 1, .name name s | _ + 1, .binding name s => span s && string name
  | levels + 1, .carries name inner s => span s && string name && pattern levels inner
  | levels + 1, .shape name fields s =>
    span s && string name && counted (fun entry => string entry.1 && pattern levels entry.2) fields

section Nested

-- an arm has at least `least` patterns; `chunk` is the limit for the chunks one level further down
variable (least : Nat) (chunk : Chunk → Bool) (levels : Nat)

def patterns (values : List Pattern) : Bool :=
  counted (pattern levels) values && decide (least ≤ values.length)

def promiseClause (clause : PromiseClause) : Bool :=
  string clause.capability && strings clause.boundaries && span clause.span

def arm (value : BytecodeArm) : Bool :=
  patterns least levels value.patterns && value.guard.all chunk && span value.span &&
    chunk value.body

def operation : Op → Bool
  | .constant value => literal value
  | .load name | .store name | .define name _ | .get name | .prepare name => string name
  | .pop | .unary _ | .binary _ | .index | .print | .enterScope | .exitScope | .return
  | .propagate | .perform | .loopExit _ => true
  | .jump n | .jumpIfFalse n | .call n | .makeArray n | .coalesce n | .performCall n
  | .makeText n => count n
  | .makeFunction name params body => string name && strings params && chunk body
  | .defineRecord name fields derives =>
    string name && counted pair fields && strings derives
  | .defineEnum name variants payloadVariants =>
    string name && strings variants && strings payloadVariants
  | .matchArms values => counted (arm least chunk levels) values
  | .defineModule name body exports => string name && chunk body && strings exports
  | .iterate name value body => string name && value.all (pattern levels) && chunk body
  | .using name body => string name && chunk body
  | .defineProtocol name members => string name && strings members
  | .adoptProtocol protocol typeName mappings =>
    string protocol && string typeName && counted pair mappings
  | .repeat condition body => chunk condition && chunk body
  | .ifCarries values thenBranch elseBranch =>
    patterns least levels values && chunk thenBranch && elseBranch.all chunk
  | .definePattern value => pattern levels value
  | .sample title body shows => string title && chunk body && shows.all string
  | .promise clauses => counted promiseClause clauses

def instruction (value : Instruction) : Bool :=
  span value.span && operation least chunk levels value.op

end Nested

/-- The chunk has at most so many levels and is of the version the decoder knows. -/
def chunk (least : Nat) : Nat → Chunk → Bool
  | 0, _ => false
  | levels + 1, value => value.version == bytecodeVersion &&
    counted (instruction least (chunk least levels) levels) value.code

end Fits

/-- Every string and every count is at most 1,000,000 and the nesting at most 256. -/
def withinLimits (c : Chunk) : Bool := Fits.chunk 0 (maxDepth + 1) c

/-- The chunk is within the limits and every arm and every `when … carries` has a pattern. -/
def decodable (c : Chunk) : Bool := Fits.chunk 1 (maxDepth + 1) c

section Parts

theorem Writer.fixed_eq_ok {width value : Nat} {bytes : Bytes}
    (h : fixed width value = .ok bytes) : value < 256 ^ width := by
  unfold fixed at h
  split at h
  · assumption
  · cases h

theorem copies_fixed (width value : Nat) :
    Copies (Reader.fixed width) (fixed width value) (value < 256 ^ width) value := by
  refine ⟨fun bytes h => ?_, fun h => ⟨_, if_pos h⟩⟩
  have hlt : value < 256 ^ width := fixed_eq_ok h
  exact (mirrors_fixed width value).congr (iff_of_true trivial hlt) bytes h

theorem copies_u8 (value : UInt8) : Copies Reader.u8 (u8 value) True value := by
  refine ⟨fun bytes h rest => ?_, fun _ => ⟨_, rfl⟩⟩
  cases h
  exact .inl ⟨trivial, rfl⟩

variable {α : Type} {f : UInt8 → Reader.In α} {out : Writer.Out}

theorem copies_tag {tag : UInt8} {p : Prop} {a : α} (h : Copies (f tag) out p a) :
    Copies (Reader.u8 >>= f) (u8 tag ++ out) p a :=
  ((copies_u8 tag).bind h).congr (by simp)

theorem copies_only {tag : UInt8} {p : Prop} {a : α}
    (h : f tag = pure a) (hp : p) : Copies (Reader.u8 >>= f) (u8 tag) p a := by
  refine ((copies_u8 tag).check (q := True) ?_).congr (by simp [hp])
  rw [h]
  exact .pure

theorem copies_count (n : Nat) : Copies Reader.count (len n) (Fits.count n) n := by
  refine ((copies_fixed 4 n).check Mirrors.pure.guard).congr ?_
  rw [Fits.count, decide_eq_true_iff, maxItems, and_true]
  omega

theorem copies_boolean (value : Bool) : Copies Reader.boolean (boolean value) True value := by
  cases value with
  | false => exact copies_only rfl trivial
  | true => exact copies_only rfl trivial

theorem copies_looseFlag (value : Bool) : Copies Reader.looseFlag (boolean value) True value := by
  cases value with
  | false => exact (copies_u8 0).map (· != 0)
  | true => exact (copies_u8 1).map (· != 0)

theorem copies_span (s : Span) : Copies Reader.span (Writer.span s) (Fits.span s) s := by
  refine ((copies_count s.line).bind ((copies_count s.column).last _)).congr ?_
  simp [Fits.span]

theorem copies_string (s : String) : Copies Reader.string (string s) (Fits.string s) s := by
  refine ((copies_count s.toByteArray.data.toList.length).bind
    ⟨mirrors_text s, fun _ => Output.done_ok _⟩).congr ?_
  simp [Fits.string]

variable {w : α → Writer.Out} {r : Reader.In α} {fits : α → Bool}

theorem copies_counted {values : List α} (h : ∀ a ∈ values, Copies r (w a) (fits a) a) :
    Copies (Reader.counted r) (counted w values) (Fits.counted fits values) values := by
  refine ((copies_count values.length).bind (Copies.many h)).congr ?_
  simp [Fits.counted]

theorem copies_strings (values : List String) :
    Copies Reader.strings (strings values) (Fits.strings values) values :=
  copies_counted fun value _ => copies_string value

theorem copies_pair (entry : String × String) :
    Copies Reader.pair (pair entry) (Fits.pair entry) entry := by
  refine ((copies_string entry.1).bind ((copies_string entry.2).last _)).congr ?_
  simp [Fits.pair]

theorem copies_pairs (values : List (String × String)) :
    Copies (Reader.counted Reader.pair) (counted pair values) (Fits.counted Fits.pair values)
      values :=
  copies_counted fun value _ => copies_pair value

theorem copies_operator {operator : TokenKind} {length : Nat}
    (h : validOperand (.unary operator) length = true ∨
      validOperand (.binary operator) length = true) :
    Copies Reader.operator (Writer.operator operator) True operator := by
  cases operator
  case plus | minus | star | slash | percent | bang | equalEqual | bangEqual | greater
      | greaterEqual | less | lessEqual => exact copies_only rfl trivial
  all_goals simp [validOperand] at h

theorem copies_i64 (value : Int) :
    Copies Reader.i64 (i64 value) (-2 ^ 63 ≤ value ∧ value < 2 ^ 63) value := by
  unfold i64
  split
  next hra =>
    have hr := (copies_fixed 8 (value % 2 ^ 64).toNat).map
      fun n : Nat => if n < 2 ^ 63 then (n : Int) else n - 2 ^ 64
    have hv : (if (value % 2 ^ 64).toNat < 2 ^ 63 then ((value % 2 ^ 64).toNat : Int)
        else (value % 2 ^ 64).toNat - 2 ^ 64) = value := by
      split <;> omega
    rw [hv] at hr
    exact hr.congr (iff_of_true (by omega) hra)
  next hra => exact ⟨nofun, fun h => absurd h hra⟩

theorem copies_literal (value : Literal) :
    Copies Reader.literal (literal value) (Fits.literal value) value := by
  cases value with
  | int value => exact (copies_tag ((copies_i64 value).last _)).congr (by simp [Fits.literal])
  | float bits =>
    have hr := (copies_fixed 8 bits.toNat).last fun n => Literal.float (UInt64.ofNat n)
    rw [UInt64.ofNat_toNat] at hr
    exact (copies_tag hr).congr (iff_of_true bits.toNat_lt rfl)
  | string text => exact copies_tag ((copies_string text).last _)
  | bool value =>
    exact (copies_tag ((copies_boolean value).last _)).congr (by simp [Fits.literal])
  | null => exact copies_only rfl rfl

theorem Writer.fieldPatterns_eq (fields : List (String × Pattern)) : fieldPatterns fields =
      writeAll (fun entry => string entry.1 ++ pattern entry.2) fields := by
  induction fields with
  | nil => simp [fieldPatterns, writeAll]
  | cons entry rest ih => simp [fieldPatterns, writeAll, ih]

theorem copies_pattern (levels : Nat) (value : Pattern) :
    Copies (Reader.pattern levels) (pattern value) (Fits.pattern levels value) value := by
  induction levels generalizing value with
  | zero => exact .refuse (by simp [Fits.pattern])
  | succ levels ih =>
    cases value with
    | any s =>
      exact copies_tag ((copies_span s).last _)
    | literal value s =>
      refine (copies_tag ((copies_span s).bind ((copies_literal value).last _))).congr ?_
      simp [Fits.pattern]
    | name name s | binding name s =>
      refine (copies_tag ((copies_span s).bind ((copies_string name).last _))).congr ?_
      simp [Fits.pattern]
    | carries name inner s =>
      refine (copies_tag ((copies_span s).bind ((copies_string name).bind
        ((ih inner).last _)))).congr ?_
      simp [Fits.pattern, and_assoc]
    | shape name fields s =>
      have hen : ∀ entry : String × Pattern, Copies (do
            let field ← Reader.string
            return (field, ← Reader.pattern levels))
          (string entry.1 ++ pattern entry.2)
          ((fun entry : String × Pattern =>
            Fits.string entry.1 && Fits.pattern levels entry.2) entry) entry := fun entry => by
        refine ((copies_string entry.1).bind ((ih entry.2).last _)).congr ?_
        simp
      rw [pattern, fieldPatterns_eq]
      refine (copies_tag ((copies_span s).bind ((copies_string name).bind
        ((copies_counted fun entry _ => hen entry).last _)))).congr ?_
      simp [Fits.pattern, and_assoc]

theorem copies_patterns {empty : String} (levels : Nat) (values : List Pattern) :
    Copies (Reader.patterns empty levels) (Writer.patterns values)
      (Fits.patterns 1 levels values) values := by
  refine ((copies_count values.length).bind
    (Copies.many fun value _ => copies_pattern levels value).guard).congr ?_
  simp [Fits.patterns, Fits.counted, Nat.one_le_iff_ne_zero]
  tauto

theorem copies_optionalPattern (levels : Nat) (value : Option Pattern) :
    Copies (Reader.optionalPattern levels) (optionalPattern value)
      (value.all (Fits.pattern levels)) value := by
  cases value with
  | none => exact copies_only rfl rfl
  | some value => exact (copies_tag ((copies_pattern levels value).last some)).congr (by simp)

section Nested

variable {flag : Reader.In Bool} (hflag : ∀ value, Copies flag (boolean value) True value)

include hflag in
theorem copies_promiseClause (clause : PromiseClause) :
    Copies (Reader.promiseClause flag) (promiseClause clause)
      (Fits.promiseClause clause) clause := by
  refine ((copies_string clause.capability).bind ((hflag clause.never).bind
    ((copies_strings clause.boundaries).bind ((copies_span clause.span).last _)))).congr ?_
  simp [Fits.promiseClause, and_assoc]

include hflag in
theorem copies_flagged (value : Option α) (hr : ∀ a ∈ value, Copies r (w a) (fits a) a)
    (hout : out = match value with
      | none => u8 0
      | some a => u8 1 ++ w a) :
    Copies (do if ← flag then return some (← r) else return none) out (value.all fits) value := by
  subst hout
  cases value with
  | none =>
    have hn : Mirrors (if false = true then some <$> r else pure none : Reader.In (Option α))
        (.ok []) True none := .pure
    exact ((hflag false).check hn).congr (by simp)
  | some a => exact ((hflag true).bind ((hr a rfl).last some)).congr (by simp)

include hflag in
theorem copies_optionalString (value : Option String) :
    Copies (Reader.optionalString flag) (optionalString value) (value.all Fits.string) value :=
  copies_flagged hflag value (fun text _ => copies_string text) (by cases value <;> rfl)

variable {chunk : Reader.In Chunk} {fits : Chunk → Bool} {levels : Nat}

include hflag in
theorem copies_optionalChunk (value : Option Chunk)
    (hc : ∀ c ∈ value, Copies chunk (Writer.chunk c) (fits c) c) :
    Copies (Reader.optionalChunk flag chunk) (Writer.optionalChunk value) (value.all fits) value :=
  copies_flagged hflag value hc (by cases value <;> simp [Writer.optionalChunk])

theorem copies_optionalGuard (value : Option Chunk)
    (hc : ∀ c ∈ value, Copies chunk (Writer.chunk c) (fits c) c) :
    Copies (Reader.optionalGuard chunk) (Writer.optionalChunk value) (value.all fits) value := by
  cases value with
  | none =>
    rw [Writer.optionalChunk]
    exact copies_only rfl rfl
  | some value =>
    rw [Writer.optionalChunk]
    exact (copies_tag ((hc value rfl).last some)).congr (by simp)

def Writer.arm (value : BytecodeArm) : Writer.Out :=
  Writer.patterns value.patterns ++ (Writer.optionalChunk value.guard ++
    (Writer.span value.span ++ Writer.chunk value.body))

theorem Writer.arms_eq (values : List BytecodeArm) :
    Writer.arms values = writeAll Writer.arm values := by
  induction values with
  | nil => simp [Writer.arms, writeAll]
  | cons value rest ih =>
    obtain ⟨patterns, guard, body, span⟩ := value
    simp [Writer.arms, writeAll, Writer.arm, ih]

theorem copies_arm (value : BytecodeArm)
    (hc : ∀ c, c ∈ value.guard ∨ c = value.body → Copies chunk (Writer.chunk c) (fits c) c) :
    Copies (Reader.arm chunk levels) (Writer.arm value) (Fits.arm 1 fits levels value) value := by
  obtain ⟨patterns, guard, body, span⟩ := value
  refine ((copies_patterns levels patterns).bind
    ((copies_optionalGuard guard fun c h => hc c (.inl h)).bind
      ((copies_span span).bind ((hc body (.inr rfl)).last _)))).congr ?_
  simp [Fits.arm, and_assoc]

include hflag in
theorem copies_operation {op : Op} {inLoop : Bool} {length : Nat}
    (hva : validOperand op length = true)
    (hc : ∀ entry ∈ nested op inLoop,
      Copies chunk (Writer.chunk entry.1) (fits entry.1) entry.1) :
    Copies (Reader.operation flag chunk levels) (operation op) (Fits.operation 1 fits levels op)
      op := by
  cases op <;> rw [operation]
  case constant value => exact copies_tag ((copies_literal value).last _)
  case load name | store name | get name | prepare name =>
    exact copies_tag ((copies_string name).last _)
  case define name mutable =>
    refine (copies_tag ((copies_string name).bind ((copies_boolean mutable).last _))).congr ?_
    simp [Fits.operation]
  case pop | index | print | enterScope | exitScope | «return» | propagate | perform =>
    exact copies_only rfl rfl
  case unary operator =>
    exact (copies_tag ((copies_operator (.inl hva)).last _)).congr (by simp [Fits.operation])
  case binary operator =>
    exact (copies_tag ((copies_operator (.inr hva)).last _)).congr (by simp [Fits.operation])
  case jump n | jumpIfFalse n | call n | makeArray n | coalesce n | performCall n | makeText n =>
    exact copies_tag ((copies_count n).last _)
  case makeFunction name params body =>
    refine (copies_tag ((copies_string name).bind ((copies_strings params).bind
      ((hc _ List.mem_cons_self).last _)))).congr ?_
    simp [Fits.operation, and_assoc]
  case defineRecord name fields derives =>
    refine (copies_tag ((copies_string name).bind ((copies_pairs fields).bind
      ((copies_strings derives).last _)))).congr ?_
    simp [Fits.operation, and_assoc]
  case defineEnum name variants payloadVariants =>
    refine (copies_tag ((copies_string name).bind ((copies_strings variants).bind
      ((copies_strings payloadVariants).last _)))).congr ?_
    simp [Fits.operation, and_assoc]
  case matchArms values =>
    rw [arms_eq]
    refine copies_tag ((copies_counted fun value hv => copies_arm value fun c h => ?_).last _)
    refine hc (c, false) (List.mem_flatMap.mpr ⟨value, hv, ?_⟩)
    rcases h with h | rfl
    · exact List.mem_append_left _ (List.mem_map.mpr ⟨c, Option.mem_toList.mpr h, rfl⟩)
    · exact List.mem_append_right _ List.mem_cons_self
  case defineModule name body exports =>
    refine (copies_tag ((copies_string name).bind ((hc _ List.mem_cons_self).bind
      ((copies_strings exports).last _)))).congr ?_
    simp [Fits.operation, and_assoc]
  case iterate name value body =>
    refine (copies_tag ((copies_string name).bind ((copies_optionalPattern levels value).bind
      ((hc _ List.mem_cons_self).last _)))).congr ?_
    simp [Fits.operation, and_assoc]
  case «using» name body =>
    refine (copies_tag ((copies_string name).bind ((hc _ List.mem_cons_self).last _))).congr ?_
    simp [Fits.operation]
  case defineProtocol name members =>
    refine (copies_tag ((copies_string name).bind ((copies_strings members).last _))).congr ?_
    simp [Fits.operation]
  case adoptProtocol protocol typeName mappings =>
    refine (copies_tag ((copies_string protocol).bind ((copies_string typeName).bind
      ((copies_pairs mappings).last _)))).congr ?_
    simp [Fits.operation, and_assoc]
  case «repeat» condition body =>
    refine (copies_tag ((hc _ List.mem_cons_self).bind
      ((hc _ (List.mem_cons_of_mem _ List.mem_cons_self)).last _))).congr ?_
    simp [Fits.operation]
  case loopExit skip =>
    refine (copies_tag ((hflag skip).last _)).congr ?_
    simp [Fits.operation]
  case ifCarries values thenBranch elseBranch =>
    refine (copies_tag ((copies_patterns levels values).bind ((hc _ List.mem_cons_self).bind
      ((copies_optionalChunk hflag elseBranch fun c h => hc (c, inLoop) (List.mem_cons_of_mem _
        (List.mem_map.mpr ⟨c, Option.mem_toList.mpr h, rfl⟩))).last _)))).congr ?_
    simp [Fits.operation, and_assoc]
  case definePattern value => exact copies_tag ((copies_pattern levels value).last _)
  case sample title body shows =>
    refine (copies_tag ((copies_string title).bind ((hc _ List.mem_cons_self).bind
      ((copies_optionalString hflag shows).last _)))).congr ?_
    simp [Fits.operation, and_assoc]
  case promise clauses =>
    exact copies_tag ((copies_counted fun clause _ => copies_promiseClause hflag clause).last _)

end Nested

end Parts

section Chunks

variable {flag : Reader.In Bool} (hflag : ∀ value, Copies flag (boolean value) True value)

theorem Writer.instructions_eq (code : List Instruction) :
    instructions code = writeAll instruction code := by
  induction code with
  | nil => simp [instructions, writeAll]
  | cons next rest ih => simp [instructions, writeAll, ih]

include hflag in
theorem copies_chunk (levels : Nat) {c : Chunk} {inLoop : Bool} (hv : Verified c inLoop) :
    Copies (Reader.chunk flag levels) (Writer.chunk c) (Fits.chunk 1 levels c) c := by
  induction levels generalizing c inLoop with
  | zero => exact .refuse (by simp [Fits.chunk])
  | succ levels ih =>
    have hin : ∀ i ∈ c.code, Copies (Reader.instruction flag (Reader.chunk flag levels) levels)
        (instruction i) (Fits.instruction 1 (Fits.chunk 1 levels) levels i) i := by
      rintro ⟨op, span⟩ hi
      have hop := @copies_operation _ hflag _ _ levels op inLoop _ (hv.validOperand hi)
        fun entry he => ih (hv.nested hi he)
      rw [instruction]
      refine ((copies_span span).bind (hop.last _)).congr ?_
      simp [Fits.instruction]
    obtain ⟨version, code⟩ := c
    rw [Writer.chunk, instructions_eq]
    refine ((copies_fixed 2 version).bind ((copies_counted hin).last _).guard).congr ?_
    simp only [Fits.chunk, Bool.and_eq_true, beq_iff_eq, not_not]
    refine ⟨fun h => h.2, fun h => ⟨?_, h⟩⟩
    rw [h.1]
    decide

end Chunks

end Nivren.Bundle
