import Nivren.Allowed

/-! Checks that hold for a chunk and for every chunk nested in it. -/

namespace Nivren

variable (P : List Instruction → Bool)

mutual

def Chunk.everywhere : Chunk → Bool
  | ⟨_, code⟩ => P code && everywhereIn code

def everywhereIn : List Instruction → Bool
  | [] => true
  | instruction :: rest => everywhereInside instruction && everywhereIn rest

def everywhereInside : Instruction → Bool
  | ⟨.makeFunction _ _ body, _⟩ | ⟨.defineModule _ body _, _⟩ | ⟨.sample _ body _, _⟩
  | ⟨.using _ body, _⟩ | ⟨.iterate _ _ body, _⟩ => body.everywhere
  | ⟨.repeat condition body, _⟩ => condition.everywhere && body.everywhere
  | ⟨.ifCarries _ thenBranch elseBranch, _⟩ =>
    thenBranch.everywhere && everywhereOptional elseBranch
  | ⟨.matchArms arms, _⟩ => everywhereArms arms
  | _ => true

def everywhereOptional : Option Chunk → Bool
  | none => true
  | some chunk => chunk.everywhere

def everywhereArms : List BytecodeArm → Bool
  | [] => true
  | ⟨_, guard, body, _⟩ :: rest =>
    everywhereOptional guard && body.everywhere && everywhereArms rest

end

variable {P}

theorem Chunk.everywhere_iff {c : Chunk} :
    c.everywhere P = true ↔ P c.code = true ∧ everywhereIn P c.code = true := by
  obtain ⟨version, code⟩ := c
  simp [Chunk.everywhere]

theorem everywhereIn_iff {code : List Instruction} :
    everywhereIn P code = true ↔ ∀ i ∈ code, everywhereInside P i = true := by
  induction code with
  | nil => simp [everywhereIn]
  | cons instruction rest ih => simp [everywhereIn, ih]

theorem everywhereOptional_iff {chunk : Option Chunk} :
    everywhereOptional P chunk = true ↔ ∀ c ∈ chunk, c.everywhere P = true := by
  cases chunk with
  | none => simp [everywhereOptional]
  | some c => simp [everywhereOptional]

theorem everywhereArms_iff {arms : List BytecodeArm} : everywhereArms P arms = true ↔ ∀ arm ∈ arms,
      (∀ guard ∈ arm.guard, guard.everywhere P = true) ∧ arm.body.everywhere P = true := by
  induction arms with
  | nil => simp [everywhereArms]
  | cons arm rest ih =>
    obtain ⟨patterns, guard, body, span⟩ := arm
    simp [everywhereArms, everywhereOptional_iff, ih]

theorem everywhereInside_nested {i : Instruction} (h : everywhereInside P i = true) {l : Bool}
    {p : Chunk × Bool} (hp : p ∈ nested i.op l) : p.1.everywhere P = true := by
  obtain ⟨op, span⟩ := i
  cases op
  all_goals simp only [nested, List.not_mem_nil, List.mem_cons, Prod.mk.injEq, or_false,
    List.mem_map, List.mem_flatMap, List.mem_append] at hp
  case makeFunction | defineModule | sample | «using» | iterate =>
    obtain ⟨rfl, -⟩ := hp
    simpa only [everywhereInside] using h
  case «repeat» =>
    simp only [everywhereInside, Bool.and_eq_true] at h
    rcases hp with ⟨rfl, -⟩ | ⟨rfl, -⟩
    · exact h.1
    · exact h.2
  case ifCarries =>
    simp only [everywhereInside, Bool.and_eq_true, everywhereOptional_iff] at h
    rcases hp with ⟨rfl, -⟩ | ⟨branch, hb, rfl, -⟩
    · exact h.1
    · exact h.2 _ (by simpa using hb)
  case matchArms =>
    simp only [everywhereInside, everywhereArms_iff] at h
    obtain ⟨arm, harm, ⟨guard, hg, rfl, -⟩ | ⟨rfl, -⟩⟩ := hp
    · exact (h arm harm).1 _ (by simpa using hg)
    · exact (h arm harm).2

/-- Chunks that pass the check all the way down. -/
def Allowed.checked (P : List Instruction → Bool) : Allowed where
  chunk c := c.everywhere P = true
  body c := c.everywhere P = true
  scope _ := True
  chunk_of_body h := h
  nested hc hi hp := everywhereInside_nested
    (everywhereIn_iff.mp (Chunk.everywhere_iff.mp hc).2 _ hi) hp
  makeFunction {c name params b span} hc hi := everywhereInside_nested (l := false) (p := (b, false))
    (everywhereIn_iff.mp (Chunk.everywhere_iff.mp hc).2 _ hi) (by simp [Nivren.nested])

end Nivren
