import Nivren.Ast
import Nivren.Library.Codec
import Nivren.Library.Program

/-! Expansion of generators.

`expand_program` puts the declarations a generator gives in the place of each `expand` at the top of
a program and drops the generators there. It does not look into the other statements: what stands in
a module, a function or a block stays as it is.
-/

namespace Nivren.Expand

open Codec List

/-- A value of `source.Declaration`: what the builders of `std.source` make. -/
inductive Source
  | shape (name : String) (fields : List FieldDef) (derives : List String) (span : Span)
  | choice (name : String) (variants : List VariantDef) (span : Span)
  | binding (name : String) (literal : Literal) (span : Span)
  | function (name : String) (params : List Param) (gives : Option TypeRef) (body : List Source)
      (span : Span)
  | give (value : Expr) (span : Span)
  | call (value : Expr)
  | when (condition : Expr) (thenBranch otherwise : List Source) (span : Span)
  | each (name : String) (iterable : Expr) (body : List Source) (span : Span)

mutual

/-- The statement a declaration holds. -/
def Source.statement : Source → Stmt
  | .shape name fields derives span => .record name [] fields derives span
  | .choice name variants span => .enum name [] variants span
  | .binding name literal span => .letStmt name false none (.literal literal span) span
  | .function name params gives body span =>
    .function name [] params gives [] [] (Source.body body) span
  | .give value span => .returnStmt (some value) span
  | .call value => .expression value
  | .when condition thenBranch otherwise span =>
    .ifStmt condition (.block (Source.body thenBranch) span)
      (if otherwise.isEmpty then none else some (.block (Source.body otherwise) span)) span
  | .each name iterable body span =>
    .forStmt name none iterable (.block (Source.body body) span) span

/-- `source_statement_body`. -/
def Source.body : List Source → List Stmt
  | [] => []
  | source :: rest => source.statement :: Source.body rest

end

/-- What a run gives. A value that is no array and an element that is no declaration are known by
the names of their types. -/
inductive Produced
  | array (values : List (Source ⊕ String))
  | other (typeName : String)

/-- A run of the interpreter without capabilities under the fixed instruction budget. -/
abbrev Runner := List Stmt → Except NivError Produced

def maxExpansionDeclarations : ℕ := 1024

def evaluateGenerator (run : Runner) (name : String) (params : List Param) (body : List Stmt)
    (labels : List String) (arguments : List Expr) (span : Span) : Except NivError (List Stmt) :=
  let expected := params.map Param.name
  if arguments.length ≠ params.length then
    .error (errorAt ("generator '" ++ name ++ "' takes " ++ toString params.length ++
      " value(s), this expand provides " ++ toString arguments.length) span)
  else if labels ≠ [] ∧ labels ≠ expected then
    .error (errorAt ("generator '" ++ name ++ "' expects labeled values [" ++
      ", ".intercalate expected ++ "] in canonical order; received [" ++
      ", ".intercalate labels ++ "]") span)
  else
    let function := Stmt.function "__generator" [] params none [] [] body span
    let call := Stmt.expression (.call (.variable "__generator" span) arguments none span)
    match run [function, call] with
    | .error failure =>
      .error (errorAt ("expanding '" ++ name ++ "' failed: " ++ failure.message) span)
    | .ok (.other typeName) => .error (errorAt ("generator '" ++ name ++
        "' gives [source.Declaration], found " ++ typeName) span)
    | .ok (.array values) =>
      if maxExpansionDeclarations < values.length then
        .error (errorAt ("one expand inserts at most " ++ toString maxExpansionDeclarations ++
          " declarations; '" ++ name ++ "' produced " ++ toString values.length) span)
      else
        values.mapM fun
          | .inl source => .ok source.statement
          | .inr typeName => .error (errorAt ("generator '" ++ name ++
              "' gives [source.Declaration], found an element of " ++ typeName) span)

/-- The generator of a name; no name is declared twice. -/
def generatorNamed (name : String) : Stmt → Option (List Param × List Stmt)
  | .generator other params body _ => if other = name then some (params, body) else none
  | _ => none

/-- The first generator whose name is among the ones seen before it. -/
def redeclared : List String → List Stmt → Option NivError
  | _, [] => none
  | seen, .generator name _ _ span :: rest =>
    if name ∈ seen then some (errorAt ("generator '" ++ name ++ "' is already declared") span)
    else redeclared (name :: seen) rest
  | seen, _ :: rest => redeclared seen rest

/-- The loop that builds the output. -/
def spliced (run : Runner) (program : List Stmt) : List Stmt → Except (List NivError) (List Stmt)
  | [] => .ok []
  | .generator .. :: rest => spliced run program rest
  | .expand name labels arguments span :: rest =>
    match program.findSome? (generatorNamed name) with
    | none => .error [errorAt ("unknown generator '" ++ name ++ "'") span]
    | some (params, body) =>
      match evaluateGenerator run name params body labels arguments span with
      | .error e => .error [e]
      | .ok declarations => return declarations ++ (← spliced run program rest)
  | other :: rest => return other :: (← spliced run program rest)

def generates : Stmt → Bool
  | .generator .. | .expand .. => true
  | _ => false

def expandProgram (run : Runner) (program : List Stmt) : Except (List NivError) (List Stmt) :=
  if program.any generates then
    match redeclared [] program with
    | some e => .error [e]
    | none => spliced run program program
  else .ok program

mutual

/-- No generator and no `expand` stands in the statement, at any depth. -/
def free : Stmt → Bool
  | .generator .. | .expand .. => false
  | .block body _ | .sample _ body _ _ | .function _ _ _ _ _ _ body _ | .module _ body _ _ =>
    allFree body
  | .ifStmt _ thenBranch elseBranch _ | .ifCarries _ _ thenBranch elseBranch _ =>
    free thenBranch && optionalFree elseBranch
  | .whileStmt _ body _ | .forStmt _ _ _ body _ | .using _ _ body _ => free body
  | _ => true

def allFree : List Stmt → Bool
  | [] => true
  | head :: rest => free head && allFree rest

def optionalFree : Option Stmt → Bool
  | none => true
  | some branch => free branch

end

/-- The rest of the program is expanded in place: generators go, and for an `expand` stand the
declarations that the generator of its name gives. -/
inductive Expands (run : Runner) (program : List Stmt) : List Stmt → List Stmt → Prop
  | nil : Expands run program [] []
  | generator {name params body span rest output} : Expands run program rest output →
      Expands run program (.generator name params body span :: rest) output
  | expand {name labels arguments span params body declared part rest output} :
      .generator name params body declared ∈ program →
      evaluateGenerator run name params body labels arguments span = .ok part →
      Expands run program rest output →
      Expands run program (.expand name labels arguments span :: rest) (part ++ output)
  | other {statement rest output} : generates statement = false →
      Expands run program rest output →
      Expands run program (statement :: rest) (statement :: output)

variable {run : Runner} {program rest output part : List Stmt}

theorem allFree_iff : allFree part = true ↔ ∀ statement ∈ part, free statement = true := by
  induction part with
  | nil => simp [allFree]
  | cons head rest ih => simp [allFree, ih]

mutual

theorem free_statement : (source : Source) → free source.statement = true
  | .shape .. | .choice .. | .binding .. | .give .. | .call .. => rfl
  | .function _ _ _ body _ | .each _ _ body _ => free_body body
  | .when _ thenBranch otherwise _ => by
    rw [Source.statement, free, free, free_body thenBranch]
    split
    · rfl
    · exact free_body otherwise

theorem free_body : (sources : List Source) → allFree (Source.body sources) = true
  | [] => rfl
  | source :: rest => by
    rw [Source.body, allFree, free_statement source]
    exact free_body rest

end

theorem free_evaluateGenerator {name : String} {params : List Param} {body : List Stmt}
    {labels : List String} {arguments : List Expr} {span : Span}
    (h : evaluateGenerator run name params body labels arguments span = .ok part) :
    ∀ statement ∈ part, free statement = true := by
  unfold evaluateGenerator at h
  dsimp only at h
  split_ifs at h
  split at h
  · cases h
  · cases h
  next values _ =>
    split_ifs at h
    clear * - h
    induction values generalizing part with
    | nil =>
      cases h
      simp
    | cons value rest ih =>
      obtain ⟨statement, others, hv, hr, rfl⟩ := mapM_cons_eq_ok.mp h
      refine forall_mem_cons.mpr ⟨?_, ih hr⟩
      cases value with
      | inl source =>
        cases hv
        exact free_statement source
      | inr typeName => cases hv

theorem expands_spliced (h : spliced run program rest = .ok output) :
    Expands run program rest output := by
  fun_induction spliced run program rest generalizing output with
  | case1 =>
    cases h
    exact .nil
  | case2 _ _ _ _ _ ih => exact .generator (ih h)
  | case3 => cases h
  | case4 => cases h
  | case5 name labels arguments span rest params body hf part he ih =>
    obtain ⟨tail, ht, ⟨⟩⟩ := bind_eq_ok_iff.mp h
    obtain ⟨statement, hm, hs⟩ := exists_of_findSome?_eq_some hf
    cases statement <;>
      simp only [generatorNamed, reduceCtorEq, Option.ite_none_right_eq_some] at hs
    obtain ⟨rfl, ⟨⟩⟩ := hs
    exact .expand hm he (ih ht)
  | case6 rest statement hg he ih =>
    obtain ⟨tail, ht, ⟨⟩⟩ := bind_eq_ok_iff.mp h
    refine .other ?_ (ih ht)
    cases statement <;> simp_all [generates]

theorem expands_of_not_generates (h : rest.any generates = false) :
    Expands run program rest rest := by
  induction rest with
  | nil => exact .nil
  | cons head rest ih =>
    rw [any_cons, Bool.or_eq_false_iff] at h
    exact .other h.1 (ih h.2)

theorem Expands.free_iff (h : Expands run program rest output) : allFree output = true ↔
    ∀ statement ∈ rest, generates statement = true ∨ free statement = true := by
  induction h with
  | nil => simp [allFree]
  | generator _ ih => simpa [generates] using ih
  | expand _ he _ ih =>
    rw [allFree_iff, forall_mem_append, and_iff_right (free_evaluateGenerator he),
      ← allFree_iff, ih]
    simp [generates]
  | other hg _ ih => simp [allFree, ih, hg]

/-- The expanded program is free of generators, with their declarations in place, exactly if no
statement of the program other than those at its top is or holds a generator or an `expand`. -/
theorem expandProgram_complete_iff (h : expandProgram run program = .ok output) :
    (allFree output = true ∧ Expands run program program output) ↔
      ∀ statement ∈ program, generates statement = true ∨ free statement = true := by
  have hexpands : Expands run program program output := by
    unfold expandProgram at h
    split_ifs at h with hany
    · split at h
      · cases h
      · exact expands_spliced h
    · cases h
      exact expands_of_not_generates (by simpa using hany)
  rw [and_iff_left hexpands, hexpands.free_iff]

/-- A generator that gives one binding, and an `expand` of it before a `print`. -/
theorem seeded_complete :
    let at_ : Span := ⟨1, 1⟩
    let seed := Source.binding "seed" .null at_
    let output := [seed.statement, .print (.variable "seed" at_) at_]
    allFree output = true ∧ Expands (fun _ => .ok (.array [.inl seed]))
      [.generator "seeds" [] [] at_, .expand "seeds" [] [] at_, .print (.variable "seed" at_) at_]
      [.generator "seeds" [] [] at_, .expand "seeds" [] [] at_, .print (.variable "seed" at_) at_]
      output :=
  (expandProgram_complete_iff rfl).mpr (by simp [generates, free])

/-- A used file with an `expand` is a module whose body keeps it. -/
theorem module_keeps_expand :
    let at_ : Span := ⟨1, 1⟩
    let used := Stmt.module "used" [.generator "seeds" [] [] at_, .expand "seeds" [] [] at_] [] at_
    expandProgram (fun _ => .ok (.array [])) [used] = .ok [used] ∧ allFree [used] = false :=
  ⟨rfl, rfl⟩

end Nivren.Expand
