import Nivren.Bounds
import Nivren.CheckPlaced
import Nivren.ScopeTable

/-! Scoped promises.

`promise C only within "…"` is read by the checker against the scopes functions declare, and by
nobody else: the gate an effect passes looks at `promise never` and at the project's grants. So the
boundaries of a promise hold for a run exactly as far as the grants keep to them.
-/

namespace Nivren

open Program

variable {σ ν : Type} {host : Host Chunk σ ν}

/-- What the project lets through of an effect, promises aside: the arguments it is performed
with. -/
def Interp.admits (host : Host Chunk σ ν) (s : Interp Chunk σ) (capability operation : String)
    (arguments : List (Value Chunk)) : Option (List (Value Chunk)) :=
  if s.capabilities.any fun allowed => capability ∉ allowed then none
  else
    match s.capabilityScopes.lookup capability with
    | none => some arguments
    | some scope =>
      let arguments :=
        if capability = "Native" ∧ operation = "open" then host.canonicalize arguments
        else arguments
      if host.inScope capability operation scope arguments then some arguments else none

/-- A native that needs a capability, as it is performed. -/
structure Effect where
  function : NativeFunction
  capability : String
  arguments : List (Value Chunk)

/-- The effect the next step performs. -/
def Machine.effect (host : Host Chunk σ ν) (m : Machine σ ν) : Option Effect :=
  match m.control with
  | .call (.native f) arguments span => do
    let capability ← f.capability
    let .ok () := checkArity f.name f.arity arguments.length span | none
    let (.ok (.admitted admitted), _) :=
      exec (VM.gate host capability f.name arguments span) m.interp | none
    return ⟨f, capability, admitted⟩
  | _ => none

variable {s : Interp Chunk σ} {arguments : List (Value Chunk)} {operation : String}
  {admitted : List (Value Chunk)} {capability : String}

theorem VM.authorizeScope_ok {span : Span}
    (hg : (s.capabilities.any fun allowed => capability ∉ allowed) = false) :
    (exec (VM.authorizeScope host capability operation arguments span) s).1 = .ok admitted ↔
      s.admits host capability operation arguments = some admitted := by
  unfold VM.authorizeScope Interp.admits
  rw [exec_bind]
  simp only [VM.read, exec_read, hg, Bool.false_eq_true, if_false]
  cases s.capabilityScopes.lookup capability with
  | none => simp
  | some scope =>
    dsimp only
    generalize (if capability = "Native" ∧ operation = "open" then host.canonicalize arguments
      else arguments) = handed
    by_cases hin : host.inScope capability operation scope handed = true
    · simp [hin]
    · simp [hin, VM.deny, exec_bind, VM.note, VM.raise]

theorem VM.admits_of_gate {span : Span}
    (h : (exec (VM.gate host capability operation arguments span) s).1 = .ok (.admitted admitted)) :
    s.admits host capability operation arguments = some admitted := by
  obtain ⟨-, -, hg, hau⟩ := VM.gate_admitted.mp h
  exact (VM.authorizeScope_ok hg).mp hau

theorem Machine.admits_of_effect {m : Machine σ ν} {effect : Effect}
    (h : m.effect host = some effect) : ∃ arguments, m.interp.admits host effect.capability
      effect.function.name arguments = some effect.arguments := by
  unfold Machine.effect at h
  split at h
  next f arguments span hco =>
    obtain ⟨capability, hc, h⟩ := Option.bind_eq_some_iff.mp h
    split at h
    next ha =>
      split at h
      next hg =>
        cases h
        exact ⟨arguments, VM.admits_of_gate (by rw [hg])⟩
      · cases h
    · cases h
  · cases h

/-- The arguments of an effect lie inside one of the boundaries of a clause. -/
def PromiseClause.Contains (host : Host Chunk σ ν) (clause : PromiseClause) (operation : String)
    (arguments : List (Value Chunk)) : Prop :=
  ∃ boundary ∈ clause.boundaries, host.inScope clause.capability operation boundary arguments = true

variable {clause : PromiseClause}

instance : Decidable (clause.Contains host operation arguments) :=
  inferInstanceAs (Decidable (∃ boundary ∈ clause.boundaries, _))

/-- The project grants nothing of a clause's capability outside its boundaries. -/
def PromiseClause.Fenced (host : Host Chunk σ ν) (s : Interp Chunk σ) (clause : PromiseClause) :
    Prop :=
  ∀ operation arguments admitted,
    s.admits host clause.capability operation arguments = some admitted →
      clause.Contains host operation admitted

theorem PromiseClause.Fenced.of_scope
    {scope : String} (hsc : s.capabilityScopes.lookup clause.capability = some scope)
    (hmem : scope ∈ clause.boundaries) : clause.Fenced host s := by
  intro operation arguments admitted ha
  unfold Interp.admits at ha
  rw [hsc] at ha
  split at ha
  · cases ha
  · dsimp only at ha
    generalize (if clause.capability = "Native" ∧ operation = "open" then
      host.canonicalize arguments else arguments) = handed at ha
    by_cases hin : host.inScope clause.capability operation scope handed = true
    · rw [if_pos hin] at ha
      cases ha
      exact ⟨scope, hmem, hin⟩
    · rw [if_neg hin] at ha
      cases ha

def Interp.SameGrants (s before : Interp Chunk σ) : Prop :=
  s.capabilities = before.capabilities ∧ s.capabilityScopes = before.capabilityScopes

variable {before : Interp Chunk σ}

def grantPatch (host : Host Chunk σ ν) (before : Interp Chunk σ) : Patch host where
  toAllowed := .unrestricted
  apply := id
  extra s := s.SameGrants before
  allows _ := True

theorem Machine.apply_grants (tame : host.Tame) (m : Machine σ ν) (event : Event) :
    (m.apply host event).interp.SameGrants m.interp := by
  cases event with
  | step input =>
    have hf := Allowed.unrestricted_machine host m
    have hke : (grantPatch host m.interp).Keeps m.interp := ⟨hf.interp, rfl, rfl⟩
    exact (({} : (grantPatch host m.interp).Unnoticed).step tame ⟨hke, hf.frames, hf.control⟩
      (fun _ _ => trivial) input).2.keeps.extra
  | cancel => exact ⟨rfl, rfl⟩

def TaskTree.OneProject (s : Interp Chunk σ) (tree : TaskTree σ ν) : Prop :=
  ∀ task ∈ tree.tasks, task.machine.interp.SameGrants s

variable {tree : TaskTree σ ν}

theorem TaskTree.OneProject.launchAll {spawner : Interp Chunk σ} {starts : List (TaskStart Chunk)}
    (hst : ∀ start ∈ starts, start.capabilities = s.capabilities ∧
      start.capabilityScopes = s.capabilityScopes) (ht : tree.OneProject s) :
    (starts.foldl (TaskTree.launch host spawner) tree).OneProject s := by
  induction starts generalizing tree with
  | nil => exact ht
  | cons start rest ih =>
    apply ih fun start h => hst start (List.mem_cons_of_mem _ h)
    intro task hta
    rcases List.mem_append.mp hta with h | h
    · exact ht task h
    · rw [List.mem_singleton.mp h]
      exact hst start List.mem_cons_self

theorem TaskTree.OneProject.apply (tame : host.Tame)
    (ht : tree.OneProject s) (event : TaskEvent) : (tree.apply host event).OneProject s := by
  have hset : ∀ (index : Nat) (changed : Task σ ν), changed.machine.interp.SameGrants s →
      ∀ task ∈ tree.tasks.set index changed, task.machine.interp.SameGrants s := by
    intro index changed hc task hta
    rcases List.mem_or_eq_of_mem_set hta with h | rfl
    · exact ht task h
    · exact hc
  cases event with
  | run index event =>
    unfold TaskTree.apply
    dsimp only
    split
    next task hta =>
      have hold : task.machine.interp.SameGrants s := ht task (List.mem_of_getElem? hta)
      have hnew := Machine.apply_grants tame (task.current tree.shared) event
      apply TaskTree.OneProject.launchAll
      · intro start hst
        obtain ⟨-, hg, hsc, -⟩ := Machine.apply_started tame hst
        exact ⟨hg.trans hold.1, hsc.trans hold.2⟩
      · exact hset index _ ⟨hnew.1.trans hold.1, hnew.2.trans hold.2⟩
    · exact ht
  | finish index =>
    unfold TaskTree.apply
    dsimp only
    split
    next task hta =>
      split
      · exact hset index _ (ht task (List.mem_of_getElem? hta))
      · exact ht
    · exact ht

theorem TaskTree.OneProject.run (tame : host.Tame)
    (ht : tree.OneProject s) (events : List TaskEvent) : (tree.run host events).OneProject s := by
  induction events generalizing tree with
  | nil => exact ht
  | cons event events ih => exact ih (ht.apply tame event)

/-- In every state of every run, in every task, an effect that is performed while a scoped promise
is active keeps to the boundaries of the promise, provided the project grants nothing outside
them. -/
theorem scoped_promise_kept (tame : host.Tame) {s : Interp Chunk σ} {chunk : Chunk}
    {events : List TaskEvent} {tree : TaskTree σ ν}
    (htree : (TaskTree.single (Machine.start s chunk)).run host events = tree)
    {task : Task σ ν} (htask : task ∈ tree.tasks) {effect : Effect}
    (heffect : (task.current tree.shared).effect host = some effect) :
    ∀ clause ∈ (task.current tree.shared).interp.activePromises,
      clause.never = false → clause.capability = effect.capability → clause.Fenced host s →
        clause.Contains host effect.function.name effect.arguments := by
  intro clause _ _ hcapability hfenced
  have hstart : (TaskTree.single (Machine.start s chunk) : TaskTree σ ν).OneProject s := by
    intro task htask
    rw [List.mem_singleton.mp htask]
    exact ⟨rfl, rfl⟩
  have hgrants : (task.current tree.shared).interp.SameGrants s := by
    have hproject := hstart.run tame events
    rw [htree] at hproject
    exact hproject task htask
  obtain ⟨arguments, hadmits⟩ := Machine.admits_of_effect heffect
  rw [Interp.admits, hgrants.1, hgrants.2, ← hcapability] at hadmits
  exact hfenced _ _ _ hadmits

/-- `std.files.read`. -/
def stdFilesRead : NativeFunction := ⟨0, "read", 1, some "FileRead", some "files"⟩

def filesPrelude : List (String × Binding Chunk) :=
  [("std", ⟨.module 0 [("files", .module 1 [("read", .native stdFilesRead)])], false⟩)]

def filesHost : Host Chunk Unit Unit where
  __ := Host.bare filesPrelude
  inScope := scopeAllows (fun target scope => scope.toList.isPrefixOf target.toList) (· == ·)

theorem filesHost_tame : filesHost.Tame where
  __ := Host.bare_tame filesPrelude

/-- `FileRead only within "path:./data"`. -/
def withinData : PromiseClause := ⟨"FileRead", false, ["path:./data"], ⟨1, 9⟩⟩

/-- A promise, a function whose declared need is inside it, and a call of the function:

    promise FileRead only within "path:./data"
    define load takes {} gives String or Problem needs FileRead within "path:./data" {
      give std.files.read(path)
    }
    load()
-/
def loadFrom (path : String) : List Stmt :=
  let given := .result (.named "String" ⟨2, 28⟩) (.named "Problem" ⟨2, 38⟩) ⟨2, 28⟩
  let read := .get (.get (.variable "std" ⟨3, 8⟩) "files" ⟨3, 11⟩) "read" ⟨3, 17⟩
  [.promise [withinData] ⟨1, 1⟩, .function "load" [] [] (some given) ["FileRead"]
    [⟨"FileRead", some "path:./data", ⟨2, 51⟩⟩]
    [.returnStmt (some (.call read [.literal (.string path) ⟨3, 24⟩] none ⟨3, 23⟩)) ⟨3, 3⟩] ⟨2, 1⟩,
   .expression (.call (.variable "load" ⟨5, 1⟩) [] none ⟨5, 5⟩)]

def scopedInterpreter (scopes : List (String × String)) : Interp Chunk Unit :=
  { filesHost.interpreter () with capabilityScopes := scopes }

/-- The run of the program up to the call of `std.files.read`. -/
def loadRun (scopes : List (String × String)) (path : String) : TaskTree Unit Unit :=
  (TaskTree.single (Machine.start (scopedInterpreter scopes)
    (Compiler.compileStatements (loadFrom path)))).run filesHost (taskSteps 0 36)

/-- A project that grants `FileRead` inside `./data` keeps the promise. -/
theorem scoped_promise_kept_data :
    let tree := loadRun [("FileRead", "path:./data")] "./data/config"
    ∃ task ∈ tree.tasks, ∃ effect ∈ (task.current tree.shared).effect filesHost,
      withinData ∈ (task.current tree.shared).interp.activePromises ∧
        withinData.Contains filesHost effect.function.name effect.arguments := by
  have hfound : let tree := loadRun [("FileRead", "path:./data")] "./data/config"
      ∃ task ∈ tree.tasks, ∃ effect ∈ (task.current tree.shared).effect filesHost,
        effect.capability = "FileRead" ∧
          withinData ∈ (task.current tree.shared).interp.activePromises := by
    decide +kernel
  have hfenced : withinData.Fenced filesHost (scopedInterpreter [("FileRead", "path:./data")]) :=
    .of_scope rfl (by decide)
  obtain ⟨tree, htree⟩ : ∃ tree, loadRun [("FileRead", "path:./data")] "./data/config" = tree :=
    ⟨_, rfl⟩
  rw [htree] at hfound ⊢
  obtain ⟨task, htask, effect, heffect, hcapability, hactive⟩ := hfound
  exact ⟨task, htask, effect, heffect, hactive, scoped_promise_kept filesHost_tame htree htask
    heffect withinData hactive rfl hcapability.symm hfenced⟩

/-- Without scoped grants the checked program reads `/etc/passwd` from under the promise. -/
theorem scoped_promise_broken :
    let program := loadFrom "/etc/passwd"
    let tree := loadRun [] "/etc/passwd"
    checkWithEdition program 5 = .ok () ∧
      compile program = .ok (Compiler.compileStatements program) ∧
      ∃ task ∈ tree.tasks, ∃ effect ∈ (task.current tree.shared).effect filesHost,
        effect.capability = withinData.capability ∧
          withinData ∈ (task.current tree.shared).interp.activePromises ∧
          ¬ withinData.Contains filesHost effect.function.name effect.arguments := by
  have hverified : verify (Compiler.compileStatements (loadFrom "/etc/passwd")) = .ok () := by
    decide +kernel
  refine ⟨by decide +kernel, ?_, by decide +kernel⟩
  simp only [compile, hverified]
  rfl

end Nivren
