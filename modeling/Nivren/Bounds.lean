import Nivren.Tasks
import Nivren.Safety

/-! Tasks stay within the bounds of their spawners.

A worker copies its spawner's grants, scopes, promises and call depth limit and shares its budgets.
Two settings are not handed on: the declared payload limit, and the trace of a replay. So the bounds
hold for every tree of tasks in which nobody with a smaller payload limit than the default, and nobody
who replays effects, starts a task.
-/

namespace Nivren

open Program List

variable {σ ν : Type} {host : Host Chunk σ ν}

def NoMore (budget limit : Option Nat) : Prop := ∀ n, limit = some n → ∃ m ≤ n, budget = some m

theorem NoMore.refl (budget : Option Nat) : NoMore budget budget := fun n h => ⟨n, Nat.le_refl n, h⟩

theorem NoMore.trans {a b c : Option Nat} (h₁ : NoMore a b) (h₂ : NoMore b c) : NoMore a c := by
  intro n hn
  obtain ⟨m, hm, hb⟩ := h₂ n hn
  obtain ⟨k, hk, ha⟩ := h₁ m hb
  exact ⟨k, Nat.le_trans hk hm, ha⟩

theorem NoMore.spend {budget limit : Option Nat} (h : NoMore budget limit) (amount : Nat) :
    NoMore (budget.map (· - amount)) limit := by
  intro n hn
  obtain ⟨m, hm, hb⟩ := h n hn
  exact ⟨m - amount, by omega, by rw [hb]; rfl⟩

/-- An interpreter with at most the grants, scopes and limits of its spawner and at least its
promises. One whose spawner only replays effects does not perform any either. -/
def Interp.Within (s spawner : Interp Chunk σ) : Prop :=
  s.capabilities = spawner.capabilities ∧ s.capabilityScopes = spawner.capabilityScopes ∧
    spawner.activePromises <+: s.activePromises ∧
    NoMore s.instructionBudget spawner.instructionBudget ∧
    NoMore s.memoryBudget spawner.memoryBudget ∧
    s.maxCallDepth ≤ spawner.maxCallDepth ∧ s.payloadLimit ≤ spawner.payloadLimit ∧
    (spawner.effectReplay.isSome → s.effectReplay.isSome)

def boundPatch (host : Host Chunk σ ν) (spawner : Interp Chunk σ) : Patch host where
  toAllowed := .keeping spawner.activePromises.length
  apply := id
  extra s := s.Within spawner
  allows _ := True

variable {m : Machine σ ν}

section Bound

variable {spawner : Interp Chunk σ}

theorem boundPatch_unnoticed : (boundPatch host spawner).Unnoticed where
  setMemory bytes s hs := by
    obtain ⟨h₁, h₂, h₃, h₄, h₅, h₆⟩ := hs.extra
    exact ⟨rfl, h₁, h₂, h₃, h₄, h₅.spend bytes, h₆⟩
  pushPromises _ clauses s hs := by
    obtain ⟨h₁, h₂, h₃, h₄⟩ := hs.extra
    exact ⟨rfl, h₁, h₂, h₃.trans (prefix_append _ _), h₄⟩
  setReplay _ trace s hs := by
    obtain ⟨h₁, h₂, h₃, h₄, h₅, h₆, h₇, -⟩ := hs.extra
    exact ⟨rfl, h₁, h₂, h₃, h₄, h₅, h₆, h₇, fun _ => rfl⟩
  spend s hs := by
    obtain ⟨h₁, h₂, h₃, h₄, h₅⟩ := hs.extra
    exact ⟨rfl, h₁, h₂, h₃, h₄.spend 1, h₅⟩
  truncate mark hm s hs := by
    obtain ⟨h₁, h₂, h₃, h₄⟩ := hs.extra
    have hl : spawner.activePromises.length ≤ mark := hm
    exact ⟨rfl, h₁, h₂, prefix_take_iff.mpr ⟨h₃, hl⟩, h₄⟩

theorem boundPatch_apply (tame : host.Tame)
    (hm : (boundPatch host spawner).Works m) (event : Event) :
    (boundPatch host spawner).Works (m.apply host event) := by
  cases event with
  | step input => exact (boundPatch_unnoticed.step tame hm (fun _ _ => trivial) input).2
  | cancel => exact ⟨⟨{ hm.keeps.interp with }, hm.keeps.extra⟩, hm.frames, hm.control⟩

end Bound

/-- The change that changes nothing, on interpreters with no more budget than another one. -/
def budgetPatch (host : Host Chunk σ ν) (before : Interp Chunk σ) : Patch host where
  toAllowed := .unrestricted
  apply := id
  extra s := NoMore s.instructionBudget before.instructionBudget ∧
    NoMore s.memoryBudget before.memoryBudget
  allows _ := True

variable {before : Interp Chunk σ}

theorem budgetPatch_unnoticed : (budgetPatch host before).Unnoticed where
  setMemory bytes _ hs := ⟨rfl, hs.extra.1, hs.extra.2.spend bytes⟩
  spend _ hs := ⟨rfl, hs.extra.1.spend 1, hs.extra.2⟩

theorem Machine.step_budgets (tame : host.Tame) (m : Machine σ ν) (input : VM.Input) :
    NoMore (m.step host input).interp.instructionBudget m.interp.instructionBudget ∧
      NoMore (m.step host input).interp.memoryBudget m.interp.memoryBudget := by
  have hf := Allowed.unrestricted_machine host m
  have hke : (budgetPatch host m.interp).Keeps m.interp := ⟨hf.interp, .refl _, .refl _⟩
  exact (budgetPatch_unnoticed.step tame ⟨hke, hf.frames, hf.control⟩
    (fun _ _ => trivial) input).2.keeps.extra

/-- The change that changes nothing, on interpreters that have started no more tasks. -/
def quietPatch (host : Host Chunk σ ν) (before : Interp Chunk σ) : Patch host where
  toAllowed := .unrestricted
  apply := id
  extra s := s.spawned = before.spawned
  allows feature := feature ≠ .spawn

theorem quietPatch_unnoticed : (quietPatch host before).Unnoticed where
  spawn h := absurd rfl h

theorem Machine.step_spawned (tame : host.Tame) (input : VM.Input)
    (hq : Feature.spawn ∉ m.features) :
    (m.step host input).interp.spawned = m.interp.spawned := by
  have hfr := Allowed.unrestricted_machine host m
  have hke : (quietPatch host m.interp).Keeps m.interp := ⟨hfr.interp, rfl⟩
  exact (quietPatch_unnoticed.step tame ⟨hke, hfr.frames, hfr.control⟩
    (fun _ hf h => hq (h ▸ hf)) input).2.keeps.extra

/-- A task takes over the grants, scopes, promises and call depth limit of an interpreter. -/
def TaskStart.Inherits (start : TaskStart Chunk) (s : Interp Chunk σ) : Prop :=
  start.capabilities = s.capabilities ∧ start.capabilityScopes = s.capabilityScopes ∧
    start.activePromises = s.activePromises ∧ start.maxCallDepth = s.maxCallDepth

/-- The change that changes nothing, on interpreters that have handed on what another one had. -/
def spawnPatch (host : Host Chunk σ ν) (before : Interp Chunk σ) : Patch host where
  toAllowed := .unrestricted
  apply := id
  extra s := (s.capabilities = before.capabilities ∧ s.capabilityScopes = before.capabilityScopes ∧
      s.activePromises = before.activePromises ∧ s.maxCallDepth = before.maxCallDepth) ∧
    ∃ more, s.spawned = before.spawned ++ more ∧ ∀ start ∈ more, start.Inherits before
  allows feature := feature ≠ .promise

instance spawnPatch_lawful : (spawnPatch host before).Lawful where
  pushPromises h := absurd rfl h
  spawn _ task f span s hs := by
    obtain ⟨hsa, more, hm, hall⟩ := hs.extra
    refine ⟨rfl, hsa, more ++ [⟨task, f, span, s.capabilities, s.capabilityScopes,
      s.activePromises, s.maxCallDepth, decide (0 < s.nativeExecutionDepth), s.metered⟩], ?_, ?_⟩
    · dsimp only
      rw [hm, append_assoc]
    · intro start hst
      rcases mem_append.mp hst with h | h
      · exact hall start h
      · rw [mem_singleton.mp h]
        exact hsa

theorem Machine.features_spawn (h : Feature.spawn ∈ m.features) :
    ∃ f arguments span, m.control = .call (.native f) arguments span := by
  unfold features Control.features at h
  split at h
  · split at h
    · unfold Op.features at h
      split at h <;> simp_all
      split at h <;> simp_all
    · cases h
  next hc => exact ⟨_, _, _, hc⟩
  · simp at h
  · unfold NativeFunction.effects at h
    split at h <;> simp at h
  · split at h <;> simp at h
  · cases h

variable {start : TaskStart Chunk}

theorem Machine.apply_started (tame : host.Tame) {event : Event}
    (h : start ∈ TaskTree.started m.interp (m.apply host event).interp) :
    Feature.spawn ∈ m.features ∧ start.Inherits m.interp := by
  unfold TaskTree.started at h
  cases event with
  | cancel => simp [Machine.apply] at h
  | step input =>
    have hsp : Feature.spawn ∈ m.features := by
      by_contra hq
      simp [Machine.apply, Machine.step_spawned tame input hq] at h
    refine ⟨hsp, ?_⟩
    obtain ⟨f, arguments, span, hco⟩ := Machine.features_spawn hsp
    have hfr := Allowed.unrestricted_machine host m
    have hke : (spawnPatch host m.interp).Keeps m.interp :=
      ⟨hfr.interp, ⟨rfl, rfl, rfl, rfl⟩, [], by simp, nofun⟩
    have ha : (spawnPatch host m.interp).values arguments := by
      have hc := hfr.control
      rw [hco] at hc
      exact hc.2
    have hst : (spawnPatch host m.interp).Unaware (VM.step host input m.frames m.control)
        m.interp ((spawnPatch host m.interp).next host) := by
      rw [hco]
      refine Patch.unaware_reporting (Patch.unaware_callNative tame ha hfr.frames
        (fun feature hf hp => ?_) _ hke) hfr.frames
      subst hp
      simp [NativeFunction.features, NativeFunction.effects] at hf
    obtain ⟨-, more, hm, hall⟩ := (Patch.Unaware.onMachine hfr.frames hst).2.keeps.extra
    rw [Machine.apply, hm, drop_left] at h
    exact hall start h

def TaskTree.Bounded (host : Host Chunk σ ν) (tree : TaskTree σ ν) : Prop :=
  ∀ task ∈ tree.tasks, (boundPatch host task.spawner).Works (task.current tree.shared)

/-- Nobody who replays effects, or whose payload limit is below the default, starts a task. -/
def Machine.handsOn (m : Machine σ ν) : Prop :=
  Feature.spawn ∈ m.features →
    maxTextLiteralBytes ≤ m.interp.payloadLimit ∧ m.interp.effectReplay = none

instance : DecidablePred (@Machine.handsOn σ ν) := fun _ =>
  inferInstanceAs (Decidable (_ → _ ∧ _))

def Shared.NoMore (shared limit : Shared σ) : Prop :=
  Nivren.NoMore shared.instructionBudget limit.instructionBudget ∧
    Nivren.NoMore shared.memoryBudget limit.memoryBudget

variable {shared : Shared σ} {task : Task σ ν}

theorem Task.within_shared {shared' : Shared σ}
    (h : (boundPatch host task.spawner).Works (task.current shared)) (hl : shared'.NoMore shared) :
    (boundPatch host task.spawner).Works (task.current shared') := by
  obtain ⟨h₁, h₂, h₃, h₄, h₅, h₆⟩ := h.keeps.extra
  refine ⟨⟨Allowed.keeping_interp h.keeps.interp.promises, ?_⟩, h.frames, h.control⟩
  exact ⟨h₁, h₂, h₃, hl.1.trans h₄, hl.2.trans h₅, h₆⟩

theorem Machine.apply_shared (tame : host.Tame) (m : Machine σ ν) (event : Event) :
    (m.apply host event).interp.shared.NoMore m.interp.shared := by
  cases event with
  | step input => exact Machine.step_budgets tame m input
  | cancel => exact ⟨.refl _, .refl _⟩

variable {spawner : Interp Chunk σ}

theorem TaskStart.worker_within {globals : Nat} (hst : start.Inherits spawner)
    (hsh : shared.NoMore spawner.shared) (hl : maxTextLiteralBytes ≤ spawner.payloadLimit)
    (hr : spawner.effectReplay = none) : (start.worker shared globals).Within spawner := by
  obtain ⟨h₁, h₂, h₃, h₄⟩ := hst
  refine ⟨h₁, h₂, ?_, hsh.1, hsh.2, Nat.le_of_eq h₄, hl, fun h => ?_⟩
  · rw [← h₃]
    exact prefix_rfl
  · rw [hr] at h
    cases h

variable {tree : TaskTree σ ν}

theorem TaskTree.Bounded.launch (ht : tree.Bounded host) (hst : start.Inherits spawner)
    (hsh : tree.shared.NoMore spawner.shared)
    (hl : maxTextLiteralBytes ≤ spawner.payloadLimit) (hr : spawner.effectReplay = none) :
    (tree.launch host spawner start).Bounded host := by
  intro task hta
  rcases mem_append.mp hta with h | h
  · exact Task.within_shared (ht task h) ⟨.refl _, .refl _⟩
  · rw [mem_singleton.mp h]
    have hw : (start.worker (tree.shared.withGlobals host)
        tree.shared.heap.globals.length).Within spawner :=
      TaskStart.worker_within hst hsh hl hr
    exact ⟨⟨Allowed.keeping_interp hw.2.2.1.length_le, hw⟩, Allowed.frames_nil,
      Value.all_function.mpr ⟨trivial, trivial⟩, Allowed.values_nil⟩

theorem TaskTree.Bounded.launchAll {starts : List (TaskStart Chunk)}
    (hst : ∀ start ∈ starts, start.Inherits spawner ∧
      maxTextLiteralBytes ≤ spawner.payloadLimit ∧ spawner.effectReplay = none)
    (ht : tree.Bounded host) (hsh : tree.shared.NoMore spawner.shared) :
    (starts.foldl (TaskTree.launch host spawner) tree).Bounded host := by
  induction starts generalizing tree with
  | nil => exact ht
  | cons start rest ih =>
    obtain ⟨hin, hl, hr⟩ := hst start mem_cons_self
    apply ih fun start h => hst start (mem_cons_of_mem _ h)
    · exact ht.launch hin hsh hl hr
    · exact hsh

theorem TaskTree.Bounded.runTask (tame : host.Tame) {index : Nat} (ht : tree.Bounded host)
    (hta : task ∈ tree.tasks) (event : Event)
    (hands : (task.current tree.shared).handsOn) :
    (tree.runTask host index task event).Bounded host := by
  have hl := Machine.apply_shared tame (task.current tree.shared) event
  apply TaskTree.Bounded.launchAll
  · intro start hst
    obtain ⟨hsp, hin⟩ := Machine.apply_started tame hst
    exact ⟨hin, hands hsp⟩
  · intro other hot
    rcases mem_or_eq_of_mem_set hot with h | rfl
    · exact Task.within_shared (ht other h) hl
    · exact boundPatch_apply tame (ht task hta) event
  · exact hl

theorem TaskTree.Bounded.apply (tame : host.Tame) (ht : tree.Bounded host)
    (event : TaskEvent) (hands : ∀ m ∈ tree.acting event, m.handsOn) :
    (tree.apply host event).Bounded host := by
  cases event with
  | run index event =>
    unfold TaskTree.apply
    dsimp only
    split
    next task hta =>
      apply ht.runTask tame (mem_of_getElem? hta) event
      apply hands
      simp [acting, hta]
    · exact ht
  | finish index =>
    unfold TaskTree.apply
    dsimp only
    split
    next task hta =>
      split
      · intro other hot
        rcases mem_or_eq_of_mem_set hot with h | rfl
        · exact Task.within_shared (ht other h) ⟨.refl _, .refl _⟩
        · exact Task.within_shared (ht task (mem_of_getElem? hta)) ⟨.refl _, .refl _⟩
      · exact ht
    · exact ht

variable {capability : String}

theorem renounces_of_prefix {promises more : List PromiseClause}
    (h : promises <+: more) (hn : renounces more capability = none) :
    renounces promises capability = none := by
  unfold renounces at *
  rw [List.find?_eq_none] at *
  intro clause hc
  exact hn clause (mem_reverse.mpr (h.subset (mem_reverse.mp hc)))

variable {arguments : List (Value Chunk)} {s : Interp Chunk σ} {operation : String} {span : Span}

theorem VM.authorizeScope_eq (h : s.capabilityScopes = spawner.capabilityScopes) :
    (exec (VM.authorizeScope host capability operation arguments span) s).1 =
      (exec (VM.authorizeScope host capability operation arguments span) spawner).1 := by
  unfold VM.authorizeScope
  rw [exec_bind, exec_bind]
  simp only [VM.read, exec_read, h]
  split
  · rfl
  · split <;> split <;> rfl

variable {admitted : List (Value Chunk)}

theorem VM.gate_admitted :
    (exec (VM.gate host capability operation arguments span) s).1 = .ok (.admitted admitted) ↔
      s.effectReplay = none ∧ renounces s.activePromises capability = none ∧
        (s.capabilities.any fun allowed => capability ∉ allowed) = false ∧
        (exec (VM.authorizeScope host capability operation arguments span) s).1 = .ok admitted := by
  unfold VM.gate
  rw [exec_bind]
  simp only [VM.read, exec_read]
  cases hr : s.effectReplay with
  | some trace =>
    -- a replayed effect is never admitted
    rw [exec_bind]
    rcases exec (VM.replayEffect host capability operation arguments trace span) s with ⟨_ | _, _⟩ <;>
      simp
  | none =>
    rw [exec_bind]
    simp only [exec_read]
    cases hp : renounces s.activePromises capability with
    | some clause => simp [VM.deny, exec_bind, VM.note, VM.raise]
    | none =>
      rw [exec_bind]
      simp only [exec_read]
      cases hg : s.capabilities.any fun allowed => capability ∉ allowed with
      | true => simp [VM.deny, exec_bind, VM.note, VM.raise]
      | false =>
        simp only [Bool.false_eq_true, if_false]
        rw [exec_bind]
        rcases exec (VM.authorizeScope host capability operation arguments span) s with ⟨_ | _, _⟩ <;>
          simp [-bind_pure_comp, exec_bind, VM.note]

theorem Interp.Within.gate (h : s.Within spawner)
    (hga : (exec (VM.gate host capability operation arguments span) s).1 =
      .ok (.admitted admitted)) :
    (exec (VM.gate host capability operation arguments span) spawner).1 =
      .ok (.admitted admitted) := by
  obtain ⟨hgr, hsc, hp, -, -, -, -, hr⟩ := h
  obtain ⟨hn, hke, hg, ha⟩ := VM.gate_admitted.mp hga
  refine VM.gate_admitted.mpr ⟨?_, renounces_of_prefix hp hke, ?_, ?_⟩
  · rw [hn] at hr
    simpa using hr
  · rw [← hgr]
    exact hg
  · rw [← VM.authorizeScope_eq hsc]
    exact ha

theorem makeText_mono {lib : RustLibrary} {find : String → Option (Value Chunk)}
    {limit larger : Nat} (hle : limit ≤ larger) {values : List (Value Chunk)}
    {output text : String} (h : makeText lib find limit span values output = .ok text) :
    makeText lib find larger span values output = .ok text := by
  induction values generalizing output with
  | nil => exact h
  | cons value rest ih =>
    unfold makeText at h ⊢
    split at h
    · cases h
    next piece hp =>
      split at h
      · cases h
      next hf =>
        rw [if_neg (by omega)]
        exact ih h

/-- Every task of every tree runs within the bounds of the interpreter that started it, as long as
those who start tasks do not replay effects and have at least the default payload limit. So it is
admitted to no effect, and builds no text, that its spawner would have been refused. -/
theorem tasks_stay_within_bounds (tame : host.Tame) {s : Interp Chunk σ} {chunk : Chunk}
    {events : List TaskEvent}
    (hands : (TaskTree.single (Machine.start s chunk)).During host Machine.handsOn events)
    {task : Task σ ν} {tree : TaskTree σ ν}
    (htree : (TaskTree.single (Machine.start s chunk)).run host events = tree)
    (htask : task ∈ tree.tasks) :
    let current := (task.current tree.shared).interp
    current.Within task.spawner ∧
      (∀ capability operation arguments span admitted,
        (exec (VM.gate host capability operation arguments span) current).1 =
          .ok (.admitted admitted) →
        (exec (VM.gate host capability operation arguments span) task.spawner).1 =
          .ok (.admitted admitted)) ∧
      ∀ (find : String → Option (Value Chunk)) span values text,
        makeText host.lib find current.payloadLimit span values "" = .ok text →
        makeText host.lib find task.spawner.payloadLimit span values "" = .ok text := by
  have hstart : (TaskTree.single (Machine.start s chunk) : TaskTree σ ν).Bounded host := by
    intro task htask
    rw [mem_singleton.mp htask]
    exact ⟨⟨Allowed.keeping_interp (Nat.le_refl _), rfl, rfl, prefix_rfl, .refl _, .refl _,
      Nat.le_refl _, Nat.le_refl _, id⟩, Allowed.frames_nil,
      ⟨trivial, Nat.le_refl _⟩, Allowed.values_nil⟩
  have hbounded := hands.invariant
    (fun tree event ht hands => TaskTree.Bounded.apply tame ht event hands) hstart
  rw [htree] at hbounded
  have hwithin := (hbounded task htask).keeps.extra
  exact ⟨hwithin, fun _ _ _ _ _ h => hwithin.gate h,
    fun _ _ _ _ h => makeText_mono hwithin.2.2.2.2.2.2.1 h⟩

/-- `std.tasks.spawn`. -/
def spawnTask : NativeFunction := ⟨0, "spawn", 1, none, some "Task"⟩

def spawnHost : Host Chunk Unit Unit := .bare [("spawn", ⟨.native spawnTask, false⟩)]

def buildText : Chunk :=
  .ofOps [.load "spawn", .makeFunction "build" [] (.ofOps [.constant (.string "hello"),
    .makeText 1, .return]), .call 1]

def buildHere : Chunk := .ofOps [.constant (.string "hello"), .makeText 1]

def spawnStart (limit : Nat) (chunk : Chunk) : TaskTree Unit Unit :=
  .single (Machine.start { spawnHost.interpreter () with payloadLimit := limit } chunk)

def taskSteps (task count : Nat) : List TaskEvent :=
  replicate count (.run task (.step ⟨none, false⟩))

def TaskTree.succeeded (tree : TaskTree Unit Unit) : List (Option Bool) :=
  tree.tasks.map fun task => task.machine.result.map fun result => result.toBool

set_option maxRecDepth 4000 in
theorem tasks_stay_within_bounds_text :
    let tree := (spawnStart maxTextLiteralBytes buildText).run spawnHost
      (taskSteps 0 20 ++ taskSteps 1 20)
    tree.tasks.length = 2 ∧
      ∀ task ∈ tree.tasks, (task.current tree.shared).interp.Within task.spawner :=
  ⟨by decide, fun _ htask =>
    (tasks_stay_within_bounds (Host.bare_tame _) (by decide) rfl htask).1⟩

set_option maxRecDepth 4000 in
/-- With a payload limit of four bytes the program may not build the text, but a task it starts may. -/
theorem task_exceeds_payload_limit :
    (let tree := (spawnStart 4 buildText).run spawnHost (taskSteps 0 20 ++ taskSteps 1 20)
    tree.succeeded = [some true, some true] ∧
      tree.tasks.map (fun task => (task.machine.interp.payloadLimit, task.spawner.payloadLimit)) =
        [(4, 4), (maxTextLiteralBytes, 4)]) ∧
      ((spawnStart 4 buildHere).run spawnHost (taskSteps 0 20)).succeeded = [some false] := by
  decide

end Nivren
