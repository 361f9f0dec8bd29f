import Nivren.PatchStep
import Nivren.Collect

/-! What a machine refers to never grows beyond what is allowed: every event keeps it. -/

namespace Nivren

open Program

variable {σ ν : Type} {host : Host Chunk σ ν}

theorem Allowed.heap.sweeps {A : Allowed} {keep : Env → Prop} {h h' : Heap Chunk} (hh : A.heap h)
    (hs : Sweeps keep h h') : A.heap h' where
  value e he entry hm := by
    rcases hs.other e with h | h <;> rw [h] at hm
    · exact hh.value e he entry hm
    · cases hm
  parent e he p hp := by
    rcases hs.other e with h | h <;> rw [h] at hp
    · exact hh.parent e he p hp
    · cases hp
  unborn i hi := hh.unborn i (hs.scopes ▸ hi)

variable {m : Machine σ ν}

namespace Patch

variable {p : Patch host} {s : Interp Chunk σ}

theorem unaware_preamble [hp : p.Lawful] (hr : p.Reads Interp.instructionBudget)
    (hw : p.Writes fun s => { s with instructionBudget := s.instructionBudget.map (· - 1) })
    {terminate : Bool} {span : Span} :
    p.Oblivious (VM.preamble terminate span) fun _ => True := by
  have hd : p.Oblivious (do
      if (← VM.read Interp.debugged) && terminate then VM.raise VM.debuggerTerminated span)
        fun _ => True := by
    refine hp.debugged.read.bind fun debugged _ => ?_
    split
    · exact unaware_raise
    · exact .pure trivial
  have hc : p.Oblivious (VM.charge span) fun _ => True := by
    refine hr.read.bind fun budget _ => ?_
    split
    · exact .pure trivial
    · exact unaware_raise
    · exact hw.unaware
  refine unaware_isCancelled.bind fun cancelled _ => ?_
  split
  · exact Oblivious.bind (P := fun _ => False) .throw fun _ h => h.elim
  · exact hc.seq hd

theorem unaware_beginCall [hp : p.Lawful] (hr : p.Reads Interp.callDepth)
    (hw : p.Writes fun s => { s with callDepth := s.callDepth + 1 })
    {span : Span} : p.Oblivious (VM.beginCall span) fun _ => True := by
  refine hp.maxCallDepth.read.bind fun limit _ => ?_
  refine hr.read.bind fun depth _ => ?_
  split
  · exact unaware_raise
  · exact hw.unaware

/-- The collector does not notice the patch. The default proofs are for patches that leave the heap
and the collector's books alone. -/
structure Collects (p : Patch host) : Prop where
  live : ∀ stack, p.Reads fun s => markFrom host s.world s.heap (VM.collectorRoots host s stack) := by
    exact fun _ _ _ => rfl
  books : p.Reads Interp.collector := by exact fun _ _ => rfl
  setBooks : ∀ f : Collector → Collector, p.Writes fun s =>
      { s with collector := f s.collector } := by
    exact fun _ _ hs => ⟨rfl, hs.extra⟩
  sweep : ∀ (kept : List Env) (minor : Bool), p.Writes fun s => { s with
      heap := sweep s.environments kept (if minor then some s.collector.ages else none) s.heap
      collector := { s.collector with
        ages := refreshAges s.environments kept s.collector.ages } } := by
    exact fun _ _ _ hs => ⟨rfl, hs.extra⟩
  tick : p.Writes fun s => { s with gcTicks := s.gcTicks + 1 } := by
    exact fun _ hs => ⟨rfl, hs.extra⟩
  reset : p.Writes fun s => { s with gcTicks := 0 } := by
    exact fun _ hs => ⟨rfl, hs.extra⟩

section Collector

variable (hk : p.Collects)
include hk

variable {stack : List (Value Chunk)}

theorem unaware_liveScopes : p.Oblivious (VM.liveScopes host stack) fun _ => True :=
  (hk.live stack).read

theorem unaware_setPending {pending : Bool} : p.Oblivious (VM.setPending pending) fun _ => True :=
  (hk.setBooks fun books => { books with pending := pending }).unaware

theorem unaware_sweepWith {kept : List Env} {minor : Bool} :
    p.Oblivious (VM.sweepWith kept minor) fun _ => True := by
  refine (hk.sweep kept minor).unaware fun s hs => ?_
  have hsw : Sweeps (fun _ => False) s.heap
      (sweep s.environments kept (if minor then some s.collector.ages else none) s.heap) :=
    Sweeps.of_sweep nofun
  exact { hs.interp with heap := hs.interp.heap.sweeps hsw }

variable {report : MarkerReport}

theorem unaware_finishMark : p.Oblivious (VM.finishMark host report stack) fun _ => True := by
  have hpe : p.Reads fun s => s.collector.pending := fun s hs =>
    congrArg Collector.pending (hk.books s hs)
  refine hpe.read.bind fun pending _ => ?_
  split
  · cases report with
    | empty => exact .pure trivial
    | disconnected => exact unaware_setPending hk
    | marked scopes =>
      exact (unaware_liveScopes hk).bind fun _ _ =>
        (unaware_sweepWith hk).seq <| unaware_setPending hk
  · exact .pure trivial

theorem unaware_collect : p.Oblivious (VM.collect host report stack) fun _ => True := by
  refine (unaware_finishMark hk).seq ?_
  refine ((hk.setBooks fun books => { books with cycles := books.cycles + 1 }).unaware).seq ?_
  refine hk.books.read.bind fun books _ => ?_
  split
  · exact unaware_setPending hk
  · exact (unaware_liveScopes hk).bind fun _ _ => unaware_sweepWith hk

theorem unaware_maybeCollect {trigger : Option MarkerReport} :
    p.Oblivious (VM.maybeCollect host trigger stack) fun _ => True := by
  cases trigger with
  | none => exact hk.tick.unaware
  | some report =>
    exact (unaware_collect hk).seq <| hk.reset.unaware

end Collector

structure Unnoticed (p : Patch host) : Prop extends p.Lawful, p.Collects where
  budget : p.Reads Interp.instructionBudget := by exact fun _ _ => rfl
  spend : p.Writes fun s => { s with instructionBudget := s.instructionBudget.map (· - 1) } := by
    exact fun _ hs => ⟨rfl, hs.extra⟩
  depth : p.Reads Interp.callDepth := by exact fun _ _ => rfl
  count : p.Writes fun s => { s with callDepth := s.callDepth + 1 } := by
    exact fun _ hs => ⟨rfl, hs.extra⟩
  mode : p.Reads fun s => decide (0 < s.nativeExecutionDepth) := by exact fun _ _ => rfl
  mark : p.Reads fun s => s.activePromises.length := by exact fun _ _ => rfl
  truncate : ∀ mark, p.floor ≤ mark → p.Writes fun s =>
      { s with activePromises := s.activePromises.take mark } := by
    exact fun _ _ _ hs => ⟨rfl, hs.extra⟩

namespace Unnoticed

variable (hp : p.Unnoticed)
include hp

theorem executor : p.Executor :=
  have := hp.toLawful
  Lawful.executor hp.mode hp.mark hp.truncate

theorem admits (hm : p.Works m)
    (hfe : ∀ feature ∈ m.features, p.allows feature) (input : VM.Input) :
    p.Admits input m :=
  have := hp.toLawful
  { features := hfe
    preamble _ _ _ _ _ := unaware_preamble hp.budget hp.spend _ hm.keeps
    beginCall _ _ _ _ := unaware_beginCall hp.depth hp.count _ hm.keeps
    goTo hs ha hf _ := unaware_goTo hp.mode hp.executor ha hf _ hs
    collect _ _ _ _ := unaware_maybeCollect hp.toCollects _ hm.keeps }

theorem step (tame : host.Tame) (hm : p.Works m)
    (hf : ∀ feature ∈ m.features, p.allows feature) (input : VM.Input) :
    (p.onMachine m).step host input = p.onMachine (m.step host input) ∧
      p.Works (m.step host input) :=
  have := hp.toLawful
  step_onMachine hp.executor tame hm (hp.admits hm hf input)

end Unnoticed

end Patch

theorem Machine.step_collect (host : Host Chunk σ ν) {a : Activation} {next : Nat} {memory : Bool}
    (hc : m.control = .collect a next memory) (input : VM.Input) :
    ∃ s, VM.Collected host a.stack m.interp s ∧
      m.step host input = ⟨s, m.frames, .settle a next memory⟩ := by
  have h := VM.ensures_maybeCollect host input.trigger a.stack m.interp
  have hst : m.step host input =
      match exec (VM.maybeCollect host input.trigger a.stack >>= fun _ =>
        pure (m.frames, .settle a next memory)) m.interp with
      | (.ok (frames, control), interp) => ⟨interp, frames, control⟩
      | (.error _, interp) => ⟨interp, m.frames, .panic⟩ := by
    rw [Machine.step, hc]
    rfl
  unfold Ensures at h
  rw [hst, exec_bind]
  rcases hr : exec (VM.maybeCollect host input.trigger a.stack) m.interp with ⟨_ | _, s⟩
  all_goals rw [hr] at h
  · exact h.elim
  · exact ⟨s, h, rfl⟩

namespace Allowed

variable {A : Allowed}

def patch (A : Allowed) (host : Host Chunk σ ν) : Patch host where
  toAllowed := A
  apply := id
  extra _ := True
  allows _ := True

theorem patch_unnoticed : (A.patch host).Unnoticed where

instance patch_lawful : (A.patch host).Lawful := patch_unnoticed.toLawful

theorem machine.step (tame : host.Tame) (hm : A.machine host m)
    (input : VM.Input) : A.machine host (m.step host input) := by
  have hw := (patch_unnoticed.step tame (p := A.patch host)
    ⟨⟨hm.interp, trivial⟩, hm.frames, hm.control⟩ (fun _ _ => trivial) input).2
  exact ⟨hw.keeps.interp, hw.frames, hw.control⟩

theorem machine.apply (tame : host.Tame) (hm : A.machine host m)
    (event : Event) : A.machine host (m.apply host event) := by
  cases event with
  | step input => exact hm.step tame input
  | cancel => exact ⟨{ hm.interp with }, hm.frames, hm.control⟩

end Allowed

end Nivren
