import Nivren.Restrict
import Nivren.Safety
import Nivren.Session

/-! When collections are invisible.

A scope is usable when the machine's references lead to it. A collection that keeps every usable
scope changes nothing the program can see. The collector's own roots miss some usable scopes: those
behind the slots of active frames, behind the operands of suspended activations, behind the dispatch
table and behind spawned functions.
-/

namespace Nivren

open Program

variable {σ ν : Type} {host : Host Chunk σ ν}

def Machine.references (host : Host Chunk σ ν) (m : Machine σ ν) : Allowed :=
  .inter fun A => A.machine host m

theorem Machine.references_machine (host : Host Chunk σ ν) (m : Machine σ ν) :
    (m.references host).machine host m :=
  Allowed.inter_machine fun _ hA => hA

/-- A scope the program can still use: the references of the machine lead to it. -/
def Machine.Usable (host : Host Chunk σ ν) (m : Machine σ ν) (e : Env) : Prop :=
  (m.references host).scope e

/-- Two interpreters differ at most in the collector's books and in scopes outside a set. -/
structure Interp.Agree (E : Env → Prop) (s s' : Interp Chunk σ) : Prop where
  rest : s' = { s with heap := s'.heap, gcTicks := s'.gcTicks, collector := s'.collector }
  globals : s'.heap.globals.length = s.heap.globals.length
  scopes : s'.heap.scopes.length = s.heap.scopes.length
  get : ∀ e, E e → s'.heap.get e = s.heap.get e

variable {s : Interp Chunk σ} {s' : Interp Chunk σ}

theorem Allowed.restriction_apply_eq_iff (host : Host Chunk σ ν) {A : Allowed} :
    (A.restriction host).apply s = (A.restriction host).apply s' ↔ s.Agree A.scope s' := by
  constructor
  · intro h
    have hh : s.heap.restrict A.scope = s'.heap.restrict A.scope := congrArg Interp.heap h
    refine ⟨?_, ?_, ?_, fun e he => ?_⟩
    · obtain ⟨⟩ := s
      simp only [Allowed.restriction, Interp.withHeap, Interp.mk.injEq] at h
      simp only [h]
    · simpa using (congrArg (fun heap : Heap Chunk => heap.globals.length) hh).symm
    · simpa using (congrArg (fun heap : Heap Chunk => heap.scopes.length) hh).symm
    · rw [← Heap.get_restrict_of (h := s'.heap) he, ← hh, Heap.get_restrict_of he]
  · intro h
    have hh : s.heap.restrict A.scope = s'.heap.restrict A.scope :=
      Heap.ext_get (by simp [h.globals]) (by simp [h.scopes]) fun e => by
        rw [Heap.get_restrict, Heap.get_restrict]
        split
        next he => rw [h.get e he]
        · rfl
    change s.withHeap _ = s'.withHeap _
    rw [hh, h.rest]
    rfl

theorem Allowed.interp.agree {A : Allowed} (hs : A.interp host s)
    (h : s.Agree A.scope s') : A.interp host s' := by
  rw [h.rest]
  exact { hs with
    heap :=
      { value := fun e he entry hm => hs.heap.value e he entry (h.get e he ▸ hm)
        parent := fun e he p hp => hs.heap.parent e he p (h.get e he ▸ hp)
        unborn := fun i hi => hs.heap.unborn i (h.scopes ▸ hi) } }

def Machine.Alike (host : Host Chunk σ ν) (m n : Machine σ ν) : Prop :=
  n.frames = m.frames ∧ n.control = m.control ∧
    ∃ A : Allowed, A.machine host m ∧ m.interp.Agree A.scope n.interp

def Event.quiet : Event → Event
  | .step input => .step { input with trigger := none }
  | .cancel => .cancel

/-- Every tracked scope that the program can still use is found from the collector's roots. -/
def Machine.Rooted (host : Host Chunk σ ν) (m : Machine σ ν) : Prop :=
  ∀ a next memory, m.control = .collect a next memory → ∀ e ∈ m.interp.environments,
    m.Usable host e → VM.Live host m.interp a.stack e

variable {m : Machine σ ν}

theorem Machine.Rooted.collected (hm : m.Rooted host) {a : Activation}
    {next : Nat} {memory : Bool} (hc : m.control = .collect a next memory)
    (hs : VM.Collected host a.stack m.interp s) {e : Env}
    (he : m.Usable host e) : s.heap.get e = m.interp.heap.get e := by
  by_cases ht : e ∈ m.interp.environments
  · exact hs.sweeps.kept e (hm a next memory hc e ht he)
  · exact hs.untracked e ht

theorem Machine.step_quiet {input : VM.Input}
    (hc : ∀ a next memory, m.control ≠ .collect a next memory) :
    m.step host { input with trigger := none } = m.step host input := by
  obtain ⟨s, frames, control⟩ := m
  cases control
  case collect a next memory => exact absurd rfl (hc a next memory)
  all_goals rfl

variable {n : Machine σ ν}

theorem Machine.Alike.step (tame : host.Tame) (h : m.Alike host n)
    (hr : m.Rooted host) (input : VM.Input) :
    (m.step host input).Alike host (n.step host { input with trigger := none }) := by
  obtain ⟨hf, hco, A, hm, ha⟩ := h
  by_cases hc : ∃ a next memory, m.control = .collect a next memory
  · obtain ⟨a, next, memory, hc⟩ := hc
    obtain ⟨s, hs, hst⟩ := Machine.step_collect host hc input
    have hq : n.step host { input with trigger := none } =
        ⟨{ n.interp with gcTicks := n.interp.gcTicks + 1 }, n.frames, .settle a next memory⟩ := by
      rw [Machine.step, hco, hc]
      rfl
    rw [hst, hq]
    -- the two interpreters agree on the scopes the machine could use before the collection
    have hm' := m.references_machine host
    have hcn := hm'.control
    rw [hc] at hcn
    have hke : m.interp.Agree (m.references host).scope s :=
      ⟨by rw [hs.rest], hs.sweeps.globals, hs.sweeps.scopes, fun e he => hr.collected hc hs he⟩
    refine ⟨hf, rfl, m.references host, ⟨hm'.interp.agree hke, hm'.frames, hcn⟩, ?_⟩
    refine ⟨?_, ?_, ?_, fun e he => ?_⟩
    · rw [hs.rest, ha.rest]
    · exact ha.globals.trans hs.sweeps.globals.symm
    · exact ha.scopes.trans hs.sweeps.scopes.symm
    · exact (ha.get e (he A hm)).trans (hke.get e he).symm
  · replace hc : ∀ a next memory, m.control ≠ .collect a next memory := fun a next memory h =>
      hc ⟨a, next, memory, h⟩
    have hn : A.machine host n := ⟨hm.interp.agree ha, hf ▸ hm.frames, hco ▸ hm.control⟩
    have hms := Patch.step_onMachine Allowed.restriction_executor tame
      ⟨⟨hm.interp, trivial⟩, hm.frames, hm.control⟩
      (Allowed.restriction_admits hm input hc)
    have hns := Patch.step_onMachine Allowed.restriction_executor tame
      ⟨⟨hn.interp, trivial⟩, hn.frames, hn.control⟩
      (Allowed.restriction_admits hn input (hco ▸ hc))
    rw [Machine.step_quiet (hco ▸ hc)]
    have hp : (A.restriction host).onMachine m = (A.restriction host).onMachine n := by
      simp only [Patch.onMachine, (Allowed.restriction_apply_eq_iff host).mpr ha, hf, hco]
    have haf : (A.restriction host).onMachine (m.step host input) =
        (A.restriction host).onMachine (n.step host input) := by
      rw [← hms.1, ← hns.1, hp]
    have hw := hms.2
    exact ⟨(congrArg Machine.frames haf).symm, (congrArg Machine.control haf).symm, A,
      ⟨hw.keeps.interp, hw.frames, hw.control⟩,
      (Allowed.restriction_apply_eq_iff host).mp (congrArg Machine.interp haf)⟩

theorem Machine.Alike.refl (m : Machine σ ν) : m.Alike host m :=
  ⟨rfl, rfl, m.references host, m.references_machine host, rfl, rfl, rfl, fun _ _ => rfl⟩

theorem Machine.Alike.apply (tame : host.Tame) (h : m.Alike host n)
    (hr : m.Rooted host) (event : Event) :
    (m.apply host event).Alike host (n.apply host event.quiet) := by
  cases event with
  | step input => exact h.step tame hr input
  | cancel =>
    obtain ⟨hf, hc, A, hm, ha⟩ := h
    refine ⟨hf, hc, A, ⟨{ hm.interp with }, hm.frames, hm.control⟩, ?_,
      ha.globals, ha.scopes, ha.get⟩
    change { n.interp with cancelled := true } = _
    rw [ha.rest]
    rfl

theorem Machine.Alike.run (tame : host.Tame) {events : List Event}
    (h : m.Alike host n) (hd : m.During host (fun m => m.Rooted host) events) :
    (m.run host events).Alike host (n.run host (events.map Event.quiet)) := by
  induction events generalizing m n with
  | nil => exact h
  | cons event events ih => exact ih (h.apply tame hd.1 event) hd.2

def Machine.KeepsUsable (host : Host Chunk σ ν) (m : Machine σ ν) : Prop :=
  ∀ a next memory, m.control = .collect a next memory → ∀ input e, m.Usable host e →
    (m.step host input).interp.heap.get e = m.interp.heap.get e

theorem Machine.Rooted.keepsUsable (hm : m.Rooted host) : m.KeepsUsable host := by
  intro a next memory hc input e he
  obtain ⟨s, hs, hst⟩ := Machine.step_collect host hc input
  rw [hst]
  exact hm.collected hc hs he

theorem Machine.rooted_of_environments
    (h : m.interp.environments = [m.interp.globals]) : m.Rooted host := by
  intro a next memory _ e he _
  rw [h, List.mem_singleton] at he
  exact .root _ (by simp [VM.collectorRoots, he])

def collections (count : Nat) : List Event := List.replicate count (.step ⟨some .empty, false⟩)

/-- `print 1` and a number. -/
def printProgram : Chunk := .ofOps [.constant (.int 1), .print, .pop, .constant (.int 2)]

/-- A closure that is stored in a slot of the root frame and called afterwards. -/
def slotClosure : Chunk :=
  .ofOps [.makeFunction "make" [] (.ofOps [.constant (.int 42), .define "secret" false, .pop,
      .makeFunction "inner" [] (.ofOps [.load "secret", .return]), .return]),
    .define "make" false, .pop, .load "make", .call 0, .define "f" false, .pop, .load "f", .call 0]

def Machine.outcome (lib : RustLibrary) (m : Machine σ ν) : Option String :=
  match m.result with
  | some (.ok (.continue value)) => some (value.display lib)
  | some (.error e) => some e.message
  | _ => none

end Nivren
