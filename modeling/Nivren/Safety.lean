import Nivren.SoundStep
import Nivren.BareHost

/-! Bytecode the verifier accepts is safe to run, from any interpreter whose closures come from
verified code and whatever the natives answer. -/

namespace Nivren

open Program

variable {σ ν : Type} {host : Host Chunk σ ν} {F : List (Frame ν)} {Base : Env → Prop}

theorem nested_context {op : Op} {l : Bool} {p : Chunk × Bool} (h : p ∈ nested op l) (l' : Bool) :
    ∃ l'', (p.1, l'') ∈ nested op l' := by
  cases op
  case ifCarries patterns thenBranch elseBranch =>
    refine ⟨l', ?_⟩
    simp only [nested, List.mem_cons, List.mem_map] at h ⊢
    rcases h with rfl | ⟨c, hc, rfl⟩
    · exact .inl rfl
    · exact .inr ⟨c, hc, rfl⟩
  all_goals exact ⟨p.2, h⟩

/-- Everything has passed the verifier. -/
def verifiedCode : Allowed where
  chunk c := ∃ l, Verified c l
  body c := Verified c false
  scope _ := True
  chunk_of_body h := ⟨false, h⟩
  nested := by
    rintro c i p l ⟨l', hv⟩ hi hp
    obtain ⟨l'', hn⟩ := nested_context hp l'
    exact ⟨l'', hv.nested hi hn⟩
  makeFunction := by
    rintro c name params b span ⟨l, hv⟩ hi
    exact hv.nested hi (by simp [nested])

variable {m : Machine σ ν}

theorem Machine.step_ensures {input : VM.Input}
    {Q : Next σ ν → Interp Chunk σ → Prop} {R : Failure → Interp Chunk σ → Prop}
    (h : Ensures (VM.step host input m.frames m.control) m.interp Q R) :
    Q ((m.step host input).frames, (m.step host input).control) (m.step host input).interp ∨
      (m.step host input).control = .panic ∧ ∃ failure, R failure (m.step host input).interp := by
  have hst : m.step host input =
      match exec (VM.step host input m.frames m.control) m.interp with
      | (.ok (frames, control), interp) => ⟨interp, frames, control⟩
      | (.error _, interp) => ⟨interp, m.frames, .panic⟩ := rfl
  unfold Ensures at h
  rw [hst]
  rcases hr : exec (VM.step host input m.frames m.control) m.interp with ⟨failure | next, s⟩
  all_goals rw [hr] at h
  · exact .inr ⟨rfl, failure, h⟩
  · exact .inl h

theorem Sound.step (hm : Sound F Base m) (hc : verifiedCode.machine host m)
    (hF : ∀ result, m.control = .flow result → m.frames = F → F = [])
    (het : ∀ a rest, VM.Exits m.frames m.control a rest → VM.ExitFits F Base m.interp a rest)
    (input : VM.Input) : Sound F Base (m.step host input) := by
  have hv : ∀ f arguments span, m.control = .call (.function f) arguments span →
      Verified f.body false := by
    intro f arguments span h
    have hco := hc.control
    rw [h] at hco
    exact (Value.all_function.mp hco.1).1
  have h : VM.Steps F Base (VM.step host input m.frames m.control) m.interp :=
    VM.steps_step hm hF hv het
  exact (Machine.step_ensures h).resolve_right fun ⟨_, _, h⟩ => h

abbrev anywhere (_ : Env) : Prop := True

theorem Sound.apply (tame : host.Tame)
    (hm : Sound [] anywhere m ∧ verifiedCode.machine host m) (event : Event) :
    Sound [] anywhere (m.apply host event) ∧ verifiedCode.machine host (m.apply host event) := by
  refine ⟨?_, hm.2.apply tame event⟩
  cases event with
  | step input =>
    exact hm.1.step hm.2 (fun _ _ _ => rfl)
      (fun a rest _ l n height outer saved _ _ ha hf => hf.deepen (fun _ _ => trivial) ha) input
  | cancel => exact hm.1

theorem Allowed.interpreter {A : Allowed} {world : σ} (hsc : ∀ e, A.scope e)
    (hf : A.floor = 0) (hp : ∀ entry ∈ host.prelude, A.value entry.2.value) (hw : A.world host world) :
    A.interp host (host.interpreter world) where
  heap := by
    refine ⟨fun e _ entry hm => ?_, fun e _ p _ => hsc p, fun i _ => hsc _⟩
    cases e with
    | scope i => cases hm
    | globals i =>
      cases i with
      | zero => exact hp entry hm
      | succ i => cases hm
  globals := hsc _
  environment := hsc _
  roots := nofun
  fast := nofun
  dispatch := nofun
  stored := hw
  promises := hf ▸ Nat.zero_le _
  spawned := nofun

/-- The start of a run of `execute_chunk`. -/
def Machine.start (s : Interp Chunk σ) (chunk : Chunk) : Machine σ ν :=
  ⟨s, [], .execute ⟨chunk, 0, [], s.activePromises.length⟩⟩

variable {s : Interp Chunk σ}

theorem Sound.start {chunk : Chunk} {mark : Nat} (hv : Verified chunk false) :
    Sound [] anywhere (⟨s, [], .execute ⟨chunk, 0, [], mark⟩⟩ : Machine σ ν) := by
  refine ⟨[], List.nil_sublist _, false, 0, s.environment, hv, ⟨nofun, trivial⟩, hv.reaches_zero,
    ?_, .base trivial⟩
  rw [opened_zero]
  rfl

theorem Sound.reaches (tame : host.Tame) {chunk : Chunk}
    (hv : Verified chunk false) (hs : verifiedCode.interp host s)
    (h : (Machine.start s chunk).Reaches host m) :
    Sound [] anywhere m ∧ verifiedCode.machine host m :=
  h.invariant (P := fun m => Sound [] anywhere m ∧ verifiedCode.machine host m)
    (fun _ event hm => Sound.apply tame hm event) ⟨.start hv, hs, Allowed.frames_nil,
      ⟨⟨false, hv⟩, Nat.zero_le _⟩, Allowed.values_nil⟩

/-- An activation is where the verifier has foreseen it: inside its chunk or at its end, at the
recorded height, with the operands its instruction takes and a parent for the scope it leaves. -/
structure Activation.Foreseen (s : Interp Chunk σ) (a : Activation) : Prop where
  inside : a.instruction ≤ a.chunk.code.length
  result : a.instruction = a.chunk.code.length → 1 ≤ a.stack.length
  height : a.instruction < a.chunk.code.length →
    ∃ scopes, depthAt a.chunk a.instruction = some ⟨a.stack.length, scopes⟩
  operands : ∀ op span, a.current = some ⟨op, span⟩ → stackPops op ≤ a.stack.length
  parent : ∀ span, a.current = some ⟨.exitScope, span⟩ →
    (s.fastFrames.head?.any fun frame => frame.plan.isSome) = false →
    ∃ p, (s.heap.get s.environment).parent = some p

/-- Nothing has gone wrong: no Rust panic, the running activation is where it should be, and no loop
exit has left the outermost chunk. -/
structure Machine.Safe (m : Machine σ ν) : Prop where
  noPanic : m.control ≠ .panic
  foreseen : ∀ a, m.control = .execute a → a.Foreseen m.interp
  noEscape : ∀ flow, m.result = some (.ok flow) → flow ≠ .stop ∧ flow ≠ .skip

theorem Running.foreseen {frames : List (Frame ν)} {saved : List Env}
    {a : Activation} {l : Bool} {n : Nat} {outer : Env}
    (hr : Running F Base s.layout frames saved a.chunk l a.instruction a.stack.length n outer) :
    a.Foreseen s where
  inside := hr.verified.reaches_le hr.reaches
  result h := by
    have hend : a.chunk.code[a.instruction]? = none := by simp [h]
    have := (hr.verified.reaches_end hr.reaches hend).1
    simp only at this
    omega
  height h := ⟨n, Verified.depthAt_of_reaches hr.reaches h⟩
  operands op span hc := by
    have := (hr.verified.reaches_step hr.reaches hc).1
    simp only at this
    omega
  parent span hc hpl := by
    have hd := (hr.verified.reaches_step hr.reaches hc).2.2.1
    simp only [scopeEffect] at hd
    obtain ⟨k, rfl⟩ : ∃ k, n = k + 1 := ⟨n - 1, by omega⟩
    have hsc := hr.scope
    have hf : s.layout.flags.head? ≠ some true := by
      intro h
      rw [Interp.layout, List.head?_map] at h
      obtain ⟨frame, hfr, hso⟩ := Option.map_eq_some_iff.mp h
      simp [hfr, hso] at hpl
    rw [opened, if_neg hf] at hsc
    obtain ⟨p, hp, -⟩ := hsc
    exact ⟨p, hp⟩

theorem Sound.safe (hm : Sound [] anywhere m) : m.Safe := by
  obtain ⟨saved, hs, hc⟩ := hm
  refine ⟨fun h => ?_, fun a h => ?_, fun flow h => ?_⟩
  · simp only [h] at hc
    exact hc
  · simp only [h] at hc
    obtain ⟨l, n, outer, hr⟩ := hc
    exact hr.foreseen
  · unfold Machine.result at h
    split at h
    next hf hco =>
      cases h
      simp only [hf, hco] at hc
      exact ⟨fun h => by subst h; exact hc.1, fun h => by subst h; exact hc.1⟩
    · cases h

def callProgram : Chunk :=
  .ofOps [.makeFunction "outer" [] (.ofOps [.makeFunction "inner" [] (.ofOps [.constant (.int 1),
    .return]), .call 0, .return]), .call 0]

def steps (count : Nat) : List Event := List.replicate count (.step ⟨none, false⟩)

def bareStart (chunk : Chunk) : Machine Unit Unit :=
  Machine.start ((Host.bare []).interpreter ()) chunk

theorem bare_verified : verifiedCode.interp (Host.bare []) ((Host.bare []).interpreter ()) :=
  Allowed.interpreter (fun _ => trivial) rfl nofun nofun

end Nivren
