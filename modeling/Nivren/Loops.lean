import Nivren.Safety

/-! Which loops leave the environment as they found it.

`execute_bytecode_repeat` does not restore the current scope after a `stop` or a `skip`, although
`execute_bytecode_iteration` does. A loop exit inside a block of the body therefore leaves that
block's scope current, unless a branch that restores its own scope lies between.
-/

namespace Nivren

open Program

variable {σ ν : Type} {host : Host Chunk σ ν} {F frames : List (Frame ν)} {Base : Env → Prop}

/-- Among the first frames there is one that restores its scope before the loop sees the exit. -/
def absorbs : Nat → List (Frame ν) → Bool
  | _ + 1, .iteration .. :: _ | _ + 1, .carriesThen _ :: _ => true
  | count + 1, .carriesElse :: rest | count + 1, .activation _ :: rest => absorbs count rest
  | _, _ => false

namespace Fits

variable {h : Heap Chunk} {flags : List Bool} {saved : List Env} {e : Env}

theorem length_le (hf : Fits F Base h frames flags saved e) : F.length ≤ frames.length := by
  induction hf with
  | base => exact Nat.le_refl _
  | activation _ _ _ _ ih | operands _ _ _ _ ih | function _ ih | native _ _ ih | guard _ _ _ ih
  | arm _ ih | module _ ih | advance _ _ ih | iteration _ _ ih | repeatCondition _ _ _ _ ih
  | repeatBody _ _ _ _ ih | carriesThen _ ih | carriesElse _ ih | sample _ ih | «using» _ ih =>
    exact Nat.le_succ_of_le ih

theorem base_of_bottom (hf : Fits F Base h frames flags saved e)
    (hl : frames.length = F.length) : Base e := by
  cases hf with
  | base hb => exact hb
  | activation _ _ _ hf | operands _ _ _ hf | function hf | native _ hf | guard _ _ hf | arm hf
  | module hf | advance _ hf | iteration _ hf | repeatCondition _ _ _ hf | repeatBody _ _ _ hf
  | carriesThen hf | carriesElse hf | sample hf | «using» hf =>
    have := hf.length_le
    rw [List.length_cons] at hl
    omega

theorem absorb (hf : Fits F Base h frames flags saved e)
    (ha : absorbs (frames.length - F.length) frames) {k : Nat} {d : Env}
    (hd : Ancestor h k d e) : Fits F Base h frames flags saved d := by
  induction hf generalizing k d with
  | base => simp [absorbs] at ha
  | activation hw hh hn hf ih =>
    rw [List.length_cons, Nat.succ_sub hf.length_le, absorbs] at ha
    obtain ⟨e₁, h₁, h₂⟩ := (Nat.add_comm k _ ▸ hd.add hn).split
    exact .activation hw hh h₁ (ih ha h₂)
  | carriesElse hf ih =>
    rw [List.length_cons, Nat.succ_sub hf.length_le, absorbs] at ha
    exact .carriesElse (ih ha hd)
  | iteration hl hf => exact .iteration hl hf
  | carriesThen hf => exact .carriesThen hf
  | operands _ _ _ hf | function hf | native _ hf | guard _ _ hf | arm hf | module hf
  | advance _ hf | repeatCondition _ _ _ hf | repeatBody _ _ _ hf | sample hf | «using» hf =>
    rw [List.length_cons, Nat.succ_sub hf.length_le, absorbs] at ha
    · cases ha
    all_goals nofun

end Fits

/-- A result is handed to the frames that were there when `height` frames were waiting. -/
def Machine.ended (height : Nat) (m : Machine σ ν) : Bool :=
  m.frames.length == height && m.control matches .flow _

/-- The activation that a loop exit is about to leave, and the frames below it. -/
def Machine.exiting (m : Machine σ ν) : Option (Activation × List (Frame ν)) :=
  match m.control, m.frames with
  | .execute a, frames =>
    match a.current with
    | some ⟨.loopExit _, _⟩ => some (a, frames)
    | _ => none
  | .flow (.ok .stop), .activation a :: rest | .flow (.ok .skip), .activation a :: rest =>
    match a.current with
    | some ⟨.ifCarries .., _⟩ => some (a, rest)
    | _ => none
  | _, _ => none

/-- A loop exit that happens now leaves no block open, or is absorbed above the lowest frames. -/
def Machine.exitsCleanly (height : Nat) (m : Machine σ ν) : Bool :=
  match m.exiting with
  | none => true
  | some (a, rest) =>
    absorbs (rest.length - height) rest ||
      (depthAt a.chunk a.instruction).all fun d => d.scopes == 0

variable {rest : List (Frame ν)} {a : Activation} {m : Machine σ ν}

theorem Machine.exiting_of_exits
    (h : VM.Exits m.frames m.control a rest) : m.exiting = some (a, rest) := by
  obtain ⟨s, frames, control⟩ := m
  cases h with
  | own hc => simp only [exiting, hc]
  | passed hf hc => rcases hf with rfl | rfl <;> simp only [exiting, hc]

theorem VM.Exits.inside {control : Control σ ν}
    (h : VM.Exits frames control a rest) : a.instruction < a.chunk.code.length := by
  cases h with
  | own hc | passed _ hc => exact (List.getElem?_eq_some_iff.mp hc).1

theorem exitFits_of_exitsCleanly (hm : m.exitsCleanly F.length)
    (he : VM.Exits m.frames m.control a rest) :
    VM.ExitFits F Base m.interp a rest := by
  intro l n height outer saved hv hr hsc hf
  rw [Machine.exitsCleanly, Machine.exiting_of_exits he, Bool.or_eq_true] at hm
  rcases hm with ha | hn
  · exact hf.absorb ha hsc
  · rw [Verified.depthAt_of_reaches hr he.inside] at hn
    simp only [Option.all_some, beq_iff_eq, Int.natCast_eq_zero] at hn
    subst hn
    rw [opened_zero] at hsc
    cases hsc
    exact hf

theorem Sound.during (tame : host.Tame) {events : List Event}
    (hm : Sound F Base m) (hc : verifiedCode.machine host m)
    (hd : m.During host (fun m => ¬ m.ended F.length ∧ m.exitsCleanly F.length) events) :
    Sound F Base (m.run host events) := by
  refine (hd.invariant (I := fun m => Sound F Base m ∧ verifiedCode.machine host m)
    (fun m event hm hp => ⟨?_, hm.2.apply tame event⟩) ⟨hm, hc⟩).1
  cases event with
  | step input =>
    refine hm.1.step hm.2 (fun result hr hf => absurd ?_ hp.1)
      (fun a rest he => exitFits_of_exitsCleanly hp.2 he) input
    simp [Machine.ended, hr, hf]
  | cancel => exact hm.1

theorem ensures_startRepeat (host : Host Chunk σ ν) (frames : List (Frame ν))
    {condition body : Chunk} {span : Span}
    (hc : a.current = some ⟨.repeat condition body, span⟩) (input : VM.Input)
    (s : Interp Chunk σ) :
    Ensures (VM.step host input frames (.execute a)) s
      (fun next s' => ∀ last, next.2 = .repeat condition body last span →
        next.1 = .activation a :: frames ∧ s'.environment = s.environment) fun _ _ => True := by
  simp only [VM.step, VM.executeStep, hc]
  rw [Program.ensures_bind, VM.ensures_attempt, ensures_seqRight]
  refine (VM.Calm.calm s).mono (fun _ s' hk => ?_) fun failure s' hk => ?_
  · exact fun _ _ => ⟨rfl, hk.environment⟩
  · cases failure with
    | panic => trivial
    | error e =>
      simp only [VM.leaveChunk, VM.nativeMode, VM.truncatePromises, Program.ensures_bind,
        ensures_read]
      split <;> exact fun _ h => by cases h

/-- A loop that finishes normally leaves the environment as it found it when every `stop` and `skip`
on the way leaves no block open. -/
theorem repeat_keeps_environment (tame : host.Tame) (chunk : Chunk)
    (hv : verify chunk = .ok ()) {s : Interp Chunk σ} (hs : verifiedCode.interp host s)
    {m : Machine σ ν} (hreach : (Machine.start s chunk).Reaches host m) {a : Activation}
    {condition body : Chunk} {span : Span} (ha : m.control = .execute a)
    (hop : a.current = some ⟨.repeat condition body, span⟩) {input : VM.Input}
    (hstart : (m.step host input).control = .repeat condition body .null span)
    {events : List Event}
    (hclean : (m.step host input).During host
      (fun m' => ¬ m'.ended (m.frames.length + 1) ∧ m'.exitsCleanly (m.frames.length + 1)) events)
    (hheight : ((m.step host input).run host events).frames.length = m.frames.length + 1)
    {value : Value Chunk}
    (hend : ((m.step host input).run host events).control = .flow (.ok (.continue value))) :
    ((m.step host input).run host events).interp.environment = m.interp.environment := by
  obtain ⟨hsound, hcode⟩ := Sound.reaches tame hv hs hreach
  have hstep := ensures_startRepeat host m.frames hop input m.interp
  rw [← ha] at hstep
  obtain ⟨hframes₁, henvironment⟩ : (m.step host input).frames = .activation a :: m.frames ∧
      (m.step host input).interp.environment = m.interp.environment := by
    rcases Machine.step_ensures hstep with h | ⟨h, -⟩
    · exact h .null hstart
    · rw [hstart] at h
      cases h
  obtain ⟨hverified, hunwinds⟩ : (Verified condition false ∧ Verified body true) ∧
      Unwinds m.frames := by
    obtain ⟨saved, -, hfits⟩ := hsound
    rw [ha] at hfits
    obtain ⟨l, n, outer, hr⟩ := hfits
    have hmem : ⟨.repeat condition body, span⟩ ∈ a.chunk.code := List.mem_of_getElem? hop
    exact ⟨⟨hr.verified.nested hmem (by simp [nested]), hr.verified.nested hmem (by simp [nested])⟩,
      hr.hosts.unwinds⟩
  -- from here on the frames are described down to the waiting activation only
  have hloop : Sound (.activation a :: m.frames) (· = m.interp.environment)
      (m.step host input) := by
    refine ⟨[], List.nil_sublist _, ?_⟩
    rw [hstart, hframes₁]
    exact ⟨hverified.1, hverified.2, hunwinds, .base henvironment⟩
  obtain ⟨saved, -, hfits⟩ := hloop.during tame (hcode.step tame input) hclean
  have hbottom : FramesFit (.activation a :: m.frames) (· = m.interp.environment)
      ((m.step host input).run host events).interp.layout
      ((m.step host input).run host events).frames saved := by
    rwa [hend] at hfits
  exact hbottom.base_of_bottom (by simpa using hheight)

/-- `repeat while yes { stop }` without a block. -/
def cleanLoop : Chunk := .ofOps [.repeat (.ofOps [.constant (.bool true)]) (.ofOps [.loopExit false])]

theorem repeat_keeps_environment_clean :
    verify cleanLoop = .ok () ∧
      (((bareStart cleanLoop).step (Host.bare []) ⟨none, false⟩).run (Host.bare [])
        (steps 8)).interp.environment = (bareStart cleanLoop).interp.environment :=
  ⟨by decide, repeat_keeps_environment (Host.bare_tame []) cleanLoop (by decide)
    bare_verified ⟨[], rfl⟩ rfl rfl rfl (by decide) (by decide) rfl⟩

/-- The bytecode of `repeat while yes { create a = 1; stop }`: the body is a block. -/
def leakyLoop : Chunk :=
  .ofOps [.repeat (.ofOps [.constant (.bool true)]) (.ofOps [.enterScope, .constant (.int 1),
    .define "a" false, .pop, .loopExit false, .exitScope])]

/-- The loop has ended normally, but the scope of its block is still current and its name is still
declared. -/
theorem repeat_leaks_environment :
    verify leakyLoop = .ok () ∧
      ((bareStart leakyLoop).control matches .execute ⟨⟨_, [⟨.repeat _ _, _⟩]⟩, 0, [], _⟩) ∧
      (((bareStart leakyLoop).run (Host.bare []) (steps 21)).frames matches [.activation _]) ∧
      (((bareStart leakyLoop).run (Host.bare []) (steps 21)).control matches
        .flow (.ok (.continue _))) ∧
      ((bareStart leakyLoop).run (Host.bare []) (steps 21)).interp.environment ≠
        (bareStart leakyLoop).interp.environment ∧
      (((bareStart leakyLoop).run (Host.bare []) (steps 21)).interp.heap.lookup
        ((bareStart leakyLoop).run (Host.bare []) (steps 21)).interp.environment "a").isSome := by
  decide

end Nivren
