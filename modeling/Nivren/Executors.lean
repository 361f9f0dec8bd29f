import Nivren.PatchSession
import Nivren.Safety
import Nivren.Everywhere

/-! The bytecode executor and the native executor.

`run_native` drives the same instructions as `run_bytecode` and keeps books of its own. On code whose
chunks are short enough to trace, the two agree step by step as long as no `promise` is made: the
native executor never drops the promises of a chunk that has ended.
-/

namespace Nivren

open Program

variable {σ ν : Type} {host : Host Chunk σ ν}

def Interp.withNativeTasks (s : Interp Chunk σ) : Interp Chunk σ :=
  { s with spawned := s.spawned.map fun task => { task with native := true } }

/-- The interpreter as `run_native` keeps it while it runs. -/
def Interp.natively (s : Interp Chunk σ) : Interp Chunk σ :=
  { s.withNativeTasks with nativeExecutionDepth := 1 }

/-- Outside native execution, with no promise in force and nobody to cancel it. -/
def Interp.plain (s : Interp Chunk σ) : Prop :=
  s.nativeExecutionDepth = 0 ∧ s.activePromises = [] ∧ s.cancellable = false

def traceable (code : List Instruction) : Bool := code.length ≤ VM.maximumTrace

def nativeCode : Allowed := .inter fun A => A = verifiedCode ∨ A = .checked traceable

theorem nativeCode_ne_nil {c : Chunk} (hc : nativeCode.chunk c) : c.code ≠ [] := by
  obtain ⟨l, hv⟩ := hc verifiedCode (.inl rfl)
  obtain ⟨-, -, hne, -⟩ := hv.solution
  exact hne

theorem nativeCode_short {c : Chunk} (hc : nativeCode.chunk c) :
    c.code.length ≤ VM.maximumTrace := by
  have hsh : c.everywhere traceable = true := hc _ (.inr rfl)
  simpa [traceable] using (Chunk.everywhere_iff.mp hsh).1

def nativePatch (host : Host Chunk σ ν) : Patch host where
  toAllowed := nativeCode
  apply := Interp.natively
  extra := Interp.plain
  allows feature := feature ≠ .promise

instance nativePatch_lawful : (nativePatch host).Lawful where
  pushPromises h := absurd rfl h
  spawn _ task f span s hs :=
    ⟨by simp [nativePatch, Interp.natively, Interp.withNativeTasks, hs.extra.1], hs.extra⟩

theorem nativePatch_collects : (nativePatch host).Collects where

variable {chunk : Chunk} {next : Nat}

section Executor

variable {s : Interp Chunk σ} {frames : List (Frame ν)}

theorem Interp.truncate_plain (hs : s.plain) (mark : Nat) :
    { s with activePromises := s.activePromises.take mark } = s := by
  obtain ⟨-, hp, -⟩ := hs
  obtain ⟨⟩ := s
  simp_all

section Bytecode

variable (hs : s.plain)
include hs

theorem VM.exec_leaveChunk_bytecode (a : Activation) (result : Except NivError (VmFlow Chunk)) :
    exec (VM.leaveChunk a frames result : VM Chunk σ (Next σ ν)) s =
      (.ok (frames, .flow result), s) := by
  have hm : decide (0 < s.nativeExecutionDepth) = false := by simp [hs.1]
  change exec (if (!decide (0 < s.nativeExecutionDepth)) = true then _ else _) s = _
  rw [hm]
  exact congrArg (Prod.mk _) (Interp.truncate_plain hs a.promiseMark)

theorem VM.exec_finishChunk_bytecode (a : Activation) :
    exec (VM.finishChunk a frames : VM Chunk σ (Next σ ν)) s =
      (.ok (frames, .flow (.ok (.continue (a.stack.head?.getD .null)))), s) := by
  have hm : decide (0 < s.nativeExecutionDepth) = false := by simp [hs.1]
  change exec (if decide (0 < s.nativeExecutionDepth) = true then _ else _) s = _
  rw [hm]
  change exec (if (s.cancellable && s.cancelled) = true then _ else _)
    { s with activePromises := s.activePromises.take a.promiseMark } = _
  rw [Interp.truncate_plain hs, hs.2.2]
  rfl

end Bytecode

theorem VM.exec_enterChunk (hc : nativeCode.chunk chunk) :
    exec (VM.enterChunk chunk frames : VM Chunk σ (Next σ ν)) s =
      (.ok (frames, .execute ⟨chunk, 0, [], s.activePromises.length⟩), s) := by
  have hlt : ¬ VM.maximumTrace < chunk.code.length := Nat.not_lt.mpr (nativeCode_short hc)
  have hl : (chunk.code.isEmpty || decide (VM.maximumTrace < chunk.code.length)) = false := by
    rw [decide_eq_false hlt]
    simpa using nativeCode_ne_nil hc
  change exec (if (_ && (chunk.code.isEmpty || decide (VM.maximumTrace < chunk.code.length))) = true
    then _ else _) s = _
  rw [hl, Bool.and_false]
  rfl

theorem VM.exec_leaveChunk_native (hs : 0 < s.nativeExecutionDepth) (a : Activation)
    (result : Except NivError (VmFlow Chunk)) :
    exec (VM.leaveChunk a frames result : VM Chunk σ (Next σ ν)) s =
      (.ok (frames, .flow result), s) := by
  change exec (if (!decide (0 < s.nativeExecutionDepth)) = true then _ else _) s = _
  rw [decide_eq_true hs]
  rfl

theorem VM.exec_finishChunk_native (hs : 0 < s.nativeExecutionDepth) (a : Activation) :
    exec (VM.finishChunk a frames : VM Chunk σ (Next σ ν)) s =
      (.ok (frames, .flow (.ok (.continue (a.stack.head?.getD .null)))), s) := by
  change exec (if decide (0 < s.nativeExecutionDepth) = true then _ else _) s = _
  rw [decide_eq_true hs]
  rfl

theorem VM.exec_goTo {a : Activation} (hn : next ≤ a.chunk.code.length) :
    exec (VM.goTo a next frames : VM Chunk σ (Next σ ν)) s =
      (.ok (frames, .execute { a with instruction := next }), s) := by
  change exec (if (_ && decide (a.chunk.code.length < next)) = true then _ else _) s = _
  rw [decide_eq_false (Nat.not_lt.mpr hn), Bool.and_false]
  rfl

theorem nativePatch_unaware {α : Type} {program : VM Chunk σ α} {a : α} {Q : α → Prop}
    (hs : (nativePatch host).Keeps s) (hb : exec program s = (.ok a, s))
    (hn : exec program s.natively = (.ok a, s.natively)) (hQ : Q a) :
    (nativePatch host).Unaware program s Q := by
  constructor
  · change exec program s.natively = _
    rw [hn, hb]
    rfl
  · unfold Ensures
    rw [hb]
    exact ⟨hs, hQ⟩

theorem nativePatch_executor : (nativePatch host).Executor where
  enter {s chunk frames} hs hc hf :=
    nativePatch_unaware hs (VM.exec_enterChunk hc) (VM.exec_enterChunk hc)
      ⟨hf, ⟨hc, Nat.zero_le _⟩, Allowed.values_nil⟩
  leave {s a frames result} hs ha hf hr :=
    nativePatch_unaware hs (VM.exec_leaveChunk_bytecode hs.extra a result)
      (VM.exec_leaveChunk_native Nat.one_pos a result) ⟨hf, hr⟩
  finish {s a frames} hs ha hf := by
    refine nativePatch_unaware hs (VM.exec_finishChunk_bytecode hs.extra a)
      (VM.exec_finishChunk_native Nat.one_pos a) ⟨hf, Allowed.result_ok.mpr ?_⟩
    cases hst : a.stack with
    | nil => exact Value.all_null
    | cons value rest => exact ha.2 value (hst ▸ List.mem_cons_self)

theorem nativePatch_goTo {a : Activation} (hs : (nativePatch host).Keeps s)
    (ha : nativeCode.activation a) (hf : nativeCode.frames host frames)
    (hn : next ≤ a.chunk.code.length) :
    (nativePatch host).Unaware (VM.goTo a next frames) s (nativeCode.next host) :=
  nativePatch_unaware hs (VM.exec_goTo hn) (VM.exec_goTo hn) ⟨hf, ha⟩

end Executor

variable {m : Machine σ ν}

theorem Sound.target_le (hm : Sound [] anywhere m)
    (ht : m.target = some (chunk, next)) : next ≤ chunk.code.length := by
  obtain ⟨s, frames, control⟩ := m
  obtain ⟨saved, -, hfi⟩ := hm
  have hcu : ∀ a : Activation, a.current.isSome → a.instruction + 1 ≤ a.chunk.code.length := by
    intro a h
    obtain ⟨instruction, hi⟩ := Option.isSome_iff_exists.mp h
    exact (List.getElem?_eq_some_iff.mp hi).1
  unfold Machine.target at ht
  split at ht
  next a _ =>
    obtain ⟨instruction, hi, hp⟩ := Option.map_eq_some_iff.mp ht
    cases hp
    exact hcu a (by rw [hi]; rfl)
  next hc =>
    cases ht
    subst hc
    obtain ⟨l, n, outer, hr⟩ := hfi
    exact hr.verified.reaches_le hr.reaches
  next result a count rest hc hfr =>
    cases ht
    subst hc hfr
    have hwa : ∃ e, Fits [] anywhere s.heap (.operands a count :: rest) s.layout.flags saved e := by
      match result, hfi with
      | .ok (.continue _), h => exact ⟨_, h⟩
      | .ok .stop, h | .ok .skip, h => exact ⟨_, h.2⟩
      | .ok (.return _), h | .error _, h => exact h.1
    obtain ⟨e, hf⟩ := hwa
    cases hf with
    | operands hw _ _ _ => exact hcu a hw.current
  · cases ht

theorem nativePatch_admits (hm : (nativePatch host).Works m)
    (hso : Sound [] anywhere m) (hc : Feature.promise ∉ m.features) (input : VM.Input) :
    (nativePatch host).Admits input m where
  features _ hf h := hc (h ▸ hf)
  preamble _ _ _ _ _ := Patch.unaware_preamble (fun _ _ => rfl)
    (fun _ hs => ⟨rfl, hs.extra⟩) _ hm.keeps
  beginCall _ _ _ _ := Patch.unaware_beginCall (fun _ _ => rfl)
    (fun _ hs => ⟨rfl, hs.extra⟩) _ hm.keeps
  goTo hs ha hf ht := nativePatch_goTo hs ha hf (hso.target_le ht)
  collect _ _ _ _ := Patch.unaware_maybeCollect nativePatch_collects _ hm.keeps

/-- The native side of a session. A native run that has ended is outside native execution again. -/
def Session.natively : Session σ ν → Session σ ν
  | .planned code state s => .planned code state s.natively
  | .executing slots m => .executing slots { m with interp := m.interp.natively }
  | .finished result s => .finished result s.withNativeTasks
  | .panicked => .panicked

def Session.calm : Session σ ν → Prop
  | .executing _ m => Feature.promise ∉ m.features
  | _ => True

instance : DecidablePred (Session.calm : Session σ ν → Prop) := fun session => by
  cases session <;> unfold Session.calm <;> infer_instance

def Session.Ready (host : Host Chunk σ ν) : Session σ ν → Prop
  | .planned _ _ s => (nativePatch host).Keeps s ∧ verifiedCode.interp host s
  | .executing _ m =>
    (nativePatch host).Works m ∧ Sound [] anywhere m ∧ verifiedCode.machine host m
  | _ => True

def tasksPatch (host : Host Chunk σ ν) : Patch host where
  toAllowed := nativeCode
  apply := Interp.withNativeTasks
  extra _ := True
  allows _ := True

theorem tasksPatch_collects : (tasksPatch host).Collects where

section Parts

variable {s : Interp Chunk σ} (hs : (nativePatch host).Keeps s)
include hs

theorem natively_left : { s.natively with nativeExecutionDepth := 0 } = s.withNativeTasks := by
  obtain ⟨hd, -⟩ := hs.extra
  rw [Interp.natively, Interp.withNativeTasks, hd]

theorem nativePatch_beginRun (hc : nativeCode.chunk chunk) : (nativePatch host).Unaware
      (VM.beginRun chunk : VM Chunk σ (Option FastRootSlots × Next σ ν)) s fun begun =>
        ∃ mark, begun.2 = ([], .execute ⟨chunk, 0, [], mark⟩) := by
  refine (Patch.unaware_pushRootFrame s hs).bind fun slots s hs _ => ?_
  have hen : (nativePatch host).Unaware (VM.enterChunk chunk [] : VM Chunk σ (Next σ ν)) s
      fun next => ∃ mark, next = ([], .execute ⟨chunk, 0, [], mark⟩) :=
    nativePatch_unaware hs (VM.exec_enterChunk hc) (VM.exec_enterChunk hc) ⟨_, rfl⟩
  exact hen.bind fun next _ hs hn => .pure hs hn

theorem Session.interpret_natively (hve : verifiedCode.interp host s)
    (hv : Verified chunk false) (hc : nativeCode.chunk chunk) :
    (Session.interpret chunk s.natively : Session σ ν) = (Session.interpret chunk s).natively ∧
      (Session.interpret chunk s : Session σ ν).Ready host := by
  obtain ⟨hcm, hen⟩ := nativePatch_beginRun hs hc
  have hin : ∀ s : Interp Chunk σ, (Session.interpret chunk s : Session σ ν) =
      match exec (VM.beginRun chunk : VM Chunk σ (Option FastRootSlots × Next σ ν)) s with
      | (.ok (slots, frames, control), s) => .executing slots ⟨s, frames, control⟩
      | (.error _, _) => .panicked := fun _ => rfl
  have hn : exec (VM.beginRun chunk : VM Chunk σ (Option FastRootSlots × Next σ ν))
      s.natively = _ := hcm
  have hco := ((Patch.unaware_beginRun Allowed.patch_unnoticed.executor ⟨false, hv⟩ :
    (verifiedCode.patch host).Oblivious
      (VM.beginRun chunk : VM Chunk σ (Option FastRootSlots × Next σ ν)) _) s ⟨hve, trivial⟩).ensures
  unfold Ensures at hen hco
  rw [hin, hin, hn]
  rcases hr : exec (VM.beginRun chunk : VM Chunk σ (Option FastRootSlots × Next σ ν)) s with
    ⟨failure | ⟨slots, next⟩, s'⟩
  · exact ⟨rfl, trivial⟩
  · rw [hr] at hen hco
    obtain ⟨hke, mark, hne⟩ := hen
    obtain ⟨hit, hf, hcn⟩ := hco
    subst hne
    exact ⟨rfl, ⟨hke, Allowed.frames_nil, ⟨hc, Nat.zero_le _⟩, Allowed.values_nil⟩, Sound.start hv,
      hit.interp, hf, hcn⟩

omit hs in
/-- Both sides end alike: the first part of the end can only panic, and after it native execution
is over. -/
theorem Session.conclude_natively {α : Type} {Q : α → Prop} {program : VM Chunk σ α}
    {rest : α → VM Chunk σ (Value Chunk)} (h : (nativePatch host).Unaware program s Q)
    (hp : Ensures program s (fun _ _ => True) fun failure _ => failure = .panic)
    (hre : ∀ a s', nativeCode.interp host s' → (tasksPatch host).Unaware (rest a) s' fun _ => True) :
    (Session.conclude (do
        let a ← program
        VM.setNativeDepth true 0
        rest a) s.natively : Session σ ν) =
      (Session.conclude (do
        let a ← program
        VM.setNativeDepth false 0
        rest a) s).natively := by
  obtain ⟨hc, hen⟩ := h
  have hn : exec program s.natively = _ := hc
  unfold Ensures at hen hp
  rw [conclude_bind, conclude_bind, hn]
  rcases hr : exec program s with ⟨failure | a, s'⟩
  all_goals rw [hr] at hen hp
  · cases hp
    rfl
  · have hke : (nativePatch host).Keeps s' := hen.1
    have hta : exec (rest a) s'.withNativeTasks = _ := (hre a s' hke.interp).commutes
    have hl : (conclude (VM.setNativeDepth true 0 >>= fun _ => rest a) s'.natively :
        Session σ ν) = outcome (exec (rest a) s'.withNativeTasks) := by
      rw [← natively_left hke]
      rfl
    have hri : (conclude (VM.setNativeDepth false 0 >>= fun _ => rest a) s' : Session σ ν) =
        outcome (exec (rest a) s') := rfl
    refine hl.trans (Eq.trans ?_ (congrArg Session.natively hri.symm))
    rw [hta]
    rcases exec (rest a) s' with ⟨(e | _) | a, s''⟩ <;> rfl

end Parts

class VM.ErrorFree {α : Type} (program : VM Chunk σ α) : Prop where
  ensures : ∀ s, Ensures program s (fun _ _ => True) fun failure _ => failure = .panic

namespace VM.ErrorFree

variable {α β : Type}

instance (a : α) : ErrorFree (pure a : VM Chunk σ α) := ⟨fun _ => trivial⟩

instance : ErrorFree (throw .panic : VM Chunk σ α) := ⟨fun _ => rfl⟩

instance (f : Interp Chunk σ → α) : ErrorFree (VM.read f) := ⟨fun _ => trivial⟩

instance (f : Interp Chunk σ → Interp Chunk σ) : ErrorFree (VM.write f) := ⟨fun _ => trivial⟩

variable {m : VM Chunk σ α} {rest : α → VM Chunk σ β} [h : ErrorFree m]

theorem bind (hr : ∀ a, ErrorFree (rest a)) : ErrorFree (m >>= rest) := by
  constructor
  intro s
  exact (h.ensures s).bind fun a s' _ => (hr a).ensures s'

instance [hr : ∀ a, ErrorFree (rest a)] : ErrorFree (m >>= rest) := bind hr

instance (sites : List Nat) : ErrorFree (VM.materializeShapes chunk sites : VM Chunk σ Unit) := by
  induction sites with
  | nil => exact inferInstanceAs (ErrorFree (pure () : VM Chunk σ Unit))
  | cons site rest ih =>
    unfold VM.materializeShapes
    dsimp only
    split <;> infer_instance

instance (sites : List Nat) :
    ErrorFree (VM.materializeFunctions chunk sites : VM Chunk σ Unit) := by
  induction sites with
  | nil => exact inferInstanceAs (ErrorFree (pure () : VM Chunk σ Unit))
  | cons site rest ih =>
    unfold VM.materializeFunctions
    dsimp only
    split <;> infer_instance

variable {slots : List Int}

instance (persistent : List PersistentSlot) :
    ErrorFree (VM.materializeSlots slots persistent : VM Chunk σ Unit) := by
  induction persistent with
  | nil => exact inferInstanceAs (ErrorFree (pure () : VM Chunk σ Unit))
  | cons entry rest ih =>
    unfold VM.materializeSlots
    dsimp only
    split <;> infer_instance

instance {code : RootCode} {value : Int} :
    ErrorFree (VM.finishRootNative host chunk code value slots) := by
  unfold VM.finishRootNative
  split <;> infer_instance

instance {slots : Option FastRootSlots} : ErrorFree (VM.leaveRoot slots : VM Chunk σ Unit) := by
  cases slots with
  | none => exact inferInstanceAs (ErrorFree (pure () : VM Chunk σ Unit))
  | some slots =>
    refine bind (m := VM.topFrame) fun top => ?_
    split <;> infer_instance

end VM.ErrorFree

namespace Session

theorem ready_conclude (program : VM Chunk σ (Value Chunk)) (s : Interp Chunk σ) :
    (conclude program s).Ready host := by
  unfold conclude
  rcases exec program s with ⟨(e | _) | value, s'⟩ <;> trivial

variable {s : Interp Chunk σ}

theorem tasksPatch_finish (hs : nativeCode.interp host s)
    {report : MarkerReport} {result : Except NivError (VmFlow Chunk)} :
    (tasksPatch host).Unaware (do
      let flow ← VM.liftError result
      VM.collect host report []
      VM.topLevelValue flow) s fun _ => True := by
  refine ((Patch.unaware_liftError fun _ _ => trivial :
    (tasksPatch host).Oblivious _ fun _ => True).bind fun flow _ => ?_) s ⟨hs, trivial⟩
  exact (Patch.unaware_collect tasksPatch_collects).seq (Patch.unaware_topLevelValue flow)

variable {session : Session σ ν}

theorem step_natively (tame : host.Tame) (hv : Verified chunk false)
    (hc : nativeCode.chunk chunk) (hr : session.Ready host)
    (hca : session.calm) (input : VM.Input) :
    session.natively.step host true chunk input = (session.step host false chunk input).natively ∧
      (session.step host false chunk input).Ready host := by
  match session, hr with
  | .planned code (.running frame callers) s, hr => exact ⟨rfl, hr⟩
  | .planned code (.fault error) s, hr => exact interpret_natively hr.1 hr.2 hv hc
  | .planned code (.returned value slots) s, hr =>
    refine ⟨?_, ready_conclude _ _⟩
    refine conclude_natively (Patch.unaware_finishRootNative hc _ hr.1)
      (VM.ErrorFree.ensures s) fun value s' hs' => ?_
    exact ((Patch.unaware_collect tasksPatch_collects).bind fun _ h => .pure h) s' ⟨hs', trivial⟩
  | .executing slots m, hr =>
    obtain ⟨hw, hso, hve⟩ := hr
    cases hre : m.result with
    | none =>
      have hn : (Session.executing slots m).natively.step host true chunk input =
          .executing slots (((nativePatch host).onMachine m).step host input) := by
        have h : ({ m with interp := m.interp.natively } : Machine σ ν).result = none := hre
        simp only [natively, step, h]
        rfl
      have hb : (Session.executing slots m).step host false chunk input =
          .executing slots (m.step host input) := by
        simp only [step, hre]
      obtain ⟨hst, hwo⟩ := Patch.step_onMachine nativePatch_executor tame
        hw (nativePatch_admits hw hso hca input)
      have hne := Sound.apply tame ⟨hso, hve⟩ (.step input)
      rw [hn, hb, hst]
      exact ⟨rfl, hwo, hne⟩
    | some result =>
      have hn : (Session.executing slots m).natively.step host true chunk input =
          conclude (VM.finishRun host true slots (input.trigger.getD .empty) result)
            m.interp.natively := by
        have h : ({ m with interp := m.interp.natively } : Machine σ ν).result = some result := hre
        simp only [natively, step, h]
      have hb : (Session.executing slots m).step host false chunk input =
          conclude (VM.finishRun host false slots (input.trigger.getD .empty) result) m.interp := by
        simp only [step, hre]
      rw [hn, hb]
      refine ⟨?_, ready_conclude _ _⟩
      exact conclude_natively (Patch.unaware_leaveRoot _ hw.keeps)
        (VM.ErrorFree.ensures m.interp) fun _ s' hs' => tasksPatch_finish hs'
  | .finished result s, _ => exact ⟨rfl, trivial⟩
  | .panicked, _ => exact ⟨rfl, trivial⟩

theorem apply_natively (tame : host.Tame) (hv : Verified chunk false)
    (hc : nativeCode.chunk chunk) (hr : session.Ready host)
    (hca : session.calm) (event : Event) :
    session.natively.apply host true chunk event = (session.apply host false chunk event).natively ∧
      (session.apply host false chunk event).Ready host := by
  cases event with
  | step input => exact step_natively tame hv hc hr hca input
  | cancel =>
    match session, hr with
    | .planned code state s, ⟨hke, hve⟩ =>
      exact ⟨rfl, ⟨{ hke.interp with }, hke.extra⟩, { hve with }⟩
    | .executing slots m, ⟨hw, hso, hve⟩ =>
      have hn := Sound.apply tame ⟨hso, hve⟩ .cancel
      exact ⟨rfl, ⟨⟨{ hw.keeps.interp with }, hw.keeps.extra⟩, hw.frames, hw.control⟩, hn⟩
    | .finished result s, _ => exact ⟨rfl, trivial⟩
    | .panicked, _ => exact ⟨rfl, trivial⟩

theorem run_natively (tame : host.Tame) (hv : Verified chunk false)
    (hc : nativeCode.chunk chunk) {events : List Event}
    (hr : session.Ready host) (hca : session.During host false chunk calm events) :
    session.natively.run host true chunk events =
      (session.run host false chunk events).natively := by
  induction events generalizing session with
  | nil => rfl
  | cons event events ih =>
    obtain ⟨hst, hre⟩ := apply_natively tame hv hc hr hca.1 event
    have hrs := ih hre hca.2
    rw [← hst] at hrs
    exact hrs

theorem start_natively (hs : (nativePatch host).Keeps s)
    (hve : verifiedCode.interp host s) (hsp : s.spawned = [])
    (hv : verify chunk = .ok ()) (hc : nativeCode.chunk chunk) :
    (start true s chunk : Session σ ν) = (start false s chunk).natively ∧
      (start false s chunk : Session σ ν).Ready host := by
  have hd : s.nativeExecutionDepth = 0 := hs.extra.1
  have hen : { s with nativeExecutionDepth := 1 } = s.natively := by
    rw [Interp.natively, Interp.withNativeTasks, hsp, List.map_nil, ← hsp]
  have hby : (start false s chunk : Session σ ν) = begin chunk s := by
    simp only [start, hv, Bool.false_eq_true, if_false]
  have hn : (start true s chunk : Session σ ν) = begin chunk s.natively := by
    simp only [start, hv, hd, ne_eq, not_true_eq_false, if_false, if_true, hen]
  have htry : ∃ found, exec (VM.tryRootNative chunk) s = (.ok found, s) := ⟨_, rfl⟩
  have hb : ∀ s : Interp Chunk σ, (begin chunk s : Session σ ν) =
      match exec (VM.tryRootNative chunk) s with
      | (.ok (some code), s) => .planned code code.enter s
      | (.ok none, s) => interpret chunk s
      | (.error _, _) => .panicked := fun _ => rfl
  have hco : exec (VM.tryRootNative chunk) s.natively = _ :=
    (Patch.unaware_tryRootNative s hs).commutes
  obtain ⟨found, hf⟩ := htry
  rw [hn, hby, hb, hb, hco, hf]
  cases found with
  | none => exact interpret_natively hs hve hv hc
  | some code => exact ⟨rfl, hs, hve⟩

end Session

/-- As a new interpreter, whatever it has been granted: outside native execution, with no promise
in force, nobody to cancel it and no task started. -/
def Interp.fresh (s : Interp Chunk σ) : Prop := s.plain ∧ s.spawned = []

def readFile : NativeFunction := ⟨0, "read", 0, some "files", none⟩

def fileInterpreter : Interp Chunk Unit :=
  { (Host.bare [("read", ⟨.native readFile, false⟩)]).interpreter () with
    capabilities := some ["files"] }

def renounceFirst : Chunk :=
  .ofOps [.makeFunction "quiet" [] (.ofOps [.promise [⟨"files", true, [], ⟨1, 1⟩⟩],
      .constant .null, .return]),
    .call 0, .pop, .load "read", .performCall 0]

def Session.effects : Session σ ν → List EffectEvent
  | .planned _ _ s | .finished _ s => s.effects
  | .executing _ m => m.interp.effects
  | .panicked => []

def Session.succeeded : Session σ ν → Option Bool
  | .finished (.ok _) _ => some true
  | .finished (.error _) _ => some false
  | _ => none

end Nivren
