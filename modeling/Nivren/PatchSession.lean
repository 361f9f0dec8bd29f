import Nivren.Session
import Nivren.Preserve

/-! A patch the machine does not notice goes unnoticed by what `run_bytecode` and `run_native` do
before and after the machine runs. -/

namespace Nivren

open Program

variable {σ ν : Type} {host : Host Chunk σ ν}

namespace Patch

variable {p : Patch host} [hp : p.Lawful]

theorem unaware_declares : p.Oblivious VM.declares fun _ => True := by
  have hr : p.Reads fun s name => ((s.heap.get s.environment).values.lookup name).isSome :=
    fun s hs => funext fun name => hp.declared name s hs
  exact hr.read

variable {chunk : Chunk}

theorem unaware_tryRootNative : p.Oblivious (VM.tryRootNative chunk) fun _ => True := by
  refine hp.jitThreshold.read.bind fun threshold _ => ?_
  refine hp.watched.read.bind fun watched _ => ?_
  refine unaware_declares.bind fun declared _ => ?_
  refine hp.maxCallDepth.read.bind fun limit _ => ?_
  exact .pure trivial

theorem unaware_materializeShapes (sites : List Nat) :
    p.Oblivious (VM.materializeShapes chunk sites) fun _ => True := by
  induction sites with
  | nil => exact .pure trivial
  | cons site rest ih =>
    unfold VM.materializeShapes
    split
    · refine hp.catalog.read.bind fun catalog _ => ?_
      refine hp.choices.read.bind fun choices _ => ?_
      refine unaware_fresh.bind fun id _ => ?_
      exact (unaware_insertBinding Value.all_recordType).seq <| ih
    · exact ih

theorem unaware_materializeFunctions (hc : p.chunk chunk) (sites : List Nat) :
    p.Oblivious (VM.materializeFunctions chunk sites) fun _ => True := by
  induction sites with
  | nil => exact .pure trivial
  | cons site rest ih =>
    unfold VM.materializeFunctions
    split
    next name params body span hi =>
      refine unaware_fresh.bind fun id _ => ?_
      refine unaware_environment.bind fun e he => ?_
      have hb : p.body body := p.makeFunction hc (List.mem_of_getElem? hi)
      exact (unaware_insertBinding (Value.all_function.mpr ⟨hb, he⟩)).seq <| ih
    · exact ih

variable {slots : List Int}

theorem unaware_materializeSlots (persistent : List PersistentSlot) :
    p.Oblivious (VM.materializeSlots slots persistent) fun _ => True := by
  induction persistent with
  | nil => exact .pure trivial
  | cons entry rest ih =>
    obtain ⟨name, slot, mutable⟩ := entry
    unfold VM.materializeSlots
    split
    · exact Oblivious.bind (P := fun _ => False) .throw fun _ h => h.elim
    · exact (unaware_insertBinding Value.all_int).seq <| ih

theorem unaware_finishRootNative (hc : p.chunk chunk) {code : RootCode} {value : Int} :
    p.Oblivious (VM.finishRootNative host chunk code value slots) p.value := by
  refine (unaware_materializeShapes _).seq ?_
  refine (unaware_materializeFunctions hc _).seq ?_
  refine (unaware_materializeSlots _).seq ?_
  split
  · exact unaware_printLine.seq <| .pure Value.all_null
  · exact .pure Value.all_int

theorem unaware_popRootFrame {slots : FastRootSlots} :
    p.Oblivious (VM.popRootFrame slots) fun _ => True := by
  refine unaware_topFrame.bind fun top htop => ?_
  split
  · exact .throw
  next frame =>
    refine unaware_popFast.seq ?_
    refine unaware_environment.bind fun e he => ?_
    refine (hp.bindAll e _ he).unaware fun s hs =>
      { hs.interp with heap := hs.interp.heap.insertAll ?_ }
    intro entry hen
    obtain ⟨name, -, hn⟩ := List.mem_filterMap.mp hen
    simp only [Option.bind_eq_bind, Option.bind_eq_some_iff] at hn
    obtain ⟨slot, -, binding, hb, hd⟩ := hn
    split at hd
    · cases hd
      exact htop frame rfl binding (List.mem_of_getElem? hb)
    · cases hd

theorem unaware_leaveRoot {slots : Option FastRootSlots} :
    p.Oblivious (VM.leaveRoot slots) fun _ => True := by
  cases slots with
  | none => exact .pure trivial
  | some slots => exact unaware_popRootFrame

omit hp in
theorem unaware_topLevelValue (flow : VmFlow Chunk) :
    p.Oblivious (VM.topLevelValue flow) fun _ => True := by
  cases flow with
  | «continue» value => exact .pure trivial
  | «return» value | stop | skip => exact .throw

theorem unaware_pushRootFrame : p.Oblivious (VM.pushRootFrame chunk) fun _ => True := by
  refine hp.watched.read.bind fun watched _ => ?_
  refine unaware_declares.bind fun declared _ => ?_
  split
  · exact .pure trivial
  · exact (unaware_pushFast (Allowed.parameterSlots_value fun _ h => by cases h)).seq <|
      .pure trivial

theorem unaware_beginRun (hx : p.Executor) (hc : p.chunk chunk) :
    p.Oblivious (VM.beginRun chunk) fun begun => p.next host begun.2 := by
  refine unaware_pushRootFrame.bind fun slots _ => ?_
  exact (hx.enters hc Allowed.frames_nil).bind fun next hn => .pure hn

end Patch

end Nivren
