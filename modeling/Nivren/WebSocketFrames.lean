import Nivren.WebSocket

/-! Where a WebSocket reader stands in the stream of its peer.

The peer sends frames. A call of `receive_text` that meets only frames it takes, and is not cut off
inside one, stops between two frames, and what it returns is a message of the stream. A frame that
is refused stays in the stream without its header.

`read_frame` reads back what `write_frame` wrote. It holds a ping or a pong to the bytes that a message
may still have, so that a control frame may be refused behind a message that fills its limit.
-/

namespace Nivren

namespace WebSocket

open Codec Program List

structure WireFrame where
  fin : Bool
  rsv : Fin 8
  opcode : Fin 16
  mask : Option Bytes
  payload : Bytes
  mask_length : ∀ bytes ∈ mask, bytes.length = 4
  payload_length : payload.length < 2 ^ 63

namespace WireFrame

def firstByte (fin : Bool) (rsv : Fin 8) (opcode : Fin 16) : UInt8 :=
  UInt8.ofNat (128 * fin.toNat + 16 * rsv + opcode)

def bytes (frame : WireFrame) : Bytes :=
  frameBytes (firstByte frame.fin frame.rsv frame.opcode) frame.mask frame.payload

def reads (frame : WireFrame) : ℕ :=
  2 + (if frame.payload.length ≤ 125 then 0 else 1) + if frame.mask.isSome then 1 else 0

structure Taken (expectMask : Bool) (limit : ℕ) (frame : WireFrame) : Prop where
  rsv : frame.rsv = 0
  masked : frame.mask.isSome = expectMask
  control : frame.opcode ≥ 8 → frame.fin = true ∧ frame.payload.length ≤ 125
  length : frame.payload.length ≤ limit

def Continues (fragmented : Bool) (frame : WireFrame) : Prop :=
  frame.opcode = if fragmented then 0 else 1

/-- The frame is a ping or a pong, which may stand between the frames of a message. -/
def Beside (frame : WireFrame) : Prop := frame.opcode = 9 ∨ frame.opcode = 10

end WireFrame

def streamBytes (frames : List WireFrame) : Bytes := frames.flatMap WireFrame.bytes

section Messages

/-- The frames are the rest of a message, with the given payload. -/
def IsRest : List WireFrame → Bytes → Prop
  | [], _ => False
  | frame :: rest, payload =>
    (frame.Beside ∧ IsRest rest payload) ∨
      (frame.opcode = 0 ∧ ∃ tail, payload = frame.payload ++ tail ∧
        if frame.fin then rest = [] ∧ tail = [] else IsRest rest tail)

/-- The frames are a text message, from its first to its last frame, with the given payload. -/
def IsMessage : List WireFrame → Bytes → Prop
  | [], _ => False
  | frame :: rest, payload =>
    frame.opcode = 1 ∧ ∃ tail, payload = frame.payload ++ tail ∧
      if frame.fin then rest = [] ∧ tail = [] else IsRest rest tail

end Messages

/-- A call that meets these frames first is not cut off inside one of them: every frame it reads is
taken, and a read gives up only before the first byte of a frame. -/
def Smooth (network : Network) (expectMask : Bool) :
    (limit reads : ℕ) → (fragmented : Bool) → List WireFrame → Prop
  | _, _, _, [] => True
  | limit, reads, fragmented, frame :: rest =>
    (∃ error, network.stall reads = some (0, error)) ∨
      ((∀ k < frame.reads, network.stall (reads + k) = none) ∧ frame.Taken expectMask limit ∧
        (frame.Beside → Smooth network expectMask limit (reads + frame.reads) fragmented rest) ∧
        (frame.Continues fragmented → frame.fin = false →
          Smooth network expectMask (limit - frame.payload.length) (reads + frame.reads) true rest))

variable {frame : WireFrame}

section Read

variable {network : Network} {s : Socket}

theorem exec_readExact {a b : Bytes} (hst : network.stall s.reads = none) (hin : s.input = a ++ b) :
    exec (readExact network a.length) s = (.ok a, { s with input := b, reads := s.reads + 1 }) := by
  have hl : ¬ (a ++ b).length < a.length := by simp
  simp only [readExact, exec_bind, exec_read, exec_write, hst, Option.filter_none, hin,
    if_neg hl, exec_pure, take_left', drop_left']

theorem exec_readExact_stall {count : ℕ} {error : String}
    (hst : network.stall s.reads = some (0, error)) :
    exec (readExact network count) s = (.error error, { s with reads := s.reads + 1 }) := by
  have hf : (some (0, error)).filter (fun stall : ℕ × String => stall.1 < count ∨ stall.1 = 0) =
      some (0, error) := by
    simp [Option.filter]
  simp only [readExact, exec_bind, exec_read, exec_write, hst, hf, exec_throw, drop_zero]

theorem exec_readExact_end {count : ℕ} (hc : 0 < count) (hin : s.input = []) :
    ∃ error, exec (readExact network count) s = (.error error, { s with reads := s.reads + 1 }) := by
  have hs : s = { s with input := [] } := by rw [← hin]
  rw [hs]
  simp only [readExact, exec_bind, exec_read, exec_write]
  cases (network.stall s.reads).filter fun stall => stall.1 < count ∨ stall.1 = 0 with
  | none => exact ⟨"failed to fill whole buffer", by simp [exec_bind, hc]⟩
  | some stall => exact ⟨stall.2, by simp [exec_bind]⟩

theorem parseHead_firstByte (fin masked : Bool) (opcode : Fin 16) {short : ℕ} (hsh : short < 128) :
    parseHead masked (WireFrame.firstByte fin 0 opcode)
        (UInt8.ofNat ((if masked then 0x80 else 0) + short)) =
      .ok ⟨fin, UInt8.ofNat opcode, masked, short⟩ := by
  have hf : ∀ (fin : Bool) (opcode : Fin 16), WireFrame.firstByte fin 0 opcode &&& 0x70 = 0 ∧
      (decide (WireFrame.firstByte fin 0 opcode &&& 0x80 ≠ 0)) = fin ∧
      WireFrame.firstByte fin 0 opcode &&& 0x0f = UInt8.ofNat opcode := by decide
  have hse : ∀ (masked : Bool) (short : Fin 128),
      (decide (UInt8.ofNat ((if masked then 0x80 else 0) + short) &&& 0x80 ≠ 0)) = masked ∧
      (UInt8.ofNat ((if masked then 0x80 else 0) + short) &&& 0x7f).toNat = short := by decide
  obtain ⟨hr, hfin, hop⟩ := hf fin opcode
  obtain ⟨hm, hl⟩ := hse masked ⟨short, hsh⟩
  simp only at hm hl
  rw [parseHead, if_neg (not_not.mpr hr), hm, if_neg (not_not.mpr rfl), hfin, hop, hl]

/-- The length in the second byte of a frame, and the bytes of a longer length behind it. -/
def shortLength (length : ℕ) : ℕ :=
  if length ≤ 125 then length else if length ≤ 65535 then 126 else 127

def longLength (length : ℕ) : Bytes :=
  if length ≤ 125 then []
  else if length ≤ 65535 then (leBytes 2 length).reverse else (leBytes 8 length).reverse

theorem lengthBytes_eq (masked : Bool) (length : ℕ) : lengthBytes masked length =
      UInt8.ofNat ((if masked then 0x80 else 0) + shortLength length) :: longLength length := by
  unfold lengthBytes shortLength longLength
  by_cases hsm : length ≤ 125
  · simp [hsm]
  · by_cases hm : length ≤ 65535
    · simp [hsm, hm]
    · simp [hsm, hm]

theorem shortLength_lt (length : ℕ) : shortLength length < 128 := by
  unfold shortLength
  split_ifs <;> omega

theorem exec_readLength {length : ℕ} (hl : length < 2 ^ 63) {rest : Bytes}
    (hst : 125 < length → network.stall s.reads = none)
    (hin : s.input = longLength length ++ rest) :
    exec (readLength network (shortLength length)) s = (.ok length, { s with
        input := rest, reads := s.reads + if length ≤ 125 then 0 else 1 }) := by
  unfold shortLength longLength at *
  by_cases hsm : length ≤ 125
  · simp only [if_pos hsm, nil_append] at hin ⊢
    rw [readLength, if_neg (by omega), if_neg (by omega)]
    simp [← hin]
  simp only [if_neg hsm] at hin ⊢
  by_cases hm : length ≤ 65535
  · simp only [if_pos hm] at hin ⊢
    have hr := exec_readExact (hst (by omega)) hin
    rw [length_reverse, leBytes_length] at hr
    rw [readLength, if_pos rfl, exec_bind, hr]
    simp [leValue_leBytes (show length < 256 ^ 2 by omega)]
  · simp only [if_neg hm] at hin ⊢
    have hr := exec_readExact (hst (by omega)) hin
    rw [length_reverse, leBytes_length] at hr
    rw [readLength, if_neg (by omega), if_pos rfl, exec_bind, hr]
    simp [leValue_leBytes (show length < 256 ^ 8 by omega)]

theorem xorMask_xorMask (mask payload : Bytes) : xorMask mask (xorMask mask payload) = payload := by
  unfold xorMask
  rw [mapIdx_mapIdx]
  refine ext_getElem (by simp) fun i h₁ h₂ => ?_
  simp [UInt8.xor_assoc]

theorem length_xorMask (mask payload : Bytes) : (xorMask mask payload).length = payload.length := by
  simp [xorMask]

theorem exec_readPayload {mask : Option Bytes} {payload rest : Bytes}
    (hm : ∀ bytes ∈ mask, bytes.length = 4)
    (hst : ∀ k ≤ if mask.isSome then 1 else 0, network.stall (s.reads + k) = none)
    (hin : s.input = maskedBytes mask payload ++ rest) :
    exec (readPayload network mask.isSome payload.length) s = (.ok payload, { s with
        input := rest, reads := s.reads + 1 + if mask.isSome then 1 else 0 }) := by
  cases mask with
  | none => exact exec_readExact (hst 0 (by simp)) hin
  | some mask =>
    rw [maskedBytes, append_assoc] at hin
    have hf := exec_readExact (hst 0 (by simp)) hin
    rw [hm mask rfl] at hf
    have hse := @exec_readExact network
      { s with input := xorMask mask payload ++ rest, reads := s.reads + 1 }
      (xorMask mask payload) rest (hst 1 (by simp)) rfl
    rw [length_xorMask] at hse
    rw [readPayload, Option.isSome_some, if_pos rfl, exec_bind, hf]
    dsimp only
    rw [exec_bind, hse]
    simp [xorMask_xorMask]

variable {expectMask : Bool} {limit : ℕ}

theorem checkLength_taken (hta : frame.Taken expectMask limit) (short : ℕ) :
    checkLength ⟨frame.fin, UInt8.ofNat frame.opcode, expectMask, short⟩ frame.payload.length limit =
      .ok () := by
  have hop : ∀ opcode : Fin 16, (8 : UInt8) ≤ UInt8.ofNat opcode → opcode ≥ 8 := by decide
  have hc : ¬ (UInt8.ofNat frame.opcode ≥ 8 ∧ (!frame.fin ∨ frame.payload.length > 125)) := by
    rintro ⟨hh, hbad⟩
    obtain ⟨hfin, hl⟩ := hta.control (hop _ hh)
    rcases hbad with hbad | hbad
    · simp [hfin] at hbad
    · omega
  have hl := hta.length
  rw [checkLength, if_neg hc, if_neg (by simpa using hl)]

/-- What is left of `read_frame` once the header is read. -/
theorem exec_readFrame_head {rest : Bytes} (hr : frame.rsv = 0)
    (hm : frame.mask.isSome = expectMask)
    (hst : ∀ k < frame.reads, network.stall (s.reads + k) = none)
    (hin : s.input = frame.bytes ++ rest) :
    exec (readFrame network expectMask limit) s = exec (do
        liftM (checkLength ⟨frame.fin, UInt8.ofNat frame.opcode, expectMask,
          shortLength frame.payload.length⟩ frame.payload.length limit)
        let payload ← readPayload network expectMask frame.payload.length
        return ⟨frame.fin, UInt8.ofNat frame.opcode, payload⟩)
      { s with
        input := maskedBytes frame.mask frame.payload ++ rest
        reads := s.reads + 1 + if frame.payload.length ≤ 125 then 0 else 1 } := by
  obtain ⟨first, hf⟩ : ∃ first, first = WireFrame.firstByte frame.fin 0 frame.opcode := ⟨_, rfl⟩
  obtain ⟨second, hse⟩ : ∃ second, second =
      UInt8.ofNat ((if expectMask then 0x80 else 0) + shortLength frame.payload.length) := ⟨_, rfl⟩
  have hb : s.input = [first, second] ++
      (longLength frame.payload.length ++ (maskedBytes frame.mask frame.payload ++ rest)) := by
    rw [hin, WireFrame.bytes, frameBytes, lengthBytes_eq, hm, hr, ← hf, ← hse]
    simp
  have h2 : 2 ≤ frame.reads := by
    unfold WireFrame.reads
    omega
  have hh := exec_readExact (hst 0 (by omega)) hb
  have hpa : parseHead expectMask first second =
      .ok ⟨frame.fin, UInt8.ofNat frame.opcode, expectMask, shortLength frame.payload.length⟩ := by
    rw [hf, hse]
    exact parseHead_firstByte _ _ _ (shortLength_lt _)
  have hl := @exec_readLength network { s with
      input := longLength frame.payload.length ++ (maskedBytes frame.mask frame.payload ++ rest)
      reads := s.reads + 1 }
    frame.payload.length frame.payload_length (maskedBytes frame.mask frame.payload ++ rest)
    (fun hlo => hst 1 (by omega)) rfl
  rw [readFrame, exec_bind, show 2 = [first, second].length from rfl, hh]
  simp only [getD_cons_zero, getD_cons_succ]
  rw [exec_bind, hpa, exec_lift]
  dsimp only
  rw [exec_bind, hl]

theorem exec_readFrame {rest : Bytes} (hta : frame.Taken expectMask limit)
    (hst : ∀ k < frame.reads, network.stall (s.reads + k) = none)
    (hin : s.input = frame.bytes ++ rest) :
    exec (readFrame network expectMask limit) s =
      (.ok ⟨frame.fin, UInt8.ofNat frame.opcode, frame.payload⟩,
        { s with input := rest, reads := s.reads + frame.reads }) := by
  rw [exec_readFrame_head hta.rsv hta.masked hst hin, exec_bind, checkLength_taken hta, exec_lift]
  dsimp only
  have hp := @exec_readPayload network { s with
      input := maskedBytes frame.mask frame.payload ++ rest
      reads := s.reads + 1 + if frame.payload.length ≤ 125 then 0 else 1 }
    frame.mask frame.payload rest frame.mask_length
    (fun k hk => by
      have hst := hst (1 + (if frame.payload.length ≤ 125 then 0 else 1) + k)
        (by unfold WireFrame.reads; omega)
      rwa [← Nat.add_assoc, ← Nat.add_assoc] at hst) rfl
  rw [hta.masked] at hp
  rw [exec_bind, hp]
  simp only [exec_pure, WireFrame.reads, hta.masked, Prod.mk.injEq, Socket.mk.injEq, true_and,
    and_true]
  omega

theorem exec_readFrame_stall {error : String} (hst : network.stall s.reads = some (0, error)) :
    exec (readFrame network expectMask limit) s = (.error error, { s with reads := s.reads + 1 }) := by
  rw [readFrame, exec_bind, exec_readExact_stall hst]

theorem exec_readFrame_end (hin : s.input = []) :
    ∃ error, exec (readFrame network expectMask limit) s =
      (.error error, { s with reads := s.reads + 1 }) := by
  obtain ⟨error, hr⟩ := @exec_readExact_end network s 2 (by omega) hin
  exact ⟨error, by rw [readFrame, exec_bind, hr]⟩

end Read

section Rounds

variable {network : Network} {s : Socket}

def Socket.receiving (s : Socket) : Bytes × ℕ × Bool := (s.input, s.reads, s.maskOutgoing)

theorem leaves_writeFrame {opcode : UInt8} {payload : Bytes} :
    Leaves Socket.receiving (writeFrame network opcode payload) := by
  refine .bind .read fun index => .bind (.write fun _ => rfl) fun _ =>
    .bind .read fun masked => .ite (.throw _) ?_
  split
  · exact .throw _
  · exact .write fun _ => rfl

theorem receiving_of_writeFrame {opcode : UInt8} {payload : Bytes} {result : Except String Unit}
    {s' : Socket} (h : exec (writeFrame network opcode payload) s = (result, s')) :
    s'.receiving = s.receiving := by
  have hsa := @leaves_writeFrame network opcode payload s
  rwa [h] at hsa

end Rounds

section Call

variable {network : Network} {s : Socket}

def Between (frames : List WireFrame) (s : Socket) : Prop :=
  ∃ rest, rest <:+ frames ∧ s.input = streamBytes rest

theorem Between.cons {frame : WireFrame} {rest : List WireFrame} (h : Between rest s) :
    Between (frame :: rest) s := by
  obtain ⟨later, hl, hin⟩ := h
  exact ⟨later, hl.trans (suffix_cons frame rest), hin⟩

/-- A call that has received a part of a message returns it with its rest, and otherwise a message
of the stream. -/
def Found (frames : List WireFrame) (message : Bytes) : Bool → Bytes → Prop
  | true, text => ∃ segment tail, segment <+: frames ∧ IsRest segment tail ∧ text = message ++ tail
  | false, text => ∃ segment, segment <:+: frames ∧ IsMessage segment text

variable {rest : List WireFrame} {fragmented : Bool} {message : Bytes}

theorem Found.beside {text : Bytes} (hb : frame.Beside) (h : Found rest message fragmented text) :
    Found (frame :: rest) message fragmented text := by
  cases fragmented with
  | true =>
    obtain ⟨segment, tail, hse, hr, hte⟩ := h
    exact ⟨frame :: segment, tail, (prefix_cons_inj frame).mpr hse, .inl ⟨hb, hr⟩, hte⟩
  | false =>
    obtain ⟨segment, hse, hm⟩ := h
    exact ⟨segment, hse.trans (suffix_cons frame rest).isInfix, hm⟩

theorem found_last (hc : frame.Continues fragmented) (hfin : frame.fin = true)
    (hf : fragmented = false → message = []) :
    Found (frame :: rest) message fragmented (message ++ frame.payload) := by
  have hin : [frame] <+: frame :: rest := ⟨rest, rfl⟩
  cases fragmented with
  | true =>
    exact ⟨[frame], frame.payload, hin, .inr ⟨hc, [], by simp, by simp [hfin]⟩, rfl⟩
  | false =>
    exact ⟨[frame], hin.isInfix, hc, [], by simp [hf rfl], by simp [hfin]⟩

theorem Found.fragment {text : Bytes} (hc : frame.Continues fragmented) (hfin : frame.fin = false)
    (hf : fragmented = false → message = [])
    (h : Found rest (message ++ frame.payload) true text) :
    Found (frame :: rest) message fragmented text := by
  obtain ⟨segment, tail, hse, hr, rfl⟩ := h
  have hin : frame :: segment <+: frame :: rest := (prefix_cons_inj frame).mpr hse
  have hta : ∃ later, frame.payload ++ tail = frame.payload ++ later ∧
      if frame.fin then segment = [] ∧ later = [] else IsRest segment later :=
    ⟨tail, rfl, by simpa [hfin] using hr⟩
  cases fragmented with
  | true => exact ⟨frame :: segment, frame.payload ++ tail, hin, .inr ⟨hc, hta⟩, by simp⟩
  | false =>
    refine ⟨frame :: segment, hin.isInfix, hc, ?_⟩
    simpa [hf rfl] using hta

theorem opcode_eq_iff {opcode : Fin 16} :
    (UInt8.ofNat opcode = 0 ↔ opcode = 0) ∧ (UInt8.ofNat opcode = 1 ↔ opcode = 1) ∧
      (UInt8.ofNat opcode = 9 ↔ opcode = 9) ∧ (UInt8.ofNat opcode = 10 ↔ opcode = 10) := by
  revert opcode
  decide

variable {maximum : ℕ}

/-- After a frame of the stream the loop goes on with a ping, a pong or a part of the message, and
else stops behind the frame. -/
theorem ensures_takeFrame {next : Bytes → Bool → Connection String}
    (hin : s.input = streamBytes rest) (hfr : fragmented = false → message = [])
    (hbe : frame.Beside → ∀ s' : Socket, s'.receiving = s.receiving →
      Ensures (next message fragmented) s'
        (fun text s' => Between rest s' ∧ Found rest message fragmented (utf8 text))
        fun _ s' => Between rest s')
    (hm : frame.Continues fragmented → frame.fin = false →
      Ensures (next (message ++ frame.payload) true) s
        (fun text s' => Between rest s' ∧ Found rest (message ++ frame.payload) true (utf8 text))
        fun _ s' => Between rest s') :
    Ensures (takeFrame network next maximum message fragmented
        ⟨frame.fin, UInt8.ofNat frame.opcode, frame.payload⟩) s
      (fun text s' => Between (frame :: rest) s' ∧
        Found (frame :: rest) message fragmented (utf8 text))
      fun _ s' => Between (frame :: rest) s' := by
  obtain ⟨hz, hone, hn, hten⟩ := @opcode_eq_iff frame.opcode
  have hb : ∀ s' : Socket, s'.receiving = s.receiving → Between (frame :: rest) s' := by
    intro s' hs'
    have hsa : s'.input = s.input := congrArg Prod.fst hs'
    exact ⟨rest, suffix_cons frame rest, hsa.trans hin⟩
  have hw : ∀ opcode payload, Ensures (writeFrame network opcode payload) s
      (fun _ s' => s'.receiving = s.receiving) fun _ s' => s'.receiving = s.receiving :=
    fun _ _ => .of_exec (fun _ _ h => receiving_of_writeFrame h) fun _ _ h => receiving_of_writeFrame h
  have hp : frame.Beside → ∀ s' : Socket, s'.receiving = s.receiving →
      Ensures (next message fragmented) s' (fun text s' => Between (frame :: rest) s' ∧
          Found (frame :: rest) message fragmented (utf8 text))
        fun _ s' => Between (frame :: rest) s' := fun hf s' hs' =>
    (hbe hf s' hs').mono (fun _ _ h => ⟨h.1.cons, h.2.beside hf⟩) fun _ _ h => h.cons
  unfold takeFrame
  split
  next ha =>
    have hc : frame.Continues fragmented := by
      rw [hz, hone] at ha
      cases fragmented <;> simpa [WireFrame.Continues] using ha
    split
    · exact hb s rfl
    split
    next hfin =>
      split
      next text hte =>
        rw [ensures_pure, ← ofUtf8_eq_some.mp hte]
        exact ⟨hb s rfl, found_last hc hfin hfr⟩
      · exact hb s rfl
    next hfin =>
      rw [Bool.not_eq_true] at hfin
      exact (hm hc hfin).mono
        (fun _ _ h => ⟨h.1.cons, h.2.fragment hc hfin hfr⟩) fun _ _ h => h.cons
  split
  · rw [ensures_bind, ensures_tryCatch]
    exact (hw 8 frame.payload).mono (fun _ s' h => hb { s' with closed := true } h)
      fun _ s' h => hb { s' with closed := true } h
  split
  next hpi =>
    rw [ensures_bind]
    exact (hw 10 frame.payload).mono (fun _ s' h => hp (.inl (hn.mp hpi)) s' h)
      fun _ s' h => hb s' h
  split
  next hpo => exact hp (.inr (hten.mp hpo)) s rfl
  split <;> exact hb s rfl

variable {frames : List WireFrame}

theorem ensures_receiveMessage {rounds : ℕ} (hin : s.input = streamBytes frames)
    (hsm : Smooth network (!s.maskOutgoing) (maximum - message.length) s.reads fragmented frames)
    (hf : fragmented = false → message = []) :
    Ensures (receiveMessage network maximum rounds message fragmented) s
      (fun text s' => Between frames s' ∧ Found frames message fragmented (utf8 text))
      fun _ s' => Between frames s' := by
  induction rounds generalizing s frames message fragmented with
  | zero => exact ⟨frames, suffix_rfl, hin⟩
  | succ rounds ih =>
    have hh : Between frames { s with reads := s.reads + 1 } := ⟨frames, suffix_rfl, hin⟩
    rw [receiveMessage, ensures_bind, ensures_read, ensures_bind]
    cases frames with
    | nil =>
      obtain ⟨error, hre⟩ := exec_readFrame_end hin
      rw [Ensures, hre]
      exact hh
    | cons frame rest =>
      rcases hsm with ⟨error, hst⟩ | ⟨hst, hta, hb, hmo⟩
      · rw [Ensures, exec_readFrame_stall hst]
        exact hh
      rw [Ensures, exec_readFrame hta hst (by simpa [streamBytes] using hin)]
      refine ensures_takeFrame rfl hf (fun hfr s' hs' => ?_) fun hc hfin => ?_
      · rw [Socket.receiving, Socket.receiving, Prod.mk.injEq, Prod.mk.injEq] at hs'
        obtain ⟨hip, hr, hm⟩ := hs'
        exact ih hip (by rw [hr, hm]; exact hb hfr) hf
      · have hl : maximum - (message ++ frame.payload).length =
            maximum - message.length - frame.payload.length := by
          rw [length_append]
          omega
        exact ih rfl (by rw [hl]; exact hmo hc hfin) (by simp)

theorem ensures_receiveText (hin : s.input = streamBytes frames)
    (hsm : Smooth network (!s.maskOutgoing) maximum s.reads false frames) :
    Ensures (receiveText network maximum) s (fun text s' => Between frames s' ∧
        ∃ segment, segment <:+: frames ∧ IsMessage segment (utf8 text))
      fun _ s' => Between frames s' := by
  have hh : Between frames s := ⟨frames, suffix_rfl, hin⟩
  rw [receiveText, ensures_bind, ensures_read]
  split
  · exact hh
  split
  · exact hh
  · rw [ensures_bind, ensures_read]
    exact ensures_receiveMessage hin hsm fun _ => rfl

end Call

section Calls

variable {network : Network}

structure Call where
  socket : Socket
  maximum : ℕ
  result : Except String String

def receives (network : Network) : Socket → List ℕ → List Call
  | _, [] => []
  | s, maximum :: rest =>
    let (result, s') := exec (receiveText network maximum) s
    ⟨s, maximum, result⟩ :: receives network s' rest

def Call.Smooth (network : Network) (frames : List WireFrame) (call : Call) : Prop :=
  ∀ rest, rest <:+ frames → call.socket.input = streamBytes rest →
    WebSocket.Smooth network (!call.socket.maskOutgoing) call.maximum call.socket.reads false rest

def Call.Aligned (frames : List WireFrame) (call : Call) : Prop :=
  Between frames call.socket ∧ ∀ text, call.result = .ok text →
    ∃ segment, segment <:+: frames ∧ IsMessage segment (utf8 text)

/-- As long as no call is cut off inside a frame, every call starts at a frame, and every text is
a message of the stream. -/
theorem receives_aligned {frames : List WireFrame} {s : Socket} {maxima : List ℕ}
    (hstart : s.input = streamBytes frames)
    (hsmooth : ∀ call ∈ receives network s maxima, call.Smooth network frames) :
    ∀ call ∈ receives network s maxima, call.Aligned frames := by
  have hbetween : Between frames s := ⟨frames, suffix_rfl, hstart⟩
  clear hstart
  induction maxima generalizing s with
  | nil => simp [receives]
  | cons maximum rest ih =>
    rw [receives, forall_mem_cons] at hsmooth ⊢
    obtain ⟨later, hlater, hinput⟩ := hbetween
    have hcall := ensures_receiveText hinput (hsmooth.1 later hlater hinput)
    have hwiden : ∀ s', Between later s' → Between frames s' := by
      rintro s' ⟨last, hlast, hs'⟩
      exact ⟨last, hlast.trans hlater, hs'⟩
    unfold Ensures at hcall
    cases hexec : exec (receiveText network maximum) s with
    | mk result s' =>
      rw [hexec] at hcall
      cases result with
      | error e =>
        exact ⟨⟨⟨later, hlater, hinput⟩, by simp⟩,
          ih (by simpa [hexec] using hsmooth.2) (hwiden _ hcall)⟩
      | ok text =>
        obtain ⟨hafter, segment, hsegment, hmessage⟩ := hcall
        refine ⟨⟨⟨later, hlater, hinput⟩, ?_⟩,
          ih (by simpa [hexec] using hsmooth.2) (hwiden _ hafter)⟩
        intro text' htext
        obtain rfl : text = text' := by simpa [hexec] using htext
        exact ⟨segment, hsegment.trans hlater.isInfix, hmessage⟩

def Network.calm : Network := ⟨fun _ => none, fun _ => none, fun _ => none⟩

def client (frames : List WireFrame) : Socket := ⟨streamBytes frames, 0, 0, [], true, false⟩

def greeting : WireFrame := ⟨true, 0, 1, none, [104, 105], by simp, by decide⟩

theorem greeting_aligned :
    (receives .calm (client [greeting]) [5, 5]).map Call.result =
      [.ok "hi", .error "failed to fill whole buffer"] ∧
    ∀ call ∈ receives .calm (client [greeting]) [5, 5], call.Aligned [greeting] := by
  refine ⟨by decide +kernel, receives_aligned rfl fun call hcall rest hrest _ => ?_⟩
  have hmaximum : call.maximum = 5 := by
    have hall : ∀ maximum ∈ (receives .calm (client [greeting]) [5, 5]).map Call.maximum,
        maximum = 5 := by decide +kernel
    exact hall _ (mem_map_of_mem hcall)
  have hmask : call.socket.maskOutgoing = true := by
    have hall : ∀ masked ∈ (receives .calm (client [greeting]) [5, 5]).map (·.socket.maskOutgoing),
        masked = true := by decide +kernel
    exact hall _ (mem_map_of_mem hcall)
  rw [hmaximum, hmask]
  rcases suffix_cons_iff.mp hrest with rfl | hrest
  · have htaken : greeting.Taken false 5 := ⟨rfl, rfl, by decide, by decide⟩
    refine .inr ⟨fun _ _ => rfl, htaken, ?_, ?_⟩
    · intro hbeside
      exact absurd hbeside (by unfold WireFrame.Beside; decide)
    · intro _ hfin
      cases hfin
  · obtain rfl := suffix_nil.mp hrest
    trivial

def disguised : WireFrame := ⟨true, 0, 2, none, [0x81, 2, 104, 105], by simp, by decide⟩

/-- A payload that is too long for the first call is read as a frame by the second. -/
theorem refused_payload_read_as_frame :
    (receives .calm (client [disguised]) [3, 3]).map Call.result =
      [.error "WebSocket frame exceeds receive limit", .ok "hi"] ∧
    ¬ ∃ segment, segment <:+: [disguised] ∧ IsMessage segment (utf8 "hi") := by
  refine ⟨by decide +kernel, ?_⟩
  rintro ⟨segment, hsegment, hmessage⟩
  cases segment with
  | nil => exact hmessage
  | cons frame rest =>
    have hframe : frame ∈ [disguised] := hsegment.subset (mem_cons_self ..)
    obtain rfl := mem_singleton.mp hframe
    exact absurd hmessage.1 (by decide)

end Calls

section Written

variable {network : Network} {s s' : Socket} {opcode : UInt8} {payload : Bytes}

/-- The mask of the next frame. -/
def Socket.mask (network : Network) (s : Socket) : Option Bytes :=
  if s.maskOutgoing then network.mask s.writes else none

def Socket.written (network : Network) (s : Socket) (opcode : UInt8) (payload : Bytes) : Socket :=
  { s with
    writes := s.writes + 1
    sent := s.sent ++ frameBytes (0x80 ||| opcode) (s.mask network) payload }

theorem exec_writeFrame_eq_ok : exec (writeFrame network opcode payload) s = (.ok (), s') ↔
      ¬ (s.maskOutgoing ∧ network.mask s.writes = none) ∧ network.refuse s.writes = none ∧
        s.written network opcode payload = s' := by
  simp only [writeFrame, exec_bind, exec_read, exec_write]
  split
  next hm => simp [hm]
  next hm =>
    cases hr : network.refuse s.writes with
    | some error => simp
    | none => simp [hm, Socket.written, Socket.mask]

/-- A frame with an opcode of four bits is read as it was written, and nothing behind it. -/
theorem written_frame_read {peer : Network} {maximum : ℕ}
    (hmask : ∀ k, ∀ mask ∈ network.mask k, mask.length = 4) (hstall : ∀ k, peer.stall k = none)
    (hopcode : opcode < 16) (hcontrol : 8 ≤ opcode → payload.length ≤ 125)
    (hmaximum : payload.length ≤ maximum) (hsize : payload.length < 2 ^ 63)
    (hwrite : exec (writeFrame network opcode payload) s = (.ok (), s')) :
    ∃ bytes reads, s' = { s with writes := s.writes + 1, sent := s.sent ++ bytes } ∧
      ∀ (r : Socket) (rest : Bytes), r.input = bytes ++ rest →
        exec (readFrame peer s.maskOutgoing maximum) r =
          (.ok ⟨true, opcode, payload⟩, { r with input := rest, reads := r.reads + reads }) := by
  obtain ⟨hfilled, -, rfl⟩ := exec_writeFrame_eq_ok.mp hwrite
  have hnibble : ∀ o : Fin 16, 0x80 ||| UInt8.ofNat o = WireFrame.firstByte true 0 o ∧
      (8 ≤ o → 8 ≤ UInt8.ofNat o) := by decide
  obtain ⟨o, rfl⟩ : ∃ o : Fin 16, UInt8.ofNat o = opcode :=
    ⟨⟨opcode.toNat, UInt8.lt_iff_toNat_lt.mp hopcode⟩, UInt8.ofNat_toNat⟩
  have hlength : ∀ bytes ∈ s.mask network, bytes.length = 4 := by
    intro bytes hb
    unfold Socket.mask at hb
    split at hb
    · exact hmask _ bytes hb
    · cases hb
  have hmasked : (s.mask network).isSome = s.maskOutgoing := by
    unfold Socket.mask
    cases hm : s.maskOutgoing with
    | false => rfl
    | true => simpa [hm, Option.isSome_iff_ne_none] using hfilled
  let frame : WireFrame := ⟨true, 0, o, s.mask network, payload, hlength, hsize⟩
  have htaken : frame.Taken s.maskOutgoing maximum :=
    ⟨rfl, hmasked, fun h => ⟨rfl, hcontrol ((hnibble o).2 h)⟩, hmaximum⟩
  refine ⟨frame.bytes, frame.reads, ?_, fun r rest hinput =>
    exec_readFrame htaken (fun k _ => hstall _) hinput⟩
  rw [Socket.written, (hnibble o).1]
  rfl

/-- No read and no write fails. -/
def Network.masking : Network := ⟨fun _ => none, fun _ => some [1, 2, 3, 4], fun _ => none⟩

theorem greeting_read_back : ∃ bytes reads,
    (client []).written .masking 1 [104, 105] = { client [] with writes := 1, sent := bytes } ∧
    ∀ (r : Socket) (rest : Bytes), r.input = bytes ++ rest → exec (readFrame .masking true 5) r =
      (.ok ⟨true, 1, [104, 105]⟩, { r with input := rest, reads := r.reads + reads }) :=
  written_frame_read (fun _ _ h => by cases h; rfl) (fun _ => rfl) (by decide) (by decide)
    (by decide) (by decide) (exec_writeFrame_eq_ok.mpr ⟨by decide, rfl, rfl⟩)

/-- An opcode of five bits is written but not read. -/
theorem wide_opcode_not_read : exec (writeFrame .calm 16 []) ⟨[], 0, 0, [], false, false⟩ =
      (.ok (), ⟨[], 0, 1, [0x90, 0], false, false⟩) ∧
    (exec (readFrame .calm false 5) ⟨[0x90, 0], 0, 0, [], true, false⟩).1 =
      .error "WebSocket extensions were not negotiated" := by decide +kernel

end Written

/-- The frames carry the rest of a message, with pings and pongs among them. -/
def Carries : Bool → List WireFrame → Bytes → Prop
  | _, [], _ => False
  | fragmented, frame :: rest, payload =>
    (frame.Beside ∧ Carries fragmented rest payload) ∨
      (frame.Continues fragmented ∧ ∃ tail, payload = frame.payload ++ tail ∧
        if frame.fin then rest = [] ∧ tail = [] else Carries true rest tail)

instance (frame : WireFrame) : Decidable frame.Beside := inferInstanceAs (Decidable (_ ∨ _))

/-- Each ping and each pong is as short as what the message may still have. -/
def Roomy : ℕ → List WireFrame → Prop
  | _, [] => True
  | limit, frame :: rest =>
    if frame.Beside then frame.payload.length ≤ limit ∧ Roomy limit rest
    else Roomy (limit - frame.payload.length) rest

/-- The peer sends frames without extensions, masked as they should be, and short control frames. -/
def WireFrame.Proper (expectMask : Bool) (frame : WireFrame) : Prop :=
  frame.rsv = 0 ∧ frame.mask.isSome = expectMask ∧
    (frame.Beside → frame.fin = true ∧ frame.payload.length ≤ 125)

/-- One pong for each ping, with its payload, from the given number of written frames on. -/
def pongBytes (network : Network) (masked : Bool) : ℕ → List WireFrame → Bytes
  | _, [] => []
  | writes, frame :: rest =>
    if frame.opcode = 9 then
      frameBytes (0x80 ||| 10) (if masked then network.mask writes else none) frame.payload ++
        pongBytes network masked (writes + 1) rest
    else pongBytes network masked writes rest

def textOf (message : Bytes) : Except String String :=
  match ofUtf8 message with
  | some text => .ok text
  | none => .error "WebSocket text message is not UTF-8"

structure Network.Works (network : Network) : Prop where
  stall : ∀ k, network.stall k = none
  refuse : ∀ k, network.refuse k = none
  mask : ∀ k, network.mask k ≠ none

section Control

variable {network : Network} {s : Socket} {frame : WireFrame} {frames : List WireFrame}
  {limit maximum rounds : ℕ} {expectMask fragmented : Bool} {message payload rest : Bytes}

theorem opcode_of_continues (hc : frame.Continues fragmented) : ¬ frame.opcode ≥ 8 := by
  rw [hc]
  cases fragmented <;> decide

theorem not_beside (hc : frame.Continues fragmented) : ¬ frame.Beside := by
  intro hb
  rcases hb with hb | hb <;> exact opcode_of_continues hc (by rw [hb]; decide)

theorem exec_readFrame_refused (hp : frame.Proper expectMask) (hn : network.Works)
    (hin : s.input = frame.bytes ++ rest) (hb : frame.Beside) (hl : limit < frame.payload.length) :
    ∃ s', exec (readFrame network expectMask limit) s =
      (.error "WebSocket frame exceeds receive limit", s') := by
  obtain ⟨hr, hm, hc⟩ := hp
  rw [exec_readFrame_head hr hm (fun _ _ => hn.stall _) hin, exec_bind, checkLength,
    if_neg (by simp [hc hb]), if_pos hl, exec_lift]
  exact ⟨_, rfl⟩

variable {next : Bytes → Bool → Connection String}

/-- A ping or a pong leaves the message as it is, and the ping is answered. -/
theorem exec_takeFrame_beside (hb : frame.Beside) (hn : network.Works) : ∃ after : Socket,
    exec (takeFrame network next maximum message fragmented
        ⟨frame.fin, UInt8.ofNat frame.opcode, frame.payload⟩) s =
      exec (next message fragmented) after ∧
    after.input = s.input ∧ after.maskOutgoing = s.maskOutgoing ∧
    after.sent ++ pongBytes network after.maskOutgoing after.writes frames =
      s.sent ++ pongBytes network s.maskOutgoing s.writes (frame :: frames) := by
  have ho : UInt8.ofNat (9 : Fin 16) = 9 ∧ UInt8.ofNat (10 : Fin 16) = 10 := by decide
  rw [pongBytes]
  rcases hb with hb | hb
  · have hw : exec (writeFrame network 10 frame.payload) s =
        (.ok (), s.written network 10 frame.payload) :=
      exec_writeFrame_eq_ok.mpr ⟨fun h => hn.mask _ h.2, hn.refuse _, rfl⟩
    rw [hb, ho.1, if_pos rfl, ← append_assoc]
    exact ⟨s.written network 10 frame.payload, by simp [takeFrame, exec_bind, hw], rfl, rfl, rfl⟩
  · rw [hb, ho.2, if_neg (by decide)]
    exact ⟨s, by simp [takeFrame], rfl, rfl, rfl⟩

theorem exec_takeFrame_part (hc : frame.Continues fragmented)
    (hl : (message ++ frame.payload).length ≤ maximum) :
    exec (takeFrame network next maximum message fragmented
        ⟨frame.fin, UInt8.ofNat frame.opcode, frame.payload⟩) s =
      if frame.fin then (textOf (message ++ frame.payload), s)
      else exec (next (message ++ frame.payload) true) s := by
  have ho : (UInt8.ofNat frame.opcode = 0 ∧ fragmented) ∨
      (UInt8.ofNat frame.opcode = 1 ∧ !fragmented) := by
    rw [hc]
    cases fragmented <;> decide
  rw [takeFrame, if_pos ho, if_neg (Nat.not_lt.mpr hl)]
  cases frame.fin with
  | false => rfl
  | true =>
    unfold textOf
    cases ofUtf8 (message ++ frame.payload) <;> rfl

/-- The loop on the rest of a message, from the rounds that are left. -/
theorem exec_receiveMessage (hn : network.Works)
    (hp : ∀ frame ∈ frames, frame.Proper (!s.maskOutgoing)) (hc : Carries fragmented frames payload)
    (hl : (message ++ payload).length ≤ maximum) (hr : frames.length ≤ rounds)
    (hin : s.input = streamBytes frames ++ rest) :
    ∃ s', (Roomy (maximum - message.length) frames ∧
        exec (receiveMessage network maximum rounds message fragmented) s =
          (textOf (message ++ payload), s') ∧
        s'.sent = s.sent ++ pongBytes network s.maskOutgoing s.writes frames) ∨
      (¬ Roomy (maximum - message.length) frames ∧
        exec (receiveMessage network maximum rounds message fragmented) s =
          (.error "WebSocket frame exceeds receive limit", s')) := by
  induction frames generalizing s message payload fragmented rounds with
  | nil => exact hc.elim
  | cons frame frames ih =>
    obtain ⟨rounds, rfl⟩ := Nat.exists_eq_add_of_le' (Nat.one_le_of_lt hr)
    rw [forall_mem_cons] at hp
    have hin' : s.input = frame.bytes ++ (streamBytes frames ++ rest) := by
      simpa [streamBytes] using hin
    rw [receiveMessage, exec_bind, exec_read]
    dsimp only
    rw [exec_bind]
    rcases hc with ⟨hb, hc⟩ | ⟨hd, tail, rfl, hc⟩
    · simp only [Roomy, if_pos hb]
      by_cases hf : frame.payload.length ≤ maximum - message.length
      · rw [exec_readFrame ⟨hp.1.1, hp.1.2.1, fun _ => hp.1.2.2 hb, hf⟩
          (fun _ _ => hn.stall _) hin']
        dsimp only
        obtain ⟨after, hx, hi, hm, hs⟩ := exec_takeFrame_beside hb hn
        rw [hx, ← hs]
        obtain ⟨s', h⟩ := ih (s := after) (hm ▸ hp.2) hc hl (Nat.le_of_succ_le_succ hr) hi
        exact ⟨s', h.imp (fun h => ⟨⟨hf, h.1⟩, h.2⟩) fun h => ⟨fun hroom => h.1 hroom.2, h.2⟩⟩
      · obtain ⟨s', hs'⟩ := exec_readFrame_refused hp.1 hn hin' hb (Nat.not_le.mp hf)
        exact ⟨s', .inr ⟨fun h => hf h.1, by rw [hs']⟩⟩
    · have ho := opcode_of_continues hd
      have hnot := not_beside hd
      rw [← append_assoc] at hl ⊢
      have hle : (message ++ frame.payload).length ≤ maximum := hl.trans' (by simp)
      have hs : maximum - (message ++ frame.payload).length =
          maximum - message.length - frame.payload.length := by
        rw [length_append]
        omega
      rw [exec_readFrame ⟨hp.1.1, hp.1.2.1, fun h => absurd h ho, by simp at hle; omega⟩
        (fun _ _ => hn.stall _) hin']
      dsimp only
      rw [exec_takeFrame_part hd hle]
      simp only [Roomy, if_neg hnot, pongBytes, if_neg fun h => hnot (.inl h)]
      cases hfin : frame.fin with
      | true =>
        rw [hfin, if_pos rfl] at hc
        obtain ⟨rfl, rfl⟩ := hc
        rw [append_nil, pongBytes, append_nil]
        exact ⟨_, .inl ⟨trivial, rfl, rfl⟩⟩
      | false =>
        rw [hfin] at hc
        rw [← hs]
        exact ih hp.2 hc hl (Nat.le_of_succ_le_succ hr) rfl

/-- The message without the control frames. -/
def plain (frames : List WireFrame) : List WireFrame := frames.filter (¬ ·.Beside)

theorem Carries.plain (hc : Carries fragmented frames payload) :
    Carries fragmented (plain frames) payload := by
  induction frames generalizing payload fragmented with
  | nil => exact hc
  | cons frame frames ih =>
    unfold WebSocket.plain at *
    rcases hc with ⟨hb, hc⟩ | ⟨hd, tail, rfl, hc⟩
    · rw [filter_cons_of_neg (by simpa using hb)]
      exact ih hc
    · rw [filter_cons_of_pos (by simpa using not_beside hd)]
      refine .inr ⟨hd, tail, rfl, ?_⟩
      cases hfin : frame.fin with
      | true =>
        rw [hfin] at hc
        exact ⟨by rw [hc.1, filter_nil], hc.2⟩
      | false =>
        rw [hfin] at hc
        exact ih hc

theorem roomy_plain : Roomy limit (plain frames) := by
  unfold plain
  induction frames generalizing limit with
  | nil => trivial
  | cons frame frames ih =>
    by_cases hb : frame.Beside
    · rw [filter_cons_of_neg (by simpa using hb)]
      exact ih
    · rw [filter_cons_of_pos (by simpa using hb), Roomy, if_neg hb]
      exact ih

theorem length_le_streamBytes : frames.length ≤ (streamBytes frames ++ rest).length := by
  induction frames with
  | nil => exact Nat.zero_le _
  | cons frame frames ih =>
    simp only [streamBytes, flatMap_cons, WireFrame.bytes, frameBytes, cons_append,
      length_cons, length_append] at ih ⊢
    omega

theorem exec_receiveText (hn : network.Works) (ho : s.closed = false)
    (hm : 0 < maximum ∧ maximum ≤ maxMessage)
    (hp : ∀ frame ∈ frames, frame.Proper (!s.maskOutgoing)) (hc : Carries false frames payload)
    (hl : payload.length ≤ maximum) (hin : s.input = streamBytes frames ++ rest) :
    ∃ s', (Roomy maximum frames ∧ exec (receiveText network maximum) s = (textOf payload, s') ∧
        s'.sent = s.sent ++ pongBytes network s.maskOutgoing s.writes frames) ∨
      (¬ Roomy maximum frames ∧ exec (receiveText network maximum) s =
        (.error "WebSocket frame exceeds receive limit", s')) := by
  have hr : frames.length ≤ s.input.length + 1 := hin ▸ length_le_streamBytes.trans (Nat.le_succ _)
  simp only [receiveText, exec_bind, exec_read, ho, Bool.false_eq_true, if_false,
    if_neg (show ¬ (maximum = 0 ∨ maximum > maxMessage) by omega)]
  exact @exec_receiveMessage _ _ _ _ _ _ [] _ _ hn hp hc hl hr hin

/-- Pings and pongs between the frames of a message change nothing, and each ping is answered, if
and only if each of them is as short as what the message may still have. -/
theorem control_frames_transparent_iff (hworks : network.Works) (hopen : s.closed = false)
    (hmaximum : 0 < maximum ∧ maximum ≤ maxMessage)
    (hproper : ∀ frame ∈ frames, frame.Proper (!s.maskOutgoing))
    (hcarries : Carries false frames payload) (hfits : payload.length ≤ maximum)
    (hinput : s.input = streamBytes frames ++ rest) :
    ((exec (receiveText network maximum) s).1 = (exec (receiveText network maximum)
          { s with input := streamBytes (plain frames) ++ rest }).1 ∧
      (exec (receiveText network maximum) s).2.sent =
        s.sent ++ pongBytes network s.maskOutgoing s.writes frames) ↔ Roomy maximum frames := by
  obtain ⟨s', hs'⟩ := exec_receiveText hworks hopen hmaximum hproper hcarries hfits hinput
  obtain ⟨_, hplain⟩ := exec_receiveText (s := { s with input := streamBytes (plain frames) ++ rest })
    hworks hopen hmaximum (fun frame hf => hproper frame (mem_of_mem_filter hf)) hcarries.plain
    hfits rfl
  rw [(hplain.resolve_right fun h => h.1 roomy_plain).2.1]
  rcases hs' with ⟨hroomy, hexec, hsent⟩ | ⟨hroomy, hexec⟩
  · rw [hexec]
    exact iff_of_true ⟨rfl, hsent⟩ hroomy
  · rw [hexec]
    refine iff_of_false (fun h => ?_) hroomy
    have htext := h.1
    unfold textOf at htext
    split at htext
    · cases htext
    · simp at htext

end Control

/-- A message in two parts, with a ping of three bytes between them. -/
def pinged : List WireFrame :=
  [⟨false, 0, 1, none, [104], by simp, by decide⟩,
    ⟨true, 0, 9, none, [1, 2, 3], by simp, by decide⟩,
    ⟨true, 0, 0, none, [105], by simp, by decide⟩]

theorem pinged_transparent : Roomy 5 pinged ∧ (exec (receiveText .masking 5) (client pinged)).1 =
      (exec (receiveText .masking 5) (client (plain pinged))).1 := by
  have hroomy : Roomy 5 pinged := by simp [Roomy, pinged, WireFrame.Beside]
  have hproper : ∀ frame ∈ pinged, frame.Proper false := by
    simp [pinged, WireFrame.Proper, WireFrame.Beside]
  have hcarries : Carries false pinged [104, 105] :=
    .inr ⟨rfl, [105], rfl, .inl ⟨.inl rfl, .inr ⟨rfl, [], rfl, rfl, rfl⟩⟩⟩
  have hworks : Network.masking.Works := ⟨fun _ => rfl, fun _ => rfl, fun _ => nofun⟩
  have hboth := (control_frames_transparent_iff (s := client pinged) hworks rfl (by decide) hproper
    hcarries (by decide) (append_nil _).symm).mpr hroomy
  rw [append_nil] at hboth
  exact ⟨hroomy, hboth.1⟩

/-- The ping is refused where two bytes are allowed, which the message itself has. -/
theorem ping_refused_in_short_message :
    (exec (receiveText .masking 2) (client (plain pinged))).1 = .ok "hi" ∧
    (exec (receiveText .masking 2) (client pinged)).1 =
      .error "WebSocket frame exceeds receive limit" := by decide +kernel

end WebSocket

end Nivren
