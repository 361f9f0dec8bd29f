import Nivren.Library.Codec
import Nivren.Library.Program

/-! The receiving side of a WebSocket.

`receive_text` reads frames until a text message is complete. A frame is read in pieces: two header
bytes, a longer length, a mask, the payload. A header that is refused ends the call where it stands.
The reads and writes of a call are numbered; the network says which of them fail.
-/

namespace Nivren

namespace WebSocket

open Codec Program

def maxMessage : ℕ := 16 * 1024 * 1024

/-- The part of the outside: what happens to each read and each write. -/
structure Network where
  /-- A read gives up after some bytes, with an error. -/
  stall : ℕ → Option (ℕ × String)
  /-- The random mask of a written frame. -/
  mask : ℕ → Option Bytes
  /-- The error of a failed write. -/
  refuse : ℕ → Option String

/-- A connection: the bytes of the peer that are not read yet, and what was written. -/
structure Socket where
  input : Bytes
  reads : ℕ
  writes : ℕ
  sent : Bytes
  maskOutgoing : Bool
  closed : Bool
deriving DecidableEq

abbrev Connection := Fallible String Socket

structure Frame where
  fin : Bool
  opcode : UInt8
  payload : Bytes
deriving DecidableEq

def xorMask (mask payload : Bytes) : Bytes :=
  payload.mapIdx fun index byte => byte ^^^ mask.getD (index % 4) 0

/-- The length of a payload behind the mask bit, in as few bytes as possible. -/
def lengthBytes (masked : Bool) (length : ℕ) : Bytes :=
  let maskBit := if masked then 0x80 else 0
  if length ≤ 125 then [UInt8.ofNat (maskBit + length)]
  else if length ≤ 65535 then UInt8.ofNat (maskBit + 126) :: (leBytes 2 length).reverse
  else UInt8.ofNat (maskBit + 127) :: (leBytes 8 length).reverse

def maskedBytes : Option Bytes → Bytes → Bytes
  | some mask, payload => mask ++ xorMask mask payload
  | none, payload => payload

def frameBytes (first : UInt8) (mask : Option Bytes) (payload : Bytes) : Bytes :=
  first :: lengthBytes mask.isSome payload.length ++ maskedBytes mask payload

section Calls

variable (network : Network)

/-- A read of as many bytes as asked for. An incomplete read has taken the bytes it got. -/
def readExact (count : ℕ) : Connection Bytes := do
  let index ← read Socket.reads
  write fun s => { s with reads := s.reads + 1 }
  match (network.stall index).filter fun stall => stall.1 < count ∨ stall.1 = 0 with
  | some (taken, error) =>
    write fun s => { s with input := s.input.drop taken }
    throw error
  | none =>
    let input ← read Socket.input
    write fun s => { s with input := s.input.drop count }
    if input.length < count then throw "failed to fill whole buffer"
    else return input.take count

structure Head where
  fin : Bool
  opcode : UInt8
  masked : Bool
  length : ℕ
deriving DecidableEq

def parseHead (expectMask : Bool) (first second : UInt8) : Except String Head :=
  if first &&& 0x70 ≠ 0 then .error "WebSocket extensions were not negotiated"
  else if (second &&& 0x80 ≠ 0 : Bool) ≠ expectMask then
    .error "WebSocket frame has the wrong masking mode"
  else .ok ⟨first &&& 0x80 ≠ 0, first &&& 0x0f, second &&& 0x80 ≠ 0, (second &&& 0x7f).toNat⟩

def readLength (short : ℕ) : Connection ℕ :=
  if short = 126 then do return leValue (← readExact network 2).reverse
  else if short = 127 then do return leValue (← readExact network 8).reverse
  else return short

/-- What `read_frame` checks before it reads a payload. -/
def checkLength (head : Head) (length maximum : ℕ) : Except String Unit :=
  if head.opcode ≥ 8 ∧ (!head.fin ∨ length > 125) then .error "invalid WebSocket control frame"
  else if length > maximum then .error "WebSocket frame exceeds receive limit"
  else .ok ()

def readPayload (masked : Bool) (length : ℕ) : Connection Bytes :=
  if masked then do
    let mask ← readExact network 4
    let payload ← readExact network length
    return xorMask mask payload
  else readExact network length

def readFrame (expectMask : Bool) (maximum : ℕ) : Connection Frame := do
  let bytes ← readExact network 2
  let head ← liftM (parseHead expectMask (bytes.getD 0 0) (bytes.getD 1 0))
  let length ← readLength network head.length
  liftM (checkLength head length maximum)
  let payload ← readPayload network head.masked length
  return ⟨head.fin, head.opcode, payload⟩

def writeFrame (opcode : UInt8) (payload : Bytes) : Connection Unit := do
  let index ← read Socket.writes
  write fun s => { s with writes := s.writes + 1 }
  let masked ← read Socket.maskOutgoing
  if masked ∧ network.mask index = none then throw "could not create a WebSocket frame mask"
  else match network.refuse index with
    | some error => throw error
    | none => write fun s => { s with
        sent := s.sent ++
          frameBytes (0x80 ||| opcode) (if masked then network.mask index else none) payload }

/-- What a round of `receive_message` does with its frame. `next` is the loop with another message
and the mark whether it is fragmented. -/
def takeFrame (next : Bytes → Bool → Connection String) (maximum : ℕ) (message : Bytes)
    (fragmented : Bool) (frame : Frame) : Connection String :=
  if (frame.opcode = 0 ∧ fragmented) ∨ (frame.opcode = 1 ∧ !fragmented) then
    if (message ++ frame.payload).length > maximum then
      throw "WebSocket message exceeds receive limit"
    else if frame.fin then
      match ofUtf8 (message ++ frame.payload) with
      | some text => return text
      | none => throw "WebSocket text message is not UTF-8"
    else next (message ++ frame.payload) true
  else if frame.opcode = 8 then do
    tryCatch (writeFrame network 8 frame.payload) fun _ => pure ()
    write fun s => { s with closed := true }
    throw "WebSocket peer closed the connection"
  else if frame.opcode = 9 then do
    writeFrame network 10 frame.payload
    next message fragmented
  else if frame.opcode = 10 then next message fragmented
  else if frame.opcode = 2 then
    throw "binary WebSocket messages are not supported by receive_text"
  else throw "invalid WebSocket message sequence"

/-- The loop of `receive_message`. Every round reads at least two bytes, so that the number of bytes
that are left bounds the rounds. -/
def receiveMessage (maximum : ℕ) : ℕ → Bytes → Bool → Connection String
  | 0, _, _ => throw "failed to fill whole buffer"
  | rounds + 1, message, fragmented => do
    let maskOutgoing ← read Socket.maskOutgoing
    let frame ← readFrame network (!maskOutgoing) (maximum - message.length)
    takeFrame network (receiveMessage maximum rounds) maximum message fragmented frame

def receiveText (maximum : ℕ) : Connection String := do
  if ← read Socket.closed then throw "WebSocket is closed"
  else if maximum = 0 ∨ maximum > maxMessage then
    throw "WebSocket receive limit must be from 1 through 16777216 bytes"
  else
    let rounds ← read fun s => s.input.length + 1
    receiveMessage network maximum rounds [] false

end Calls

end WebSocket

end Nivren
