import ChatCodec.Packet.Header
import ChatCodec.Serializer

/-!
# Packet bodies

A `PacketSpec β` says what a packet with bodies of type `β` is: its type code and name, how its
body is laid out, and which error code its header repeats. `PacketSpec.decodeBody` reads a body
from exactly the bytes its header declares.

A body that runs short of the declared bytes is malformed, since they have all arrived; so is one
that leaves some, and a response whose code differs from that of its header.
-/

namespace ChatCodec

/-- A kind of packet. -/
structure PacketSpec (β : Type) where
  code : PacketType
  name : String
  serializer : Serializer β
  /-- The error code repeated in the header; responses have one. -/
  errorCode : β → Option ErrorCode

/-- Runs a read and changes the error of a failure. -/
def Read.mapError {α : Type} (f : CodecError → CodecError) (read : ReadM α) : ReadM α := fun r =>
  match read r with
  | .ok a r' => .ok a r'
  | .error e r' => .error (f e) r'

namespace PacketSpec

variable {β : Type}

/-- A shortage inside a body that has arrived in full says how many bytes the body wanted. The sum
stops at the largest 64-bit number. -/
def shortage (declared : Nat) : CodecError → CodecError
  | .insufficientData need available =>
    .contentSizeMismatch declared (min (declared - available + need) (UInt64.size - 1))
  | e => e

/-- Refuses a body whose error code differs from that of the header, where both have one. -/
def checkCode (header : Option Int8) (body : Option ErrorCode) : Except CodecError Unit :=
  match header, body with
  | some headerCode, some bodyCode =>
    -- the bytes are compared, so an unknown code equals the named one of its byte
    if headerCode = bodyCode.toInt8 then
      .ok ()
    else
      .error (.errorCodeMismatch headerCode bodyCode.toInt8)
  | _, _ => .ok ()

/-- How many bytes were taken between two offsets, as a 64-bit number. A serializer may move back
before the content; the count then wraps around, as it does where overflow is not checked (where it
is, the difference stops the program), and is larger than any content. -/
def consumed (start after : Nat) : Nat :=
  if start ≤ after then after - start else UInt64.size - (start - after)

/-- Reads the body that follows a header, laid out by `serializer`. A failure leaves the cursor
where it was. -/
def decodeBody (spec : PacketSpec β) (serializer : Serializer β) (header : Header) : ReadM β := do
  if header.packetType ≠ spec.code then
    throw (.packetTypeMismatch spec.code header.packetType)
  let declared := header.contentLength
  let r ← get
  -- nothing of the content is read before all of it has arrived
  if r.remaining < declared then
    throw (.insufficientData declared r.remaining)
  Read.atomic do
    let body ← Read.mapError (shortage declared) (Read.within declared serializer.deserialize)
    -- the body sees the declared bytes only, and has to end where they end
    let after := (← get).offset
    if after ≠ r.offset + declared then
      throw (.contentSizeMismatch declared (consumed r.offset after))
    ofExcept (checkCode header.errorCode (spec.errorCode body))
    return body

end PacketSpec

end ChatCodec
