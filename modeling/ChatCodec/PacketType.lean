import ChatCodec.Hex

/-!
# Packet type codes

Every packet starts with a 32-bit type code. Its high byte names the family the packet belongs to,
the other 24 bits number the packet within the family:

* `PacketFamily` — requests, responses, broadcasts, or a family nobody has claimed yet;
* `PacketType.none` — the reserved code 0, whose content is always discarded;
* `PacketType.hasErrorCode` — responses, whose header carries an error code.
-/

namespace ChatCodec

/-- What kind of packet a type code announces. -/
inductive PacketFamily where
  | request
  | response
  | broadcast
  /-- A high byte that no family has claimed. -/
  | unknown
  deriving DecidableEq, Repr

/-- A 32-bit packet type code. -/
structure PacketType where
  code : UInt32
  deriving DecidableEq, Repr

namespace PacketType

/-- The reserved code; packets of this type are discarded. -/
protected def none : PacketType := ⟨0⟩

/-- The code of a family byte and a 24-bit index; higher bits of the index are dropped. -/
def ofParts (family : UInt8) (index : UInt32) : PacketType :=
  ⟨family.toUInt32 <<< 24 ||| index &&& 0x00ffffff⟩

/-- The number of the packet within its family. -/
def index (t : PacketType) : UInt32 :=
  t.code &&& 0x00ffffff

/-- The family its high byte names. -/
def family (t : PacketType) : PacketFamily :=
  match (t.code >>> 24).toNat with
  | 0 => .request
  | 1 => .response
  | 2 => .broadcast
  | _ => .unknown

def isNone (t : PacketType) : Bool :=
  t == .none

/-- Responses, and only they, carry an error code in the header. -/
def hasErrorCode (t : PacketType) : Bool :=
  t.family == .response

/-- The code as people read it, `0x` and eight hexadecimal digits. -/
def text (t : PacketType) : String :=
  "0x" ++ hexText 8 t.code.toNat

end PacketType

end ChatCodec
