import ChatCodec.Reader
import ChatCodec.Writer

/-!
# Packet headers

Every packet starts with a header: the signature of the protocol (2 bytes), the type code (4), for
responses an error code (1), and the size of the content that follows (4).

* `Header.write` and `Header.read` — the header in bytes and back. Reading checks the signature as
  soon as it is known, and the content size against a limit;
* `Header.length` — the bytes of the header, 10 or 11;
* `Header.frameLength` — header and content together.
-/

namespace ChatCodec

/-- What announces a packet. A response, and no other packet, has an error code. -/
structure Header where
  packetType : PacketType
  errorCode : Option Int8
  contentSize : Int32
  deriving DecidableEq, Repr

/-- The bytes of the header of a packet type. -/
def PacketType.headerLength (t : PacketType) : Nat :=
  if t.hasErrorCode then 11 else 10

namespace Header

/-- The signature used unless configured otherwise. -/
def defaultSignature : UInt16 := 0x5743

/-- The header of a packet type and content size; a response gets error code 0. -/
def ofType (packetType : PacketType) (contentSize : Int32) : Header where
  packetType := packetType
  errorCode := if packetType.hasErrorCode then some 0 else none
  contentSize := contentSize

/-- The header with an error code; only a response takes one. -/
def withErrorCode (h : Header) (code : Int8) : Header :=
  if h.packetType.hasErrorCode then { h with errorCode := some code } else h

/-- The bytes of the header. -/
def length (h : Header) : Nat :=
  h.packetType.headerLength

/-- Where the content size lies in the header. -/
def contentSizeOffset (h : Header) : Nat :=
  h.length - 4

/-- The declared number of content bytes; a negative size declares none. -/
def contentLength (h : Header) : Nat :=
  h.contentSize.toInt.toNat

/-- The bytes of the header and its content. -/
def frameLength (h : Header) : Nat :=
  h.length + h.contentLength

/-- Writes the error code, if the packet type has one. -/
def writeErrorCode (h : Header) : WriteM Unit :=
  if h.packetType.hasErrorCode then Write.primitive .i8 (h.errorCode.getD 0) else return

/-- Writes the header under a signature. -/
def write (h : Header) (signature : UInt16) : WriteM Unit := Write.atomic do
  Write.primitive .u16 signature
  Write.primitive .u32 h.packetType.code
  h.writeErrorCode
  Write.primitive .i32 h.contentSize

/-- Reads the error code of a packet type, if it has one. -/
def readErrorCode (packetType : PacketType) : ReadM (Option Int8) :=
  if packetType.hasErrorCode then some <$> Read.primitive .i8 else pure none

/-- Accepts the signature that is expected. -/
def checkSignature (expected actual : UInt16) : Except CodecError Unit :=
  if actual = expected then .ok () else .error (.invalidSignature actual)

/-- Accepts a content size within the limit. -/
def checkContentSize (limit : Nat) (contentSize : Int32) : Except CodecError Int32 :=
  if contentSize < 0 then
    .error (.invalidContentSize contentSize)
  else if limit < contentSize.toInt.toNat then
    .error (.payloadTooLarge contentSize.toInt.toNat limit)
  else
    .ok contentSize

/-- Reads a header with the expected signature and a content size within the limit. -/
def read (signature : UInt16) (limit : Nat) : ReadM Header := Read.atomic do
  -- a foreign signature is reported as soon as its two bytes are there
  ofExcept (checkSignature signature (← Read.primitive .u16))
  let packetType : PacketType := ⟨← Read.primitive .u32⟩
  let errorCode ← readErrorCode packetType
  let contentSize ← ofExcept (checkContentSize limit (← Read.primitive .i32))
  return { packetType, errorCode, contentSize }

end Header

end ChatCodec
