import ChatCodec.PacketType
import ChatCodec.Version

/-!
# Errors

`CodecError` names each way reading, writing or configuring can fail. `CodecError.message` is the
text shown to people and `CodecError.kind` the coarse class a caller acts on:

* insufficient — more bytes, or more space, may help;
* oversized — a size limit was exceeded;
* malformed — the bytes can never be read.

Only a shortage of input (`CodecError.isInsufficientData`) is worth waiting on.

An answer that a function made of another answer is taken apart by `ok_of_map` and `error_of_map`.
-/

namespace ChatCodec

/-- The enumerations whose wire value may name nothing. -/
inductive DiscriminantKind where
  | roomKind
  | userStatus
  deriving DecidableEq, Repr

/-- The collections that refuse a repeated entry. -/
inductive CollectionKind where
  | set
  | map
  deriving DecidableEq, Repr

/-- What is wrong with a configuration. -/
inductive ConfigFault where
  /-- The text is no configuration. -/
  | unreadable
  /-- The content limit is zero or does not fit a content size field. -/
  | contentLimit (limit : Nat)
  | emptyPoolBuffers
  /-- A fresh pool buffer would be too large to keep. -/
  | retainedBelowCapacity (retained capacity : Nat)
  | emptyReads
  deriving DecidableEq, Repr

/-- Why reading, writing or configuring failed. -/
inductive CodecError where
  | insufficientData (need available : Nat)
  | insufficientSpace (need available : Nat)
  | invalidLength (length : Int32)
  | invalidUtf8
  | unexpectedNull
  | invalidBool (byte : UInt8)
  | unknownDiscriminant (kind : DiscriminantKind) (value : UInt8)
  | duplicateKey (collection : CollectionKind)
  | invalidSeek (offset capacity : Nat)
  | invalidSignature (signature : UInt16)
  | invalidContentSize (size : Int32)
  | payloadTooLarge (size limit : Nat)
  | contentSizeMismatch (declared consumed : Nat)
  | packetTypeMismatch (expected actual : PacketType)
  | errorCodeMismatch (header body : Int8)
  | missingPayload
  | reservedPacketType (packetType : PacketType)
  | versionMismatch (clientMin client serverMin server : Version)
  | invalidConfig (fault : ConfigFault)
  deriving DecidableEq, Repr

/-- The coarse class of an error. -/
inductive ErrorKind where
  | insufficient
  | malformed
  | oversized
  deriving DecidableEq, Repr

/-- The name of an enumeration in messages. -/
def DiscriminantKind.label : DiscriminantKind → String
  | .roomKind => "RoomKind"
  | .userStatus => "UserStatus"

/-- The name of a collection in messages. -/
def CollectionKind.label : CollectionKind → String
  | .set => "set"
  | .map => "map"

/-- The text that explains a fault. -/
def ConfigFault.message : ConfigFault → String
  | .unreadable => "not a JSON configuration"
  | .contentLimit limit => s!"max_content_size must be in 1..=2147483647, got {limit}"
  | .emptyPoolBuffers => "pool_buffer_capacity must be non-zero"
  | .retainedBelowCapacity retained capacity =>
    s!"max_retained_capacity ({retained}) is below pool_buffer_capacity ({capacity})"
  | .emptyReads => "read_chunk_size must be non-zero"

namespace CodecError

/-- The text that explains an error. -/
def message : CodecError → String
  | insufficientData need available =>
    s!"Insufficient data: need {need} bytes, have {available}"
  | insufficientSpace need available =>
    s!"Insufficient space: need {need} bytes, have {available}"
  | invalidLength length => s!"Invalid length prefix: {length.toInt}"
  | invalidUtf8 => "Invalid UTF-8 in string field"
  | unexpectedNull => "Unexpected null string in non-nullable field"
  | invalidBool byte => s!"Invalid boolean byte: {byte.toNat}"
  | unknownDiscriminant kind value => s!"Unknown {kind.label} discriminant: {value.toNat}"
  | duplicateKey collection => s!"Duplicate key in {collection.label}"
  | invalidSeek offset capacity => s!"Seek to {offset} is beyond capacity {capacity}"
  | invalidSignature signature => s!"Invalid packet signature: 0x{hexText 4 signature.toNat}"
  | invalidContentSize size => s!"Invalid content size: {size.toInt}"
  | payloadTooLarge size limit => s!"Payload of {size} bytes exceeds limit of {limit} bytes"
  | contentSizeMismatch declared consumed =>
    s!"Content size mismatch: declared {declared}, consumed {consumed}"
  | packetTypeMismatch expected actual =>
    s!"Packet type mismatch: expected {expected.text}, got {actual.text}"
  | errorCodeMismatch header body =>
    s!"Header error code {header.toInt} does not match body error code {body.toInt}"
  | missingPayload => "Successful response is missing its payload"
  | reservedPacketType packetType => s!"Packet type {packetType.text} is reserved"
  | versionMismatch clientMin client serverMin server =>
    s!"Protocol version mismatch: client [{clientMin.raw.toNat}, {client.raw.toNat}], " ++
      s!"server [{serverMin.raw.toNat}, {server.raw.toNat}]"
  | invalidConfig fault => s!"Invalid configuration: {fault.message}"

/-- The class of an error. -/
def kind : CodecError → ErrorKind
  | insufficientData .. => .insufficient
  | insufficientSpace .. => .insufficient
  | payloadTooLarge .. => .oversized
  | _ => .malformed

/-- More input could make the failing read succeed. -/
def isInsufficientData : CodecError → Bool
  | insufficientData .. => true
  | _ => false

end CodecError

/-! ## Answers made of answers -/

section Map

variable {ε α β : Type} {result : Except ε α} {f : α → β}

theorem ok_of_map {b : β} (h : result.map f = .ok b) : ∃ a, result = .ok a ∧ f a = b := by
  cases result with
  | ok a => exact ⟨a, rfl, Except.ok.inj h⟩
  | error e => cases h

theorem error_of_map {e : ε} (h : result.map f = .error e) : result = .error e := by
  cases result with
  | ok a => cases h
  | error e' =>
    cases h
    rfl

end Map

end ChatCodec
