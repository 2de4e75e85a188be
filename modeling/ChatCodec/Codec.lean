import ChatCodec.Frame
import ChatCodec.Pool
import ChatCodec.Registry

/-!
# Encoding and decoding packets

A `Codec` is a valid configuration and a registry. It puts a header before a body and takes the
two apart again:

* `Codec.encodeWith` — writes a header, a body through any serializer, and then the size of the
  body into the header. Either a whole frame is written or nothing;
* `Codec.encodeInto`, `Codec.encodeToSlice`, `Codec.encode` — the same for a packet of the
  catalogue, into a writer, a destination of fixed size, or a pooled buffer;
* `Codec.decode` — the packet that is expected at the start of some bytes;
* `Codec.decodeAny`, `Codec.decodeFrame` — whichever registered packet there is.
-/

namespace ChatCodec

/-- A valid configuration and the packets that are known. -/
structure Codec where
  config : Config
  registry : Registry
  valid : config.fault? = none

namespace Codec

/-- The codec of a configuration and a registry, if the configuration is valid. -/
def withRegistry (config : Config) (registry : Registry) : Except CodecError Codec :=
  match h : config.fault? with
  | none => .ok ⟨config, registry, h⟩
  | some fault => .error (.invalidConfig fault)

/-- The codec of a configuration that knows the whole catalogue. -/
def ofConfig (config : Config) : Except CodecError Codec :=
  withRegistry config .standard

/-- The codec with everything at its default. -/
def standard : Codec where
  config := .standard
  registry := .standard
  valid := rfl

/-- A pool with the sizes of the configuration and no idle buffer. -/
def freshPool (codec : Codec) : BufferPool where
  bufferCapacity := codec.config.poolBufferCapacity
  maxPooled := codec.config.maxPooledBuffers
  maxRetained := codec.config.maxRetainedCapacity

/-- A deframer with the signature and limit of the configuration. -/
def deframer (codec : Codec) : Deframer :=
  .ofConfig codec.config

/-! ## Encoding -/

/-- The most bytes the frame of a packet takes. -/
def maxEncodedSize (p : Packet) (body : p.Body) : Nat :=
  p.code.headerLength + p.serializer.maxSize body

/-- The header written before the size of the content is known. -/
def provisionalHeader (packetType : PacketType) (errorCode : Option ErrorCode) : Header :=
  match errorCode with
  | some code => (Header.ofType packetType 0).withErrorCode code.toInt8
  | none => .ofType packetType 0

/-- Writes a frame and answers its length. On failure nothing of it stays. -/
def encodeWith {α : Type} (codec : Codec) (packetType : PacketType)
    (errorCode : Option ErrorCode) (serializer : Serializer α) (body : α) : WriteM Nat :=
  Write.atomic do
    -- the size of the content is written as zero first
    let header := provisionalHeader packetType errorCode
    let start := (← get).offset
    header.write codec.config.signature
    let contentStart := (← get).offset
    serializer.serialize body
    let size := (← get).offset - contentStart
    if codec.config.maxContentSize < size then
      throw (.payloadTooLarge size codec.config.maxContentSize)
    -- now it is known, and small enough for a signed word
    Write.patchI32 (start + header.contentSizeOffset) (.ofNat size)
    return (← get).offset - start

/-- Writes the frame of a packet and answers its length. -/
def encodeInto (codec : Codec) (p : Packet) (body : p.Body) : WriteM Nat :=
  codec.encodeWith p.code (p.errorCode body) p.serializer body

/-- The frame of a packet, written into a destination of `size` bytes. -/
def encodeToSlice (codec : Codec) (p : Packet) (body : p.Body) (size : Nat) :
    Except CodecError Bytes :=
  match codec.encodeInto p body (.ofSize size) with
  | .ok _ w => .ok w.written
  | .error e _ => .error e

/-- The frame of a packet in a buffer acquired from a pool, to which the buffer returns if the
packet cannot be encoded. -/
def encode (codec : Codec) (pool : BufferPool) (p : Packet) (body : p.Body) :
    Except CodecError Buffer × BufferPool :=
  let (buffer, pool) := pool.acquire
  match codec.encodeInto p body (.growable buffer) with
  | .ok _ w => (.ok w.toBuffer, pool)
  | .error e w => (.error e, pool.release w.toBuffer)

/-! ## Decoding -/

/-- Reads a header under the configuration. -/
def readHeader (codec : Codec) : ReadM Header :=
  Header.read codec.config.signature codec.config.maxContentSize

/-- The body of the packet expected at the start of some bytes, and the bytes it took. -/
def decode (codec : Codec) (p : Packet) (src : Bytes) : Except CodecError (p.Body × Nat) :=
  Read.run (Read.atomic do p.spec.decodeBody p.serializer (← codec.readHeader)) src

/-- The registered packet at the start of some bytes, none where it is discarded, and the bytes it
took. -/
def decodeAny (codec : Codec) (src : Bytes) : Except CodecError (Option Incoming × Nat) :=
  Read.run (Read.atomic do codec.registry.dispatch (← codec.readHeader)) src

/-- The packets of a byte string one after another, up to the first error. -/
def decodeAll (codec : Codec) (src : Bytes) : List (Except CodecError (Option Incoming × Nat)) :=
  match codec.decodeAny src with
  | .error e => [.error e]
  | .ok (packet, n) =>
    .ok (packet, n) ::
      if 0 < n ∧ n < src.length then codec.decodeAll (src.drop n) else []
termination_by src.length
decreasing_by rw [List.length_drop]; omega

/-- The registered packet of a frame, none where it is discarded. -/
def decodeFrame (codec : Codec) (frame : Frame) : Except CodecError (Option Incoming) :=
  match codec.registry.dispatch frame.header frame.reader with
  | .ok packet _ => .ok packet
  | .error e _ => .error e

end Codec

end ChatCodec
