import ChatCodec.Packet.Header

/-!
# Configuration

A `Config` holds the limits and sizes a codec works with. `Config.validate` refuses sizes of zero
and limits that do not fit the fields on the wire.
-/

namespace ChatCodec

/-- The limits and sizes of a codec. -/
structure Config where
  /-- The value every header starts with. -/
  signature : UInt16 := Header.defaultSignature
  /-- The largest content accepted or produced. -/
  maxContentSize : Nat := 4194304
  /-- The capacity of a fresh pool buffer. -/
  poolBufferCapacity : Nat := 4096
  /-- The number of idle buffers a pool keeps. -/
  maxPooledBuffers : Nat := 64
  /-- A buffer that grew beyond this is not kept. -/
  maxRetainedCapacity : Nat := 1048576
  /-- The number of bytes a stream asks for at once. -/
  readChunkSize : Nat := 8192
  deriving DecidableEq, Repr

namespace Config

/-- The configuration with everything at its default. -/
def standard : Config := {}

/-- What is wrong with the configuration, if anything is. -/
def fault? (config : Config) : Option ConfigFault :=
  if config.maxContentSize = 0 ∨ Write.maxPrefix < config.maxContentSize then
    some (.contentLimit config.maxContentSize)
  else if config.poolBufferCapacity = 0 then
    some .emptyPoolBuffers
  else if config.maxRetainedCapacity < config.poolBufferCapacity then
    some (.retainedBelowCapacity config.maxRetainedCapacity config.poolBufferCapacity)
  else if config.readChunkSize = 0 then
    some .emptyReads
  else
    none

/-- Accepts a configuration or says what is wrong with it. -/
def validate (config : Config) : Except CodecError Unit :=
  match config.fault? with
  | none => .ok ()
  | some fault => .error (.invalidConfig fault)

end Config

end ChatCodec
