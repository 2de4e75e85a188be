import ChatCodec.Config

/-!
# Frames

A frame is a packet whose content is still unread: a header and exactly the bytes it declares. A
`Deframer` collects the bytes of a stream as they arrive, in pieces of any size, and cuts frames
off the front:

* `Deframer.push` — bytes arrive;
* `Deframer.next` — the next frame, once its header and content are there. Content is not copied,
  it stays in the pieces it came in;
* `Deframer.clear` — drops what is collected.

A bad header is an error that stays: the bytes are kept, and asking again answers the same.
-/

namespace ChatCodec

/-- A header and the content it declares. -/
structure Frame where
  header : Header
  content : Segments
  deriving DecidableEq, Repr

/-- A cursor at the start of the content. -/
def Frame.reader (frame : Frame) : Reader :=
  .ofSegments frame.content

/-- The bytes of a stream that are not yet part of a frame. -/
structure Deframer where
  signature : UInt16
  /-- The largest content size accepted. -/
  limit : Nat
  buffer : Segments := .empty
  deriving DecidableEq, Repr

namespace Deframer

/-- A deframer with the signature and limit of a configuration. -/
def ofConfig (config : Config) : Deframer where
  signature := config.signature
  limit := config.maxContentSize

/-- Adds bytes that arrived. -/
def push (d : Deframer) (chunk : Bytes) : Deframer :=
  { d with buffer := d.buffer.push chunk }

/-- The number of bytes collected. -/
def buffered (d : Deframer) : Nat :=
  d.buffer.size

def isEmpty (d : Deframer) : Bool :=
  d.buffer.isEmpty

/-- Drops what is collected. -/
def clear (d : Deframer) : Deframer :=
  { d with buffer := .empty }

/-- The next frame, or none until more bytes arrive. -/
def next (d : Deframer) : Except CodecError (Option Frame) × Deframer :=
  match Header.read d.signature d.limit (Reader.ofSegments d.buffer) with
  | .error e _ => (if e.isInsufficientData then .ok none else .error e, d)
  | .ok header _ =>
    -- the header is read again when more has arrived
    if d.buffer.size < header.frameLength then
      (.ok none, d)
    else
      let (frame, rest) := d.buffer.split header.frameLength
      (.ok (some ⟨header, frame.drop header.length⟩), { d with buffer := rest })

end Deframer

end ChatCodec
