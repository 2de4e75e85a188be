import ChatCodec.Codec

/-!
# Streams

Reading frames from a source of bytes and writing packets to a sink, both of which may fail in the
middle.

* `ByteSource` — a script of what a source delivers: data, failures, and moments when it is not
  ready;
* `FrameStream.next` — reads until a frame is complete, a read brings no bytes, or something fails.
  Bytes already read stay for the next call;
* `ByteSink` — a sink that takes a few bytes at a time and may fill up;
* `Codec.writePacket` — encodes a packet into a pooled buffer and writes all of it.
-/

namespace ChatCodec

/-- Why reading or writing a stream failed. -/
inductive StreamError where
  | io (text : String)
  | codec (error : CodecError)
  /-- The source ended inside a frame. -/
  | unexpectedEnd (buffered : Nat)
  deriving DecidableEq, Repr

/-- The text that explains an error. -/
def StreamError.message : StreamError → String
  | io text => s!"I/O error: {text}"
  | codec error => error.message
  | unexpectedEnd buffered => s!"Stream ended inside a packet ({buffered} bytes buffered)"

/-! ## Reading -/

/-- What a source does next. -/
inductive SourceEvent where
  | data (bytes : Bytes)
  | failure (text : String)
  /-- The source has to be asked again. -/
  | notReady
  deriving DecidableEq, Repr

/-- A source of bytes: what is left of the data it is handing out, and what it does then. -/
structure ByteSource where
  current : Bytes := []
  events : List SourceEvent
  deriving DecidableEq, Repr

namespace ByteSource

/-- The data an event delivers. -/
def eventBytes : SourceEvent → Bytes
  | .data bytes => bytes
  | .failure _ => []
  | .notReady => []

/-- The data not yet handed out. -/
def unread (source : ByteSource) : Bytes :=
  source.current ++ source.events.flatMap eventBytes

/-- Hands out at most `limit` bytes of the data at hand or, where there are none, of the next event.
Data of no bytes is handed out as well, which a reader cannot tell from the end of the source. -/
def readFrom (limit : Nat) : Bytes → List SourceEvent → Except String Bytes × ByteSource
  | b :: bytes, events =>
    (.ok ((b :: bytes).take limit), ⟨(b :: bytes).drop limit, events⟩)
  | [], [] => (.ok [], ⟨[], []⟩)
  | [], .data bytes :: events => (.ok (bytes.take limit), ⟨bytes.drop limit, events⟩)
  | [], .failure text :: events => (.error text, ⟨[], events⟩)
  | [], .notReady :: events => readFrom limit [] events

/-- Hands out at most `limit` bytes, none at the end of the source or where an event has none. -/
def read (source : ByteSource) (limit : Nat) : Except String Bytes × ByteSource :=
  readFrom limit source.current source.events

theorem readFrom_unread {limit : Nat} {current : Bytes} {events : List SourceEvent} {chunk : Bytes}
    {source : ByteSource} (h : readFrom limit current events = (.ok chunk, source)) :
    chunk ++ source.unread = ByteSource.unread ⟨current, events⟩ := by
  fun_induction readFrom limit current events with
  | case1 b bytes events =>
    cases h
    simp only [unread, ← List.append_assoc, List.take_append_drop]
  | case2 =>
    cases h
    rfl
  | case3 bytes events =>
    cases h
    simp [unread, eventBytes, ← List.append_assoc]
  | case4 => cases h
  | case5 events ih => simpa [unread, eventBytes] using ih h

theorem read_unread {source rest : ByteSource} {limit : Nat} {chunk : Bytes}
    (h : source.read limit = (.ok chunk, rest)) : chunk ++ rest.unread = source.unread :=
  readFrom_unread h

end ByteSource

/-- Frames read from a source. -/
structure FrameStream where
  source : ByteSource
  deframer : Deframer
  /-- The bytes asked for at once. -/
  readSize : Nat
  deriving DecidableEq, Repr

namespace FrameStream

/-- The frames of a source under a configuration. -/
def ofConfig (config : Config) (source : ByteSource) : FrameStream where
  source := source
  deframer := .ofConfig config
  readSize := max config.readChunkSize 1

/-- The next frame, none where the source delivers nothing between frames. -/
def next (stream : FrameStream) : Except StreamError (Option Frame) × FrameStream :=
  match stream.deframer.next with
  | (.error e, deframer) => (.error (.codec e), { stream with deframer })
  | (.ok (some frame), deframer) => (.ok (some frame), { stream with deframer })
  | (.ok none, deframer) =>
    match _hread : stream.source.read stream.readSize with
    | (.error text, source) => (.error (.io text), { stream with source, deframer })
    -- a read without bytes counts as the end of the source, also where more would follow
    | (.ok [], source) =>
      let stream := { stream with source, deframer }
      (if deframer.isEmpty then .ok none else .error (.unexpectedEnd deframer.buffered), stream)
    | (.ok (b :: chunk), source) =>
      next { stream with source, deframer := deframer.push (b :: chunk) }
termination_by stream.source.unread.length
decreasing_by
  -- what was read is no longer unread
  rw [← ByteSource.read_unread _hread, List.length_append, List.length_cons]
  omega

end FrameStream

/-! ## Writing -/

/-- A sink of bytes: what it holds, how much it takes at once, and how much it takes in all. -/
structure ByteSink where
  stored : Bytes := []
  /-- The most bytes taken by one write, if there is a bound. -/
  maxWrite : Option Nat := none
  /-- The most bytes held, if there is a bound. -/
  limit : Option Nat := none
  deriving DecidableEq, Repr

namespace ByteSink

/-- The sink holds as much as it ever will. -/
def isFull (sink : ByteSink) : Bool :=
  sink.limit.any (· ≤ sink.stored.length)

/-- What a sink says that takes no byte: it is full, or it takes none at all. -/
def refusal (sink : ByteSink) : String :=
  if sink.isFull then "sink full" else "write zero"

/-- How many of some bytes one write takes. -/
def accepts (sink : ByteSink) (count : Nat) : Nat :=
  let count := (sink.maxWrite.map (min · count)).getD count
  (sink.limit.map fun limit => min count (limit - sink.stored.length)).getD count

/-- Writes all bytes, as many at a time as the sink takes, until it takes none. -/
def writeAll (sink : ByteSink) (src : Bytes) : Except StreamError Unit × ByteSink :=
  match src with
  | [] => (.ok (), sink)
  | b :: rest =>
    -- a write that takes nothing is the last one
    match sink.accepts (b :: rest).length with
    | 0 => (.error (.io sink.refusal), sink)
    | n + 1 => writeAll { sink with stored := sink.stored ++ b :: rest.take n } (rest.drop n)
termination_by src.length
decreasing_by rw [List.length_drop, List.length_cons]; omega

end ByteSink

/-- Encodes a packet into a pooled buffer, writes it to a sink and answers the bytes written. The
buffer returns to the pool in any case. -/
def Codec.writePacket (codec : Codec) (pool : BufferPool) (sink : ByteSink) (p : Packet)
    (body : p.Body) : Except StreamError Nat × BufferPool × ByteSink :=
  match codec.encode pool p body with
  | (.error e, pool) => (.error (.codec e), pool, sink)
  | (.ok buffer, pool) =>
    let (result, sink) := sink.writeAll buffer.bytes
    (result.map fun _ => buffer.length, pool.release buffer, sink)

end ChatCodec
