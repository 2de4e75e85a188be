import ChatCodec.Buffer
import ChatCodec.Primitive
import ChatCodec.Text

/-!
# Writing

A `Writer` appends to a growable buffer or fills a destination of fixed size. `WriteM α` is a
write: it answers a value or a `CodecError` and changes the writer.

* `Write.bytes`, `Write.primitive`, `Write.text`, `Write.nullableText`, `Write.count` — the writes
  all others are made of. A destination without enough space refuses them whole;
* `Write.patchI32` — replaces four bytes already written;
* `Write.atomic` — a composite write that takes back what it wrote when it fails;
* `Write.each` — a write for each value of a list.
-/

namespace ChatCodec

/-- Where written bytes go. -/
inductive Sink where
  /-- A buffer to append to; what it held before is its first `start` bytes. -/
  | growable (buffer : Buffer) (start : Nat)
  /-- A destination of fixed size, filled from its start. -/
  | fixed (destination : Bytes)
  deriving DecidableEq, Repr

/-- A cursor that writes; `offset` bytes are written so far. -/
structure Writer where
  sink : Sink
  offset : Nat := 0
  deriving DecidableEq, Repr

/-- A write: a value or an error, and the writer afterwards. -/
abbrev WriteM := EStateM CodecError Writer

namespace Writer

/-- A writer that appends to a buffer. -/
def growable (buffer : Buffer) : Writer :=
  { sink := .growable buffer buffer.length }

/-- A writer that fills a destination. -/
def fixed (destination : Bytes) : Writer :=
  { sink := .fixed destination }

/-- A writer that fills `size` zero bytes. -/
def ofSize (size : Nat) : Writer :=
  fixed (List.replicate size 0)

/-- The space left in a destination of fixed size; a buffer has no bound. -/
def space? (w : Writer) : Option Nat :=
  match w.sink with
  | .growable .. => none
  | .fixed destination => some (destination.length - w.offset)

/-- The bytes a reader of the sink sees: a buffer with what it held before, or the part of the
destination that is filled. -/
def visible (w : Writer) : Bytes :=
  match w.sink with
  | .growable buffer _ => buffer.bytes
  | .fixed destination => destination.take w.offset

/-- The bytes written so far. -/
def written (w : Writer) : Bytes :=
  match w.sink with
  | .growable buffer start => buffer.bytes.drop start
  | .fixed destination => destination.take w.offset

/-- Takes back what was written from `offset` on. -/
def truncate (w : Writer) (offset : Nat) : Writer :=
  match w.sink with
  | .growable buffer start => ⟨.growable (buffer.truncate (start + offset)) start, offset⟩
  | .fixed destination => ⟨.fixed destination, offset⟩

/-- Puts bytes after those written. -/
def append (w : Writer) (src : Bytes) : Writer :=
  match w.sink with
  | .growable buffer start => ⟨.growable (buffer.append src) start, w.offset + src.length⟩
  | .fixed destination =>
    ⟨.fixed (destination.overwrite w.offset src), w.offset + src.length⟩

/-- The buffer of a growable sink, or the filled part of a fixed one as a buffer. -/
def toBuffer (w : Writer) : Buffer :=
  match w.sink with
  | .growable buffer _ => buffer
  | .fixed destination => .ofBytes (destination.take w.offset)

/-- Replaces bytes already written, from position `pos` on. -/
def replace (w : Writer) (pos : Nat) (src : Bytes) : Writer :=
  match w.sink with
  | .growable buffer start =>
    { w with sink := .growable (buffer.overwrite (start + pos) src) start }
  | .fixed destination => { w with sink := .fixed (destination.overwrite pos src) }

end Writer

namespace Write

/-- The largest length or count a prefix can hold. -/
def maxPrefix : Nat := 2147483647

/-- Fails unless `need` more bytes fit. -/
def ensureSpace (need : Nat) : WriteM Unit := do
  match (← get).space? with
  | some available =>
    if available < need then
      throw (.insufficientSpace need available)
  | none => return

/-- Runs a write, taking back what it wrote if it fails. -/
def atomic {α : Type} (write : WriteM α) : WriteM α := fun w =>
  match write w with
  | .ok a w' => .ok a w'
  | .error e w' => .error e (w'.truncate w.offset)

/-- Appends bytes. -/
def bytes (src : Bytes) : WriteM Unit := do
  ensureSpace src.length
  modify fun w => w.append src

/-- Writes a fixed-width value. -/
def primitive {α : Type} (p : Primitive α) (a : α) : WriteM Unit :=
  bytes (p.encode a)

/-- The prefix of a length or count, which has 31 bits. -/
def prefix32 (n : Nat) : Except CodecError Int32 :=
  if n ≤ maxPrefix then .ok (.ofNat n) else .error (.payloadTooLarge n maxPrefix)

/-- Writes a string: its length in bytes, then UTF-8. Space for both is checked first. -/
def text (s : String) : WriteM Unit := do
  let content := Text.toBytes s
  match prefix32 content.length with
  | .ok length =>
    -- without this a short destination would keep the length alone
    ensureSpace (4 + content.length)
    primitive .i32 length
    bytes content
  | .error e => throw e

/-- Writes a string that may be absent, as length -1 when it is. -/
def nullableText : Option String → WriteM Unit
  | some s => text s
  | none => primitive .i32 (-1)

/-- Writes the count of a collection. -/
def count (n : Nat) : WriteM Unit := do
  match prefix32 n with
  | .ok count => primitive .i32 count
  | .error e => throw e

/-- Replaces the four bytes at position `pos`, all of which must be written already. -/
def patchI32 (pos : Nat) (value : Int32) : WriteM Unit := do
  let w ← get
  if w.offset < pos + 4 then
    throw (.invalidSeek pos w.offset)
  set (w.replace pos (Primitive.i32.encode value))

/-- Writes each value of a list in order. -/
def each {α : Type} (write : α → WriteM Unit) : List α → WriteM Unit
  | [] => return
  | a :: rest => do
    write a
    each write rest

end Write

end ChatCodec
