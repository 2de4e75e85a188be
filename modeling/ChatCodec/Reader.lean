import ChatCodec.Primitive
import ChatCodec.Segments
import ChatCodec.Text

/-!
# Reading

A `Reader` is a cursor over bytes that lie in one string or in several segments. `ReadM α` is a
read: it answers a value or a `CodecError` and moves the cursor.

* `Read.primitive`, `Read.bytes`, `Read.text`, `Read.requiredText`, `Read.count` — the reads all
  others are made of. Each checks that enough bytes remain before it looks at them, and leaves the
  cursor where it was when it fails;
* `Read.atomic` — a composite read that puts the cursor back when it fails;
* `Read.within` — a read that sees only the next few bytes;
* `Read.times`, `Read.iterate` — a read repeated.
-/

namespace ChatCodec

/-- Where the bytes of a reader lie. -/
inductive Source where
  | contiguous (bytes : Bytes)
  | segmented (segments : Segments)
  deriving DecidableEq, Repr

namespace Source

/-- All bytes in order. -/
def bytes : Source → Bytes
  | contiguous bytes => bytes
  | segmented segments => segments.toBytes

def size : Source → Nat
  | contiguous bytes => bytes.length
  | segmented segments => segments.size

/-- The `len` bytes from `offset` on, taken together as a fixed-width value is. -/
def copy? : Source → Nat → Nat → Option Bytes
  | contiguous bytes, offset, len =>
    if offset + len ≤ bytes.length then some (bytes.window offset len) else none
  | segmented segments, offset, len => segments.copy? offset len

/-- The `len` bytes from `offset` on, taken from a single segment where they lie in one. -/
def slice? : Source → Nat → Nat → Option Bytes
  | contiguous bytes, offset, len => (contiguous bytes).copy? offset len
  | segmented segments, offset, len =>
    match segments.sliceWithin? offset len with
    | some bytes => some bytes
    -- a range across a boundary is gathered from its pieces
    | none => segments.copy? offset len

end Source

/-- A cursor over bytes. Reads may go up to `capacity`, which a limited read lowers. -/
structure Reader where
  source : Source
  offset : Nat
  capacity : Nat
  deriving DecidableEq, Repr

/-- A read: a value or an error, and the cursor afterwards. -/
abbrev ReadM := EStateM CodecError Reader

namespace Reader

/-- A cursor at the start of a byte string. -/
def ofBytes (bytes : Bytes) : Reader :=
  ⟨.contiguous bytes, 0, bytes.length⟩

/-- A cursor at the start of a segmented buffer; a single segment is read as a byte string. -/
def ofSegments (segments : Segments) : Reader :=
  if segments.isContiguous then
    ofBytes segments.first
  else
    ⟨.segmented segments, 0, segments.size⟩

def isContiguous (r : Reader) : Bool :=
  match r.source with
  | .contiguous _ => true
  | .segmented _ => false

/-- Bytes left before the capacity. -/
def remaining (r : Reader) : Nat :=
  r.capacity - r.offset

def isEmpty (r : Reader) : Bool :=
  r.remaining == 0

/-- The bytes a read may still look at. -/
def rest (r : Reader) : Bytes :=
  r.source.bytes.window r.offset r.remaining

end Reader

namespace Read

/-- The length prefix that marks an absent string. -/
def nullLength : Int32 := -1

/-- The largest count accepted for elements that occupy no bytes. -/
def maxEmptyElements : Nat := 65536

/-! ## Moving the cursor -/

/-- Fails unless `need` bytes remain. -/
def ensure (need : Nat) : ReadM Unit := do
  let r ← get
  if r.remaining < need then
    throw (.insufficientData need r.remaining)

/-- Moves to an absolute offset. -/
def seek (offset : Nat) : ReadM Unit := do
  let r ← get
  if r.capacity < offset then
    throw (.invalidSeek offset r.capacity)
  set { r with offset }

/-- Passes over `count` bytes. -/
def skip (count : Nat) : ReadM Unit := do
  ensure count
  modify fun r => { r with offset := r.offset + count }

/-- Runs a read, putting the cursor back where it was if it fails. -/
def atomic {α : Type} (read : ReadM α) : ReadM α := fun r =>
  match read r with
  | .ok a r' => .ok a r'
  | .error e r' => .error e { r' with offset := r.offset }

/-- Runs a read that sees only the next `len` bytes. The limit is lifted again afterwards, and a
failure puts the cursor back. -/
def within {α : Type} (len : Nat) (read : ReadM α) : ReadM α := do
  ensure len
  fun r =>
    match atomic read { r with capacity := r.offset + len } with
    | .ok a r' => .ok a { r' with capacity := r.capacity }
    | .error e r' => .error e { r' with capacity := r.capacity }

/-! ## Values -/

/-- Takes the next `len` bytes as `fetch` finds them in the source. -/
def take (fetch : Source → Nat → Nat → Option Bytes) (len : Nat) : ReadM Bytes := do
  ensure len
  let r ← get
  match fetch r.source r.offset len with
  | some bytes => return bytes
  -- not met as long as the capacity lies inside the source
  | none => throw (.insufficientData len r.remaining)

/-- Reads a fixed-width value. -/
def primitive {α : Type} (p : Primitive α) : ReadM α := do
  let bytes ← take Source.copy? p.size
  match p.decode bytes with
  | .ok a =>
    modify fun r => { r with offset := r.offset + p.size }
    return a
  | .error e => throw e

/-- Reads `len` bytes. -/
def bytes (len : Nat) : ReadM Bytes := do
  let bytes ← take Source.slice? len
  modify fun r => { r with offset := r.offset + len }
  return bytes

/-- Reads the rest of a string that may be absent, given its length. -/
def textOfLength (length : Int32) : ReadM (Option String) := do
  if length = nullLength then
    return none
  if length < nullLength then
    throw (.invalidLength length)
  let content ← bytes length.toInt.toNat
  match Text.ofBytes? content with
  | some s => return some s
  | none => throw .invalidUtf8

/-- Reads a string that may be absent: its length in bytes, -1 for an absent one, then UTF-8. -/
def text : ReadM (Option String) := atomic do
  textOfLength (← primitive .i32)

/-- Reads a string that must be there. -/
def requiredText : ReadM String := atomic do
  match ← text with
  | some s => return s
  | none => throw .unexpectedNull

/-- Accepts the count of a collection whose elements take at least `minSize` bytes each if so many
elements can follow. Elements that may take no bytes are limited in number instead. The product of
count and size is checked to fit in 64 bits before it is compared. -/
def countOfPrefix (minSize : Nat) (prefixed : Int32) : ReadM Nat := do
  if prefixed < 0 then
    throw (.invalidLength prefixed)
  let count := prefixed.toInt.toNat
  -- elements without bytes would let a short input ask for any number of them
  if minSize = 0 ∧ maxEmptyElements < count then
    throw (.invalidLength prefixed)
  if UInt64.size ≤ count * minSize then
    throw (.invalidLength prefixed)
  ensure (count * minSize)
  return count

/-- Reads the count of a collection whose elements take at least `minSize` bytes each. -/
def count (minSize : Nat) : ReadM Nat := atomic do
  countOfPrefix minSize (← primitive .i32)

/-- Runs a read on a byte string from its start. Answers the value and the bytes consumed. -/
def run {α : Type} (read : ReadM α) (src : Bytes) : Except CodecError (α × Nat) :=
  match read (Reader.ofBytes src) with
  | .ok a r => .ok (a, r.offset)
  | .error e _ => .error e

/-! ## Repetition -/

/-- Threads a value through `n` runs of a read. -/
def iterate {σ : Type} (step : σ → ReadM σ) : Nat → σ → ReadM σ
  | 0, s => return s
  | n + 1, s => do iterate step n (← step s)

/-- Reads `n` values in order. -/
def times {α : Type} (read : ReadM α) : Nat → ReadM (List α)
  | 0 => return []
  | n + 1 => do
    let a ← read
    return a :: (← times read n)

end Read

end ChatCodec
