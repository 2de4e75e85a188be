import ChatCodec.Layout
import ChatCodec.Packet.Header

/-!
# Reading programs

What a caller may do with a reader, as data, so that what holds of every use of a reader can be
stated and checked:

* `Reading α` — one read, of a primitive, a string, a value or a header, a move of the cursor, or a
  look at where it stands;
* `ReadProgram α` — reads one after another, each chosen from what those before it answered, failing
  ones included. Inside, a part may see only the next few bytes or put the cursor back when it
  fails;
* `ReadProgram.run` — what a program answers;
* `ReadProgram.trace` — what each of its steps answered and where it left the cursor.
-/

namespace ChatCodec

/-- Where a cursor stands and how far it may go. -/
structure Reader.Position where
  offset : Nat
  remaining : Nat
  capacity : Nat
  deriving DecidableEq, Repr

def Reader.position (r : Reader) : Reader.Position :=
  ⟨r.offset, r.remaining, r.capacity⟩

/-- A single read; the index is the type of what it answers. -/
inductive Reading : Type → Type 1
  | primitive {α : Type} (p : Primitive α) : Reading α
  | text : Reading (Option String)
  | requiredText : Reading String
  | bytes (len : Nat) : Reading Bytes
  | count (minSize : Nat) : Reading Nat
  | seek (offset : Nat) : Reading Unit
  | skip (n : Nat) : Reading Unit
  | value {α : Type} (layout : Layout α) : Reading α
  | tryValue {α : Type} (layout : Layout α) : Reading (Option α)
  | header (signature : UInt16) (limit : Nat) : Reading Header
  | position : Reading Reader.Position

/-- Runs a single read. -/
def Reading.run {α : Type} : Reading α → ReadM α
  | primitive p => Read.primitive p
  | text => Read.text
  | requiredText => Read.requiredText
  | bytes len => Read.bytes len
  | count minSize => Read.count minSize
  | seek offset => Read.seek offset
  | skip n => Read.skip n
  | value layout => Read.value layout
  | tryValue layout => Read.tryValue layout
  | header signature limit => Header.read signature limit
  | position => Reader.position <$> get

/-- A program of reads that ends with an `α` or an error. After each step it goes on with what
the step answered, be it an error. -/
inductive ReadProgram : Type → Type 1
  | done {α : Type} (result : Except CodecError α) : ReadProgram α
  | read {α β : Type} (reading : Reading β) (next : Except CodecError β → ReadProgram α) :
      ReadProgram α
  /-- A part that sees only the next `len` bytes. -/
  | within {α β : Type} (len : Nat) (body : ReadProgram β)
      (next : Except CodecError β → ReadProgram α) : ReadProgram α
  /-- A part that puts the cursor back when it fails. -/
  | atomic {α β : Type} (body : ReadProgram β) (next : Except CodecError β → ReadProgram α) :
      ReadProgram α

/-- What a read answers, an error or not, and the cursor after it. -/
def Read.outcome {α : Type} (read : ReadM α) (r : Reader) : Except CodecError α × Reader :=
  match read r with
  | .ok a r' => (.ok a, r')
  | .error e r' => (.error e, r')

/-- A step of a program that came to its end: what it answered and where it left the cursor. -/
structure ReadRecord : Type 1 where
  {β : Type}
  answer : Except CodecError β
  position : Reader.Position

namespace ReadProgram

/-- Runs a program. -/
def run {α : Type} : ReadProgram α → ReadM α
  | done (.ok a) => return a
  | done (.error e) => throw e
  | read reading next => fun r =>
    let (answer, r) := Read.outcome reading.run r
    (next answer).run r
  | within len body next => fun r =>
    let (answer, r) := Read.outcome (Read.within len body.run) r
    (next answer).run r
  | atomic body next => fun r =>
    let (answer, r) := Read.outcome (Read.atomic body.run) r
    (next answer).run r

/-- The steps of a run in the order in which they come to their end. -/
def trace {α : Type} : ReadProgram α → Reader → List ReadRecord
  | done _, _ => []
  | read reading next, r =>
    let (answer, after) := Read.outcome reading.run r
    ⟨answer, after.position⟩ :: (next answer).trace after
  | within len body next, r =>
    let (answer, after) := Read.outcome (Read.within len body.run) r
    -- the part does not begin unless so many bytes are there
    let inner := if r.remaining < len then [] else body.trace { r with capacity := r.offset + len }
    inner ++ ⟨answer, after.position⟩ :: (next answer).trace after
  | atomic body next, r =>
    let (answer, after) := Read.outcome (Read.atomic body.run) r
    body.trace r ++ ⟨answer, after.position⟩ :: (next answer).trace after

end ReadProgram

end ChatCodec
