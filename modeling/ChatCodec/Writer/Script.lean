import ChatCodec.Layout

/-!
# Writing scripts

A sequence of writes as data, so that what holds of every use of a writer can be stated and
checked:

* `Writing` — one write, of a primitive, a string, a value, or over bytes already written;
* `WriteStep` — a write, or a block of steps that takes back what it wrote when one fails;
* `WriteStep.run` — runs a block up to its first failure;
* `WriteStep.trace` — runs steps one after another, failing or not, and records what each answered
  and the writer after it.
-/

namespace ChatCodec

/-- A single write. -/
inductive Writing : Type 1
  | primitive {α : Type} (p : Primitive α) (a : α)
  | text (s : String)
  | nullableText (s : Option String)
  | bytes (src : Bytes)
  | count (n : Nat)
  | value {α : Type} (layout : Layout α) (v : α)
  /-- Replaces four bytes at a position already written. -/
  | patch (pos : Nat) (n : Int32)
  /-- A failure the script decides on. -/
  | fail (e : CodecError)

/-- Runs a single write. -/
def Writing.run : Writing → WriteM Unit
  | primitive p a => Write.primitive p a
  | text s => Write.text s
  | nullableText s => Write.nullableText s
  | bytes src => Write.bytes src
  | count n => Write.count n
  | value layout v => Write.value layout v
  | patch pos n => Write.patchI32 pos n
  | fail e => throw e

/-- A step of a script. -/
inductive WriteStep : Type 1
  | write (writing : Writing)
  /-- Steps that take back what they wrote when one of them fails. -/
  | atomic (steps : List WriteStep)

namespace WriteStep

mutual

/-- Runs one step. -/
def run : WriteStep → WriteM Unit
  | write writing => writing.run
  | atomic steps => Write.atomic (runBlock steps)

/-- Runs steps up to the first that fails. -/
def runBlock : List WriteStep → WriteM Unit
  | [] => return
  | step :: steps => do
    step.run
    runBlock steps

end

/-- What a step of a trace answered and the writer after it. -/
abbrev Record := Except CodecError Unit × Writer

/-- Runs each step on the writer the one before left, failed or not. -/
def trace : List WriteStep → Writer → List Record
  | [], _ => []
  | step :: steps, w =>
    match step.run w with
    | .ok _ w => (.ok (), w) :: trace steps w
    | .error e w => (.error e, w) :: trace steps w

end WriteStep

end ChatCodec
