import ChatCodec.Writer.Script

/-!
# Writing programs

What a caller may do with a writer, as data, so that what holds of every use of a writer can be
stated and checked:

* `WriteProgram α` — single writes one after another, each chosen from what those before it
  answered, failing ones included, and from how much is written. A part inside may take back what
  it wrote when it fails;
* `WriteProgram.run` — what a program answers and the writer it leaves;
* `Layout.program` — the writes that a value is made of, and `WriteProgram.value` — such a value as
  a step of a program;
* `WriteProgram.steps` — the steps of a run, those inside of parts included, and
  `WriteProgram.writers` — the writers they leave;
* `WriteProgram.Taken.record` — what is seen of a step from outside.
-/

namespace ChatCodec

/-- What a write answers, an error or not, and the writer after it. -/
def Write.outcome {α : Type} (write : WriteM α) (w : Writer) : Except CodecError α × Writer :=
  match write w with
  | .ok a w' => (.ok a, w')
  | .error e w' => (.error e, w')

/-- The write is not made of others. Only a value is. -/
def Writing.isSingle : Writing → Bool
  | value _ _ => false
  | _ => true

/-- A program of writes that ends with an `α` or an error. After each step it goes on with what the
step answered, be it an error. -/
inductive WriteProgram : Type → Type 1
  | done {α : Type} (result : Except CodecError α) : WriteProgram α
  | write {α : Type} (writing : Writing) (single : writing.isSingle = true)
      (next : Except CodecError Unit → WriteProgram α) : WriteProgram α
  /-- A look at the number of bytes written. -/
  | written {α : Type} (next : Nat → WriteProgram α) : WriteProgram α
  /-- A part that takes back what it wrote when it fails. -/
  | atomic {α β : Type} (body : WriteProgram β) (next : Except CodecError β → WriteProgram α) :
      WriteProgram α

namespace WriteProgram

/-- Runs a program. -/
def run {α : Type} : WriteProgram α → WriteM α
  | done (.ok a) => return a
  | done (.error e) => throw e
  | write writing _ next => fun w =>
    let (answer, w) := Write.outcome writing.run w
    (next answer).run w
  | written next => fun w => (next w.offset).run w
  | atomic body next => fun w =>
    let (answer, w) := Write.outcome (Write.atomic body.run) w
    (next answer).run w

/-! ## Composition -/

/-- A single write. -/
def single (writing : Writing) (h : writing.isSingle = true) : WriteProgram Unit :=
  write writing h done

/-- A part with rollback. -/
def block {α : Type} (body : WriteProgram α) : WriteProgram α :=
  atomic body done

/-- One program and then another, unless the first fails. -/
def andThen {α β : Type} : WriteProgram α → (α → WriteProgram β) → WriteProgram β
  | done (.ok a), second => second a
  | done (.error e), _ => done (.error e)
  | write writing h next, second => write writing h fun answer => (next answer).andThen second
  | written next, second => written fun n => (next n).andThen second
  | atomic body next, second => atomic body fun answer => (next answer).andThen second

/-- A program for each value of a list, up to the first that fails. -/
def each {α : Type} (program : α → WriteProgram Unit) : List α → WriteProgram Unit
  | [] => done (.ok ())
  | a :: rest => (program a).andThen fun _ => each program rest

/-- A count and then a program for each value, as one part with rollback. -/
def counted {α : Type} (program : α → WriteProgram Unit) (values : List α) : WriteProgram Unit :=
  block ((single (.count values.length) rfl).andThen fun _ => each program values)

end WriteProgram

/-! ## Values -/

open WriteProgram in
/-- The single writes that a value is made of, in their parts with rollback. -/
def Layout.program {α : Type} : Layout α → α → WriteProgram Unit
  | primitive p, v => single (.primitive p v) rfl
  | text, s => single (.text s) rfl
  | nullableText, s => single (.nullableText s) rfl
  | empty, _ => done (.ok ())
  | errorCode, code => single (.primitive .i8 code.toInt8) rfl
  | enumeration e, v => single (.primitive .u8 (e.toByte v)) rfl
  | pair first second, v => block ((first.program v.1).andThen fun _ => second.program v.2)
  | record shape fields, v => fields.program (shape.toTuple v)
  | list element, v => counted element.program v
  | set element, v => counted element.program v.elements
  | map key value, v =>
    counted (fun e => (key.program e.1).andThen fun _ => value.program e.2) v.entries
  | orderedMap key value, v =>
    counted (fun e => (key.program e.1).andThen fun _ => value.program e.2) v.entries

/-- A value as a step of a program. -/
def WriteProgram.value {α β : Type} (layout : Layout β) (v : β)
    (next : Except CodecError Unit → WriteProgram α) : WriteProgram α :=
  atomic (layout.program v) next

/-! ## Steps -/

/-- A step of a program; the index is the type of what it answers. -/
inductive WriteAct : Type → Type 1
  | write (writing : Writing) (single : writing.isSingle = true) : WriteAct Unit
  | atomic {α : Type} (body : WriteProgram α) : WriteAct α

namespace WriteAct

def run {α : Type} : WriteAct α → WriteM α
  | write writing _ => writing.run
  | atomic body => Write.atomic body.run

/-- The position over which a step writes. -/
def patched? {α : Type} : WriteAct α → Option Nat
  | write (.patch pos _) _ => some pos
  | _ => none

end WriteAct

namespace WriteProgram

/-- A step as it was taken. -/
structure Taken : Type 1 where
  {β : Type}
  act : WriteAct β
  before : Writer

namespace Taken

def answer (t : Taken) : Except CodecError t.β :=
  (Write.outcome t.act.run t.before).1

def after (t : Taken) : Writer :=
  (Write.outcome t.act.run t.before).2

end Taken

/-- The steps of a run in the order in which they come to their end, each with the writer it was
taken on. -/
def steps {α : Type} : WriteProgram α → Writer → List Taken
  | done _, _ => []
  | write writing single next, w =>
    let t : Taken := ⟨.write writing single, w⟩
    t :: (next t.answer).steps t.after
  | written next, w => (next w.offset).steps w
  | atomic body next, w =>
    let t : Taken := ⟨.atomic body, w⟩
    body.steps w ++ t :: (next t.answer).steps t.after

end WriteProgram

/-- The steps inside a step. -/
def WriteAct.inner {α : Type} : WriteAct α → Writer → List WriteProgram.Taken
  | write _ _, _ => []
  | atomic body, w => body.steps w

namespace WriteProgram

/-- The writers of a run: those that its steps leave, and the one left in the end. -/
def writers {α : Type} (program : WriteProgram α) (w : Writer) : List Writer :=
  (program.steps w).map Taken.after ++ [(Write.outcome program.run w).2]

/-- What is seen of a step from outside: what was done, what it answered, how many bytes were
written then, and which. -/
structure Record : Type 1 where
  {β : Type}
  act : WriteAct β
  answer : Except CodecError β
  offset : Nat
  written : Bytes

def Taken.record (t : Taken) : Record :=
  ⟨t.act, t.answer, t.after.offset, t.after.written⟩

end WriteProgram

end ChatCodec
