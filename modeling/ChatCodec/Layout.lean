import ChatCodec.Collection
import ChatCodec.Model.Codes
import ChatCodec.Reader
import ChatCodec.Writer

/-!
# Layouts

A `Layout α` describes how values of type `α` are laid out in bytes. Layouts are built from
primitives, strings and enumerations by pairing, collections and records, to any depth; every
value that travels inside a packet has one.

* `Layout.minSize` — a lower bound on the encoding of any value;
* `Layout.size` — the length of the encoding of a value;
* `Layout.write` and `Layout.read` — the encoding and its inverse.

A collection is its count and then its elements; a record is its fields in order, without any
separator. A collection is read only if so many elements of the least size can follow, and a set or
map only if nothing is repeated.
-/

namespace ChatCodec

/-- A record type `α` as the tuple `τ` of its fields. -/
structure RecordShape (τ α : Type) where
  ofTuple : τ → α
  toTuple : α → τ
  toTuple_ofTuple : ∀ t, toTuple (ofTuple t) = t := by intro _; rfl
  ofTuple_toTuple : ∀ a, ofTuple (toTuple a) = a := by intro _; rfl

/-- How values of a type are laid out in bytes. -/
inductive Layout : Type → Type 1
  | primitive {α : Type} (p : Primitive α) : Layout α
  /-- A string that must be there. -/
  | text : Layout String
  /-- A string that may be absent. -/
  | nullableText : Layout (Option String)
  /-- No bytes. -/
  | empty : Layout Unit
  | errorCode : Layout ErrorCode
  | enumeration {α : Type} (e : Enumeration α) : Layout α
  /-- One value, then another. -/
  | pair {α β : Type} (first : Layout α) (second : Layout β) : Layout (α × β)
  /-- The fields of a record. -/
  | record {τ α : Type} (shape : RecordShape τ α) (fields : Layout τ) : Layout α
  | list {α : Type} (element : Layout α) : Layout (List α)
  | set {α : Type} [DecidableEq α] (element : Layout α) : Layout (FiniteSet α)
  | map {κ ν : Type} [DecidableEq κ] (key : Layout κ) (value : Layout ν) : Layout (FiniteMap κ ν)
  | orderedMap {κ ν : Type} [Ord κ] [Std.TransOrd κ] [Std.LawfulEqOrd κ]
      (key : Layout κ) (value : Layout ν) : Layout (OrderedMap κ ν)

namespace Layout

/-- The fewest bytes any value takes. A string or collection takes its prefix at least. -/
def minSize {α : Type} : Layout α → Nat
  | primitive p => p.size
  | text => 4
  | nullableText => 4
  | empty => 0
  | errorCode => 1
  | enumeration _ => 1
  | pair first second => first.minSize + second.minSize
  | record _ fields => fields.minSize
  | list _ => 4
  | set _ => 4
  | map _ _ => 4
  | orderedMap _ _ => 4

/-- The number of bytes of several parts. -/
def totalSize : List Nat → Nat
  | [] => 0
  | n :: rest => n + totalSize rest

/-- The number of bytes a value takes. -/
def size {α : Type} : Layout α → α → Nat
  | primitive p, _ => p.size
  | text, s => 4 + s.utf8ByteSize
  | nullableText, s => 4 + (s.map String.utf8ByteSize).getD 0
  | empty, _ => 0
  | errorCode, _ => 1
  | enumeration _, _ => 1
  | pair first second, v => first.size v.1 + second.size v.2
  | record shape fields, v => fields.size (shape.toTuple v)
  | list element, v => 4 + totalSize (v.map element.size)
  | set element, v => 4 + totalSize (v.elements.map element.size)
  | map key value, v => 4 + totalSize (v.entries.map fun e => key.size e.1 + value.size e.2)
  | orderedMap key value, v => 4 + totalSize (v.entries.map fun e => key.size e.1 + value.size e.2)

/-- Writes a value; a failure takes back what was written of it. -/
def write {α : Type} : Layout α → α → WriteM Unit
  | primitive p, v => Write.primitive p v
  | text, s => Write.text s
  | nullableText, s => Write.nullableText s
  | empty, _ => return
  | errorCode, code => Write.primitive .i8 code.toInt8
  | enumeration e, v => Write.primitive .u8 (e.toByte v)
  | pair first second, v => Write.atomic do
    first.write v.1
    second.write v.2
  | record shape fields, v => fields.write (shape.toTuple v)
  | list element, v => Write.atomic do
    Write.count v.length
    Write.each element.write v
  | set element, v => Write.atomic do
    Write.count v.elements.length
    Write.each element.write v.elements
  | map key value, v => Write.atomic do
    Write.count v.entries.length
    Write.each (fun e => do key.write e.1; value.write e.2) v.entries
  | orderedMap key value, v => Write.atomic do
    Write.count v.entries.length
    Write.each (fun e => do key.write e.1; value.write e.2) v.entries

/-- The value an attempt to insert made, or the error of a repeated entry. -/
def orDuplicate {α : Type} (collection : CollectionKind) : Option α → ReadM α
  | some a => return a
  | none => throw (.duplicateKey collection)

/-- Reads a value; a failure leaves the cursor where it was. -/
def read {α : Type} : Layout α → ReadM α
  | primitive p => Read.primitive p
  | text => Read.requiredText
  | nullableText => Read.text
  | empty => return ()
  | errorCode => ErrorCode.ofInt8 <$> Read.primitive .i8
  | enumeration e => Read.atomic do
    let byte ← Read.primitive .u8
    match e.ofByte? byte with
    | some v => return v
    | none => throw (.unknownDiscriminant e.kind byte)
  | pair first second => Read.atomic do
    let a ← first.read
    return (a, ← second.read)
  | record shape fields => shape.ofTuple <$> fields.read
  | list element => Read.atomic do
    let n ← Read.count element.minSize
    Read.times element.read n
  | set element => Read.atomic do
    let n ← Read.count element.minSize
    Read.iterate (fun s => do orDuplicate .set (s.insert? (← element.read))) n .empty
  | map key value => Read.atomic do
    let n ← Read.count (key.minSize + value.minSize)
    -- the value of a repeated key is read before the key is refused
    Read.iterate (fun m => do
      let k ← key.read
      let v ← value.read
      orDuplicate .map (m.insert? k v)) n .empty
  | orderedMap key value => Read.atomic do
    let n ← Read.count (key.minSize + value.minSize)
    Read.iterate (fun m => do
      let k ← key.read
      let v ← value.read
      orDuplicate .map (m.insert? k v)) n .empty

/-! ## Common layouts -/

def bool : Layout Bool := primitive .bool

def u8 : Layout UInt8 := primitive .u8

def u16 : Layout UInt16 := primitive .u16

def snowflake : Layout Snowflake := primitive .snowflake

def timestamp : Layout Timestamp := primitive .timestamp

def version : Layout Version := primitive .version

def uuid : Layout Uuid := primitive .uuid

def roomKind : Layout RoomKind := enumeration RoomKind.enumeration

def userStatus : Layout UserStatus := enumeration UserStatus.enumeration

end Layout

/-! ## Single values -/

/-- Writes a value by its layout, all of it or nothing. -/
def Write.value {α : Type} (layout : Layout α) (v : α) : WriteM Unit :=
  Write.atomic (layout.write v)

/-- Reads a value by its layout, all of it or nothing. -/
def Read.value {α : Type} (layout : Layout α) : ReadM α :=
  Read.atomic layout.read

/-- Reads a value by its layout for callers that ask only whether there is one. -/
def Read.tryValue {α : Type} (layout : Layout α) : ReadM (Option α) := fun r =>
  match Read.value layout r with
  | .ok v r' => .ok (some v) r'
  | .error _ r' => .ok none r'

end ChatCodec
