import ChatCodec.Model.Records

/-!
# Serializers

A `Serializer α` writes and reads values of `α` in one of the ways they can be laid out. Packets
hold a serializer for their body and never lay it out themselves, so one packet can be sent in
different forms.

* `Serializer.ofLayout` — the serializer of a layout;
* `Serializer.ofFunctions` — a serializer made of a write and a read;
* `Serializer.list` — a counted list of values;
* `Serializer.through` — another type's serializer, used through a pair of conversions;
* `Serializer.trySerialize`, `Serializer.tryDeserialize` — to and from byte strings.
-/

namespace ChatCodec

/-- A way to write and read values of a type. -/
structure Serializer (α : Type) where
  /-- The most bytes that writing a value takes. -/
  maxSize : α → Nat
  /-- The fewest bytes that any value takes. -/
  minSize : Nat
  serialize : α → WriteM Unit
  deserialize : ReadM α

namespace Serializer

variable {α β : Type}

/-- Writes and reads values by a layout. -/
def ofLayout (layout : Layout α) : Serializer α where
  maxSize := layout.size
  minSize := layout.minSize
  serialize := layout.write
  deserialize := layout.read

/-- Writes and reads values by two functions. The size of a value is measured by writing it; one
that cannot be written counts as the least size. -/
def ofFunctions (minSize : Nat) (write : α → WriteM Unit) (read : ReadM α) : Serializer α where
  maxSize a :=
    match write a (Writer.growable .empty) with
    | .ok _ w => w.offset
    | .error _ _ => minSize
  minSize := minSize
  serialize := write
  deserialize := read

/-- Writes and reads values of `β` as the values of `α` they stand for. -/
def through (s : Serializer α) (toWire : β → α) (ofWire : α → β) : Serializer β where
  maxSize b := s.maxSize (toWire b)
  minSize := s.minSize
  serialize b := s.serialize (toWire b)
  deserialize := ofWire <$> s.deserialize

/-- A count, then each value. -/
def list (element : Serializer α) : Serializer (List α) where
  maxSize values := 4 + Layout.totalSize (values.map element.maxSize)
  minSize := 4
  serialize values := Write.atomic do
    Write.count values.length
    Write.each element.serialize values
  deserialize := Read.atomic do
    let n ← Read.count element.minSize
    Read.times element.deserialize n

/-- The bytes of a value written into a destination of `size` bytes. -/
def trySerialize (s : Serializer α) (a : α) (size : Nat) : Except CodecError Bytes :=
  match Write.atomic (s.serialize a) (Writer.ofSize size) with
  | .ok _ w => .ok w.written
  | .error e _ => .error e

/-- The value at the start of a byte string and the number of bytes it took. -/
def tryDeserialize (s : Serializer α) (src : Bytes) : Except CodecError (α × Nat) :=
  Read.run (Read.atomic s.deserialize) src

/-! ## Records -/

def chatMessage : Serializer ChatMessage :=
  ofLayout ChatMessage.layout

def userInfo : Serializer UserInfo :=
  ofLayout UserInfo.layout

/-- Rooms with their members. -/
def roomInfo : Serializer RoomInfo :=
  ofLayout RoomInfo.layout

/-- Rooms for listings; the members are not sent and are read as none. -/
def roomSummary : Serializer RoomInfo :=
  (ofLayout RoomInfo.headLayout).through RoomInfo.head (RoomInfo.ofHead · [])

end Serializer

end ChatCodec
