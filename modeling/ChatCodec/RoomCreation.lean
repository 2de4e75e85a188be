import ChatCodec.Packet.Payload
import ChatCodec.Serializer

/-!
# Creating rooms

A request to create a room is laid out by the kind of room: the byte of the kind, then the fields
that kind has. A `RoomForms` says how the fields of each kind are written and read, and refuses the
kinds it does not name. `Serializer.groupRoom` and `Serializer.directRoom` are the forms of the two
kinds; each refuses a room of the other kind.
-/

namespace ChatCodec

/-- The fields of a group room. -/
structure CreateGroupRoom where
  name : String
  /-- Those invited besides the creator. -/
  members : List Snowflake
  deriving DecidableEq, Repr

/-- The fields of a one-to-one room. -/
structure CreateDirectRoom where
  peerId : Snowflake
  deriving DecidableEq, Repr

/-- A room to create. -/
inductive CreateRoom where
  | group (room : CreateGroupRoom)
  | direct (room : CreateDirectRoom)
  deriving DecidableEq, Repr

def CreateGroupRoom.shape : RecordShape (String × List Snowflake) CreateGroupRoom where
  ofTuple := fun (n, m) => ⟨n, m⟩
  toTuple g := (g.name, g.members)

def CreateGroupRoom.layout : Layout CreateGroupRoom :=
  .record shape (.pair .text (.list .snowflake))

def CreateDirectRoom.shape : RecordShape Snowflake CreateDirectRoom where
  ofTuple := CreateDirectRoom.mk
  toTuple d := d.peerId

def CreateDirectRoom.layout : Layout CreateDirectRoom :=
  .record shape .snowflake

/-- The kind of a room to create. -/
def CreateRoom.kind : CreateRoom → RoomKind
  | group _ => .group
  | direct _ => .direct

/-- The error of a kind of room that cannot be created here. -/
def RoomKind.unsupported (kind : RoomKind) : CodecError :=
  .unknownDiscriminant .roomKind kind.toByte

namespace Serializer

/-- The fields of a group room, without its kind. -/
def groupRoom : Serializer CreateRoom where
  maxSize
    | .group room => CreateGroupRoom.layout.size room
    | .direct _ => 0
  minSize := CreateGroupRoom.layout.minSize
  serialize
    | .group room => CreateGroupRoom.layout.write room
    | .direct _ => throw RoomKind.direct.unsupported
  deserialize := CreateRoom.group <$> CreateGroupRoom.layout.read

/-- The fields of a one-to-one room, without its kind. -/
def directRoom : Serializer CreateRoom where
  maxSize
    | .direct room => CreateDirectRoom.layout.size room
    | .group _ => 0
  minSize := CreateDirectRoom.layout.minSize
  serialize
    | .direct room => CreateDirectRoom.layout.write room
    | .group _ => throw RoomKind.group.unsupported
  deserialize := CreateRoom.direct <$> CreateDirectRoom.layout.read

end Serializer

/-- How the fields of each kind of room are laid out; a kind without a form is refused. -/
structure RoomForms where
  group? : Option (Serializer CreateRoom) := none
  direct? : Option (Serializer CreateRoom) := none

namespace RoomForms

/-- Refuses every kind. -/
def empty : RoomForms := {}

/-- Gives a kind a form, in place of the one it had. -/
def insert (forms : RoomForms) (kind : RoomKind) (form : Serializer CreateRoom) : RoomForms :=
  match kind with
  | .group => { forms with group? := some form }
  | .direct => { forms with direct? := some form }

/-- The form of a kind. -/
def get? (forms : RoomForms) : RoomKind → Option (Serializer CreateRoom)
  | .group => forms.group?
  | .direct => forms.direct?

/-- Every kind in its own form. -/
def all : RoomForms :=
  (empty.insert .group .groupRoom).insert .direct .directRoom

/-- Whether a kind has a form. -/
def supports (forms : RoomForms) (kind : RoomKind) : Bool :=
  (forms.get? kind).isSome

/-- The kinds that have a form. -/
def kinds (forms : RoomForms) : List RoomKind :=
  [RoomKind.group, .direct].filter forms.supports

/-- The form of a kind, or the error that refuses it. -/
def form (forms : RoomForms) (kind : RoomKind) : Except CodecError (Serializer CreateRoom) :=
  match forms.get? kind with
  | some form => .ok form
  | none => .error kind.unsupported

/-- The forms as people read them: the kinds in the order of their bytes. -/
def text (forms : RoomForms) : String :=
  let names := forms.kinds.map fun
    | .group => "Group"
    | .direct => "Direct"
  "CreateRoomSerializer \x7b kinds: [" ++ ", ".intercalate names ++ "] \x7d"

end RoomForms

/-- The kind of a room, then its fields in the form of that kind. -/
def Serializer.createRoom (forms : RoomForms) : Serializer CreateRoom where
  maxSize room := 1 + ((forms.get? room.kind).map (·.maxSize room)).getD 0
  -- the least of the forms; where no kind has one, nothing follows the kind
  minSize := 1 + ((forms.kinds.filterMap forms.get?).map (·.minSize)).min?.getD 0
  serialize room := do
    match forms.form room.kind with
    | .ok form => Write.atomic do
      Layout.roomKind.write room.kind
      form.serialize room
    | .error e => throw e
  deserialize := Read.atomic do
    let kind ← Layout.roomKind.read
    match forms.form kind with
    | .ok form => form.deserialize
    | .error e => throw e

end ChatCodec
