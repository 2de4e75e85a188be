import ChatCodec.Layout

/-!
# Records

The records packets carry: chat messages, users and rooms. Each is laid out as its fields in order
(`ChatMessage.layout`, `UserInfo.layout`, `RoomInfo.layout`). A room also has a compact layout for
listings, `RoomInfo.headLayout`, which leaves out its members.
-/

namespace ChatCodec

/-- A message posted to a room. -/
structure ChatMessage where
  id : Snowflake
  roomId : Snowflake
  authorId : Snowflake
  content : String
  sentAt : Timestamp
  mentions : List Snowflake
  deriving DecidableEq, Repr

/-- What others see of a user. -/
structure UserInfo where
  id : Snowflake
  username : String
  displayName : Option String
  status : UserStatus
  lastSeen : ZonedTimestamp
  deriving DecidableEq, Repr

/-- A room and its members. -/
structure RoomInfo where
  id : Snowflake
  kind : RoomKind
  /-- Direct rooms have no name. -/
  name : Option String
  ownerId : Snowflake
  createdAt : Timestamp
  members : List Snowflake
  deriving DecidableEq, Repr

namespace ChatMessage

/-- A message as its fields in order. -/
def shape : RecordShape
    (Snowflake × Snowflake × Snowflake × String × Timestamp × List Snowflake) ChatMessage where
  ofTuple := fun (id, roomId, authorId, content, sentAt, mentions) =>
    { id, roomId, authorId, content, sentAt, mentions }
  toTuple m := (m.id, m.roomId, m.authorId, m.content, m.sentAt, m.mentions)

def layout : Layout ChatMessage :=
  .record shape (.pair .snowflake (.pair .snowflake (.pair .snowflake (.pair .text
    (.pair .timestamp (.list .snowflake))))))

end ChatMessage

namespace UserInfo

/-- A user as its fields in order. -/
def shape : RecordShape (Snowflake × String × Option String × UserStatus × ZonedTimestamp)
    UserInfo where
  ofTuple := fun (id, username, displayName, status, lastSeen) =>
    { id, username, displayName, status, lastSeen }
  toTuple u := (u.id, u.username, u.displayName, u.status, u.lastSeen)

def layout : Layout UserInfo :=
  .record shape (.pair .snowflake (.pair .text (.pair .nullableText (.pair .userStatus
    (.primitive .zonedTimestamp)))))

end UserInfo

namespace RoomInfo

/-- All fields but the members. -/
abbrev Head := Snowflake × RoomKind × Option String × Snowflake × Timestamp

def headLayout : Layout Head :=
  .pair .snowflake (.pair .roomKind (.pair .nullableText (.pair .snowflake .timestamp)))

/-- The fields before the members. -/
def head (room : RoomInfo) : Head :=
  (room.id, room.kind, room.name, room.ownerId, room.createdAt)

/-- The room of a head and members. -/
def ofHead (head : Head) (members : List Snowflake) : RoomInfo :=
  let (id, kind, name, ownerId, createdAt) := head
  { id, kind, name, ownerId, createdAt, members }

/-- The room without its members. -/
def withoutMembers (room : RoomInfo) : RoomInfo :=
  { room with members := [] }

/-- A room as its head and its members. -/
def shape : RecordShape (Head × List Snowflake) RoomInfo where
  ofTuple := fun (head, members) => ofHead head members
  toTuple room := (room.head, room.members)

def layout : Layout RoomInfo :=
  .record shape (.pair headLayout (.list .snowflake))

end RoomInfo

end ChatCodec
