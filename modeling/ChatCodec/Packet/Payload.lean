import ChatCodec.Model.Records

/-!
# Payloads

What requests ask for and what responses and broadcasts report, without the envelope around it.
Each payload is a record laid out as its fields in order.
-/

namespace ChatCodec

/-! ## Sessions -/

structure Login where
  username : String
  password : String
  clientVersion : Version
  deriving DecidableEq, Repr

structure Register where
  username : String
  password : String
  displayName : Option String
  deriving DecidableEq, Repr

structure Logout where
  allDevices : Bool
  deriving DecidableEq, Repr

structure RefreshSession where
  clientVersion : Version
  deriving DecidableEq, Repr

/-- What a successful login hands out. -/
structure LoginGrant where
  user : UserInfo
  sessionId : Uuid
  token : String
  deriving DecidableEq, Repr

/-! ## Rooms -/

structure JoinRoom where
  roomId : Snowflake
  deriving DecidableEq, Repr

structure LeaveRoom where
  roomId : Snowflake
  deriving DecidableEq, Repr

structure DeleteRoom where
  roomId : Snowflake
  deriving DecidableEq, Repr

structure KickMember where
  roomId : Snowflake
  userId : Snowflake
  reason : Option String
  deriving DecidableEq, Repr

structure FetchRooms where
  includeMembers : Bool
  deriving DecidableEq, Repr

structure UserJoined where
  roomId : Snowflake
  user : UserInfo
  deriving DecidableEq, Repr

structure UserLeft where
  roomId : Snowflake
  userId : Snowflake
  deriving DecidableEq, Repr

structure RoomDeleted where
  roomId : Snowflake
  deriving DecidableEq, Repr

/-! ## Messages -/

structure PostMessage where
  roomId : Snowflake
  content : String
  mentions : List Snowflake
  deriving DecidableEq, Repr

/-- Asks for at most `limit` messages older than `before`, the newest ones where `before` names
nothing. -/
structure FetchMessages where
  roomId : Snowflake
  before : Snowflake
  limit : UInt16
  deriving DecidableEq, Repr

/-- A login with the version clients speak today. -/
def Login.withCurrentVersion (username password : String) : Login :=
  ⟨username, password, .current⟩

/-! ## Shapes and layouts

Each payload as the tuple of its fields, and the layout of that tuple.
-/

def Login.shape : RecordShape (String × String × Version) Login where
  ofTuple := fun (u, p, v) => ⟨u, p, v⟩
  toTuple l := (l.username, l.password, l.clientVersion)

def Login.layout : Layout Login :=
  .record shape (.pair .text (.pair .text .version))

def Register.shape : RecordShape (String × String × Option String) Register where
  ofTuple := fun (u, p, d) => ⟨u, p, d⟩
  toTuple r := (r.username, r.password, r.displayName)

def Register.layout : Layout Register :=
  .record shape (.pair .text (.pair .text .nullableText))

def Logout.shape : RecordShape Bool Logout where
  ofTuple := Logout.mk
  toTuple l := l.allDevices

def Logout.layout : Layout Logout :=
  .record shape .bool

def RefreshSession.shape : RecordShape Version RefreshSession where
  ofTuple := RefreshSession.mk
  toTuple r := r.clientVersion

def RefreshSession.layout : Layout RefreshSession :=
  .record shape .version

def LoginGrant.shape : RecordShape (UserInfo × Uuid × String) LoginGrant where
  ofTuple := fun (u, s, t) => ⟨u, s, t⟩
  toTuple g := (g.user, g.sessionId, g.token)

def LoginGrant.layout : Layout LoginGrant :=
  .record shape (.pair UserInfo.layout (.pair .uuid .text))

def JoinRoom.shape : RecordShape Snowflake JoinRoom where
  ofTuple := JoinRoom.mk
  toTuple j := j.roomId

def JoinRoom.layout : Layout JoinRoom :=
  .record shape .snowflake

def LeaveRoom.shape : RecordShape Snowflake LeaveRoom where
  ofTuple := LeaveRoom.mk
  toTuple l := l.roomId

def LeaveRoom.layout : Layout LeaveRoom :=
  .record shape .snowflake

def DeleteRoom.shape : RecordShape Snowflake DeleteRoom where
  ofTuple := DeleteRoom.mk
  toTuple d := d.roomId

def DeleteRoom.layout : Layout DeleteRoom :=
  .record shape .snowflake

def KickMember.shape : RecordShape (Snowflake × Snowflake × Option String) KickMember where
  ofTuple := fun (r, u, w) => ⟨r, u, w⟩
  toTuple k := (k.roomId, k.userId, k.reason)

def KickMember.layout : Layout KickMember :=
  .record shape (.pair .snowflake (.pair .snowflake .nullableText))

def FetchRooms.shape : RecordShape Bool FetchRooms where
  ofTuple := FetchRooms.mk
  toTuple f := f.includeMembers

def FetchRooms.layout : Layout FetchRooms :=
  .record shape .bool

def UserJoined.shape : RecordShape (Snowflake × UserInfo) UserJoined where
  ofTuple := fun (r, u) => ⟨r, u⟩
  toTuple j := (j.roomId, j.user)

def UserJoined.layout : Layout UserJoined :=
  .record shape (.pair .snowflake UserInfo.layout)

def UserLeft.shape : RecordShape (Snowflake × Snowflake) UserLeft where
  ofTuple := fun (r, u) => ⟨r, u⟩
  toTuple l := (l.roomId, l.userId)

def UserLeft.layout : Layout UserLeft :=
  .record shape (.pair .snowflake .snowflake)

def RoomDeleted.shape : RecordShape Snowflake RoomDeleted where
  ofTuple := RoomDeleted.mk
  toTuple d := d.roomId

def RoomDeleted.layout : Layout RoomDeleted :=
  .record shape .snowflake

def PostMessage.shape : RecordShape (Snowflake × String × List Snowflake) PostMessage where
  ofTuple := fun (r, c, m) => ⟨r, c, m⟩
  toTuple p := (p.roomId, p.content, p.mentions)

def PostMessage.layout : Layout PostMessage :=
  .record shape (.pair .snowflake (.pair .text (.list .snowflake)))

def FetchMessages.shape : RecordShape (Snowflake × Snowflake × UInt16) FetchMessages where
  ofTuple := fun (r, b, l) => ⟨r, b, l⟩
  toTuple f := (f.roomId, f.before, f.limit)

def FetchMessages.layout : Layout FetchMessages :=
  .record shape (.pair .snowflake (.pair .snowflake .u16))

end ChatCodec
