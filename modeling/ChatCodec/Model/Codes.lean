import ChatCodec.Error

/-!
# Codes

The small enumerations that appear inside packets, with their wire values:

* `ErrorCode` — the outcome a response reports. A value without a name is kept as `unknown`;
* `RoomKind` and `UserStatus` — closed enumerations, which refuse a value without a name.

`Enumeration α` is what the layouts need to know of a closed enumeration.
-/

namespace ChatCodec

/-- A closed enumeration: a byte for every value, no two values sharing one. -/
structure Enumeration (α : Type) where
  kind : DiscriminantKind
  toByte : α → UInt8
  ofByte? : UInt8 → Option α
  ofByte?_toByte : ∀ a, ofByte? (toByte a) = some a
  toByte_of_ofByte? : ∀ byte a, ofByte? byte = some a → toByte a = byte

/-! ## Rooms and users -/

/-- The kind of a room, also the discriminant of a request to create one. -/
inductive RoomKind where
  | group
  | direct
  deriving DecidableEq, Repr

/-- Whether a user can be reached. -/
inductive UserStatus where
  | offline
  | online
  | away
  | busy
  deriving DecidableEq, Repr

namespace RoomKind

def toByte : RoomKind → UInt8
  | group => 1
  | direct => 2

def ofByte? (byte : UInt8) : Option RoomKind :=
  if byte = 1 then some group
  else if byte = 2 then some direct
  else none

theorem ofByte?_toByte (kind : RoomKind) : ofByte? kind.toByte = some kind := by
  cases kind <;> rfl

theorem toByte_of_ofByte? {byte : UInt8} {kind : RoomKind} (h : ofByte? byte = some kind) :
    kind.toByte = byte := by
  grind [ofByte?, toByte]

/-- The wire form of a room kind. -/
def enumeration : Enumeration RoomKind where
  kind := .roomKind
  toByte := toByte
  ofByte? := ofByte?
  ofByte?_toByte := ofByte?_toByte
  toByte_of_ofByte? _ _ := toByte_of_ofByte?

end RoomKind

namespace UserStatus

def toByte : UserStatus → UInt8
  | offline => 0
  | online => 1
  | away => 2
  | busy => 3

def ofByte? (byte : UInt8) : Option UserStatus :=
  if byte = 0 then some offline
  else if byte = 1 then some online
  else if byte = 2 then some away
  else if byte = 3 then some busy
  else none

theorem ofByte?_toByte (status : UserStatus) : ofByte? status.toByte = some status := by
  cases status <;> rfl

theorem toByte_of_ofByte? {byte : UInt8} {status : UserStatus} (h : ofByte? byte = some status) :
    status.toByte = byte := by
  grind [ofByte?, toByte]

/-- The wire form of a user status. -/
def enumeration : Enumeration UserStatus where
  kind := .userStatus
  toByte := toByte
  ofByte? := ofByte?
  ofByte?_toByte := ofByte?_toByte
  toByte_of_ofByte? _ _ := toByte_of_ofByte?

end UserStatus

/-! ## Outcomes -/

/-- The outcome a response reports. -/
inductive ErrorCode where
  | success
  | invalidCredentials
  | usernameTaken
  | unauthorized
  | sessionExpired
  | unsupportedVersion
  | roomNotFound
  | roomFull
  | notRoomMember
  | alreadyMember
  | permissionDenied
  | userNotFound
  | messageTooLong
  | rateLimited
  | internalError
  /-- A value kept as it came. -/
  | unknown (value : Int8)
  deriving DecidableEq, Repr

namespace ErrorCode

/-- The wire value of a code. -/
def toInt8 : ErrorCode → Int8
  | success => 0
  | invalidCredentials => 1
  | usernameTaken => 2
  | unauthorized => 3
  | sessionExpired => 4
  | unsupportedVersion => 5
  | roomNotFound => 10
  | roomFull => 11
  | notRoomMember => 12
  | alreadyMember => 13
  | permissionDenied => 14
  | userNotFound => 20
  | messageTooLong => 30
  | rateLimited => 31
  | internalError => -1
  | unknown value => value

/-- The codes that have a name, in order of declaration. -/
def named : List ErrorCode :=
  [success, invalidCredentials, usernameTaken, unauthorized, sessionExpired, unsupportedVersion,
    roomNotFound, roomFull, notRoomMember, alreadyMember, permissionDenied, userNotFound,
    messageTooLong, rateLimited, internalError]

/-- The code of a wire value: the named one if there is one. -/
def ofInt8 (value : Int8) : ErrorCode :=
  (named.find? (·.toInt8 == value)).getD (unknown value)

/-- Only the code named success is one; an unknown code with its wire value is not. -/
def isSuccess (code : ErrorCode) : Bool :=
  code == success

@[simp] theorem toInt8_ofInt8 (value : Int8) : (ofInt8 value).toInt8 = value := by
  unfold ofInt8
  cases h : named.find? (·.toInt8 == value) with
  | none => rfl
  | some code => simpa using List.find?_some h

end ErrorCode

end ChatCodec
