import ChatCodec.Envelope
import ChatCodec.Packet.Body
import ChatCodec.RoomCreation

/-!
# The packet catalogue

`Packet` names every packet the protocol knows: requests, responses and broadcasts. For each,

* `Packet.code` and `Packet.name` — its type code and its name;
* `Packet.Body` — the type of its body;
* `Packet.serializer` — how the body is laid out;
* `Packet.errorCode` — the error code its header repeats, for responses.

`Incoming` is a packet that arrived, with its body.
-/

namespace ChatCodec

/-- A packet of the protocol. -/
inductive Packet where
  | loginRequest
  | registerRequest
  | logoutRequest
  | refreshSessionRequest
  | createRoomRequest
  | joinRoomRequest
  | leaveRoomRequest
  | deleteRoomRequest
  | kickMemberRequest
  | fetchRoomsRequest
  | postMessageRequest
  | fetchMessagesRequest
  | ackResponse
  | loginResponse
  | registerResponse
  | createRoomResponse
  | joinRoomResponse
  | fetchRoomsResponse
  | postMessageResponse
  | fetchMessagesResponse
  | messagePostedBroadcast
  | userJoinedBroadcast
  | userLeftBroadcast
  | roomDeletedBroadcast
  deriving DecidableEq, Repr

namespace Packet

/-- Every packet, in order of declaration. -/
def all : List Packet :=
  [loginRequest, registerRequest, logoutRequest, refreshSessionRequest, createRoomRequest,
    joinRoomRequest, leaveRoomRequest, deleteRoomRequest, kickMemberRequest, fetchRoomsRequest,
    postMessageRequest, fetchMessagesRequest, ackResponse, loginResponse, registerResponse,
    createRoomResponse, joinRoomResponse, fetchRoomsResponse, postMessageResponse,
    fetchMessagesResponse, messagePostedBroadcast, userJoinedBroadcast, userLeftBroadcast,
    roomDeletedBroadcast]

/-- The type code. -/
def code : Packet → PacketType
  | loginRequest => .ofParts 0 0x01
  | registerRequest => .ofParts 0 0x02
  | logoutRequest => .ofParts 0 0x03
  | refreshSessionRequest => .ofParts 0 0x04
  | createRoomRequest => .ofParts 0 0x10
  | joinRoomRequest => .ofParts 0 0x11
  | leaveRoomRequest => .ofParts 0 0x12
  | deleteRoomRequest => .ofParts 0 0x13
  | kickMemberRequest => .ofParts 0 0x14
  | fetchRoomsRequest => .ofParts 0 0x15
  | postMessageRequest => .ofParts 0 0x20
  | fetchMessagesRequest => .ofParts 0 0x21
  | ackResponse => .ofParts 1 0x01
  | loginResponse => .ofParts 1 0x02
  | registerResponse => .ofParts 1 0x03
  | createRoomResponse => .ofParts 1 0x10
  | joinRoomResponse => .ofParts 1 0x11
  | fetchRoomsResponse => .ofParts 1 0x15
  | postMessageResponse => .ofParts 1 0x20
  | fetchMessagesResponse => .ofParts 1 0x21
  | messagePostedBroadcast => .ofParts 2 0x01
  | userJoinedBroadcast => .ofParts 2 0x02
  | userLeftBroadcast => .ofParts 2 0x03
  | roomDeletedBroadcast => .ofParts 2 0x04

/-- The name. -/
def name : Packet → String
  | loginRequest => "LoginRequest"
  | registerRequest => "RegisterRequest"
  | logoutRequest => "LogoutRequest"
  | refreshSessionRequest => "RefreshSessionRequest"
  | createRoomRequest => "CreateRoomRequest"
  | joinRoomRequest => "JoinRoomRequest"
  | leaveRoomRequest => "LeaveRoomRequest"
  | deleteRoomRequest => "DeleteRoomRequest"
  | kickMemberRequest => "KickMemberRequest"
  | fetchRoomsRequest => "FetchRoomsRequest"
  | postMessageRequest => "PostMessageRequest"
  | fetchMessagesRequest => "FetchMessagesRequest"
  | ackResponse => "AckResponse"
  | loginResponse => "LoginResponse"
  | registerResponse => "RegisterResponse"
  | createRoomResponse => "CreateRoomResponse"
  | joinRoomResponse => "JoinRoomResponse"
  | fetchRoomsResponse => "FetchRoomsResponse"
  | postMessageResponse => "PostMessageResponse"
  | fetchMessagesResponse => "FetchMessagesResponse"
  | messagePostedBroadcast => "MessagePostedBroadcast"
  | userJoinedBroadcast => "UserJoinedBroadcast"
  | userLeftBroadcast => "UserLeftBroadcast"
  | roomDeletedBroadcast => "RoomDeletedBroadcast"

/-- The type of the bodies. -/
abbrev Body : Packet → Type
  | loginRequest => Login
  | registerRequest => Register
  | logoutRequest => TokenRequest Logout
  | refreshSessionRequest => TokenRequest RefreshSession
  | createRoomRequest => SessionRequest CreateRoom
  | joinRoomRequest => SessionRequest JoinRoom
  | leaveRoomRequest => SessionRequest LeaveRoom
  | deleteRoomRequest => SessionRequest DeleteRoom
  | kickMemberRequest => SessionRequest KickMember
  | fetchRoomsRequest => SessionRequest FetchRooms
  | postMessageRequest => SessionRequest PostMessage
  | fetchMessagesRequest => SessionRequest FetchMessages
  | ackResponse => Response Unit
  | loginResponse => Response LoginGrant
  | registerResponse => Response UserInfo
  | createRoomResponse => Response RoomInfo
  | joinRoomResponse => Response RoomInfo
  | fetchRoomsResponse => Response (List RoomInfo)
  | postMessageResponse => Response Snowflake
  | fetchMessagesResponse => Response (List ChatMessage)
  | messagePostedBroadcast => ChatMessage
  | userJoinedBroadcast => UserJoined
  | userLeftBroadcast => UserLeft
  | roomDeletedBroadcast => RoomDeleted

/-- The list of rooms a response carries, each room laid out by a serializer of choice. Both ends
have to choose the same. -/
def fetchRoomsSerializer (room : Serializer RoomInfo) : Serializer (Response (List RoomInfo)) :=
  .response .codeOnly (.list room)

/-- How the bodies are laid out. -/
def serializer : (p : Packet) → Serializer p.Body
  | loginRequest => .ofLayout Login.layout
  | registerRequest => .ofLayout Register.layout
  | logoutRequest => .tokenRequest (.ofLayout Logout.layout)
  | refreshSessionRequest => .tokenRequest (.ofLayout RefreshSession.layout)
  | createRoomRequest => .sessionRequest (.createRoom .all)
  | joinRoomRequest => .sessionRequest (.ofLayout JoinRoom.layout)
  | leaveRoomRequest => .sessionRequest (.ofLayout LeaveRoom.layout)
  | deleteRoomRequest => .sessionRequest (.ofLayout DeleteRoom.layout)
  | kickMemberRequest => .sessionRequest (.ofLayout KickMember.layout)
  | fetchRoomsRequest => .sessionRequest (.ofLayout FetchRooms.layout)
  | postMessageRequest => .sessionRequest (.ofLayout PostMessage.layout)
  | fetchMessagesRequest => .sessionRequest (.ofLayout FetchMessages.layout)
  | ackResponse => .response .codeOnly (.ofLayout .empty)
  | loginResponse => .response .detailed (.ofLayout LoginGrant.layout)
  | registerResponse => .response .detailed .userInfo
  | createRoomResponse => .response .codeOnly .roomInfo
  | joinRoomResponse => .response .codeOnly .roomInfo
  | fetchRoomsResponse => fetchRoomsSerializer .roomInfo
  | postMessageResponse => .response .codeOnly (.ofLayout .snowflake)
  | fetchMessagesResponse => .response .codeOnly (.list .chatMessage)
  | messagePostedBroadcast => .chatMessage
  | userJoinedBroadcast => .ofLayout UserJoined.layout
  | userLeftBroadcast => .ofLayout UserLeft.layout
  | roomDeletedBroadcast => .ofLayout RoomDeleted.layout

/-- The error code the header repeats: that of a response. -/
def errorCode : (p : Packet) → p.Body → Option ErrorCode
  | ackResponse, body => some body.error
  | loginResponse, body => some body.error
  | registerResponse, body => some body.error
  | createRoomResponse, body => some body.error
  | joinRoomResponse, body => some body.error
  | fetchRoomsResponse, body => some body.error
  | postMessageResponse, body => some body.error
  | fetchMessagesResponse, body => some body.error
  | _, _ => none

/-- What the packet is, in one value. -/
def spec (p : Packet) : PacketSpec p.Body where
  code := p.code
  name := p.name
  serializer := p.serializer
  errorCode := p.errorCode

/-- The packet of a name. -/
def ofName? (name : String) : Option Packet :=
  all.find? (·.name == name)

end Packet

/-- A packet that arrived, with its body. -/
structure Incoming where
  packet : Packet
  body : packet.Body

end ChatCodec
