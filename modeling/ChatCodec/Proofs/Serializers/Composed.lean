import ChatCodec.Proofs.Writing.Rollback

/-!
# Serializers of any composition

Serializers are made of others, to any depth. What is kept by all the ways to make one, a serializer
has as soon as the ones it is made of have it.

* `Serializer.Composed` — a serializer made of layouts, of rooms to create, and of others of which
  something is assumed, by lists, envelopes and conversions;
* `Serializer.Appends` — a serializer that writes behind what is written.

Main results: `Packet.composed_serializer`, by which the body of each packet is laid out by such a
serializer, and `Serializer.Composed.appends` and `Serializer.Composed.writesLocally`.
-/

namespace ChatCodec

open Write

namespace Serializer

/-- The serializer is composed of layouts, and of others that are leaves. -/
inductive Composed (Leaf : (α : Type) → Serializer α → Prop) : {α : Type} → Serializer α → Prop
  | leaf {α : Type} {s : Serializer α} (h : Leaf α s) : Composed Leaf s
  /-- A value by its layout. Chat messages, users and rooms are of this kind. -/
  | ofLayout {α : Type} (layout : Layout α) : Composed Leaf (.ofLayout layout)
  /-- A value that stands for one of another type, such as a room without its members. -/
  | through {α β : Type} {s : Serializer α} (h : Composed Leaf s) (toWire : β → α)
      (ofWire : α → β) : Composed Leaf (s.through toWire ofWire)
  | groupRoom : Composed Leaf .groupRoom
  | directRoom : Composed Leaf .directRoom
  /-- A room to create, in the form of its kind. -/
  | createRoom {forms : RoomForms}
      (h : ∀ kind form, forms.get? kind = some form → Composed Leaf form) :
      Composed Leaf (.createRoom forms)
  | list {α : Type} {s : Serializer α} (h : Composed Leaf s) : Composed Leaf (.list s)
  | tokenRequest {π : Type} {s : Serializer π} (h : Composed Leaf s) :
      Composed Leaf (.tokenRequest s)
  | sessionRequest {π : Type} {s : Serializer π} (h : Composed Leaf s) :
      Composed Leaf (.sessionRequest s)
  | response {π : Type} {s : Serializer π} (style : ResponseStyle) (h : Composed Leaf s) :
      Composed Leaf (.response style s)

variable {Leaf : (α : Type) → Serializer α → Prop} {α : Type} {s : Serializer α}

theorem Composed.createRoom_all : Composed Leaf (.createRoom .all) :=
  .createRoom fun kind form h => by
    cases kind <;> cases h
    · exact .groupRoom
    · exact .directRoom

/-! ## Writing -/

/-- Every value is written behind what is written already. Where that fails a part may stay. -/
def Appends (s : Serializer α) : Prop :=
  ∀ a, Puts .all (s.serialize a) fun _ => True

theorem Appends.puts_writePayload (h : s.Appends) (response : Response α) :
    Puts .all (writePayload s response) fun _ => True := by
  unfold writePayload
  split
  · split
    · exact h _
    · exact (whole_throw _).puts
  · exact (whole_pure ()).puts.mono fun _ _ => trivial

/-- A serializer made of ones that append appends as well. -/
theorem Composed.appends (h : s.Composed @Appends) : s.Appends := by
  -- on the composition: each part is put behind the one before it
  induction h with
  | leaf h => exact h
  | ofLayout layout => exact fun a => (layout.whole_write a).puts.mono fun _ _ => trivial
  | through _ toWire _ ih => exact fun b => ih (toWire b)
  | groupRoom =>
    intro room
    cases room with
    | group room => exact (CreateGroupRoom.layout.whole_write room).puts.mono fun _ _ => trivial
    | direct room => exact (whole_throw _).puts
  | directRoom =>
    intro room
    cases room with
    | group room => exact (whole_throw _).puts
    | direct room => exact (CreateDirectRoom.layout.whole_write room).puts.mono fun _ _ => trivial
  | createRoom _ ih =>
    intro room
    cases hform : RoomForms.get? _ room.kind with
    | some form =>
      rw [serialize_createRoom hform]
      have hfields := ih room.kind form hform room
      exact ((Layout.roomKind.whole_write room.kind).puts.bind fun _ => hfields).atomic.puts.mono
        fun _ _ => trivial
    | none =>
      rw [serialize_createRoom_of_none hform]
      exact (whole_throw _).puts
  | list _ ih =>
    intro values
    have helements := Puts.each ih values
    exact ((whole_count _).puts.bind fun _ => helements).atomic.puts.mono fun _ _ => trivial
  | tokenRequest _ ih =>
    intro request
    have hpayload := ih request.payload
    exact ((whole_text _).puts.bind fun _ => hpayload).atomic.puts.mono fun _ _ => trivial
  | sessionRequest _ ih =>
    intro request
    have hpayload := ih request.payload
    exact ((whole_primitive _ _).puts.bind fun _ =>
      (whole_primitive _ _).puts.bind fun _ => hpayload).atomic.puts.mono fun _ _ => trivial
  | response style _ ih =>
    intro response
    have hpayload := ih.puts_writePayload response
    exact ((Layout.errorCode.whole_write response.error).puts.bind fun _ =>
      (whole_writeMessage style response.message).puts.bind fun _ =>
        hpayload).atomic.puts.mono fun _ _ => trivial

/-- A serializer made of ones that write locally writes locally. -/
theorem Composed.writesLocally (h : s.Composed @WritesLocally) : s.WritesLocally := by
  induction h with
  | leaf h => exact h
  | ofLayout layout => exact writesLocally_ofLayout layout
  | through _ toWire _ ih => exact fun b => ih (toWire b)
  | groupRoom =>
    intro room
    cases room with
    | group room => exact CreateGroupRoom.layout.local_write room
    | direct room => exact local_throw _
  | directRoom =>
    intro room
    cases room with
    | group room => exact local_throw _
    | direct room => exact CreateDirectRoom.layout.local_write room
  | createRoom _ ih => exact writesLocally_createRoom ih
  | list _ ih => exact writesLocally_list ih
  | tokenRequest _ ih => exact writesLocally_tokenRequest ih
  | sessionRequest _ ih => exact writesLocally_sessionRequest ih
  | response style _ ih => exact writesLocally_response ih style

end Serializer

/-- The body of each packet of the catalogue is laid out by a serializer without leaves. -/
theorem Packet.composed_serializer {Leaf : (α : Type) → Serializer α → Prop} (p : Packet) :
    p.serializer.Composed Leaf := by
  cases p with
  | loginRequest | registerRequest | messagePostedBroadcast | userJoinedBroadcast
  | userLeftBroadcast | roomDeletedBroadcast => exact .ofLayout _
  | logoutRequest | refreshSessionRequest => exact .tokenRequest (.ofLayout _)
  | createRoomRequest => exact .sessionRequest .createRoom_all
  | joinRoomRequest | leaveRoomRequest | deleteRoomRequest | kickMemberRequest
  | fetchRoomsRequest | postMessageRequest | fetchMessagesRequest =>
    exact .sessionRequest (.ofLayout _)
  | loginResponse | registerResponse => exact .response .detailed (.ofLayout _)
  | ackResponse | createRoomResponse | joinRoomResponse | postMessageResponse =>
    exact .response .codeOnly (.ofLayout _)
  | fetchRoomsResponse | fetchMessagesResponse => exact .response .codeOnly (.list (.ofLayout _))

end ChatCodec
