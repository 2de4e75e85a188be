import ChatCodec.Packet
import ChatCodec.Proofs.Writing.Local

/-!
# Everything a packet is made of writes locally

By induction on the layout, a value is written as the same bytes into every writer; so are headers,
and so are the bodies of all packets.

Main results: `Layout.local_write`, `Header.local_write`, `Packet.writesLocally_serializer`.
-/

namespace ChatCodec

open Write

variable {α β : Type}

theorem Layout.local_write (layout : Layout α) (v : α) : Local (layout.write v) := by
  induction layout with
  | primitive p => exact local_primitive p v
  | text => exact local_text v
  | nullableText => exact local_nullableText v
  | empty => exact local_pure ()
  | errorCode => exact local_primitive .i8 _
  | enumeration e => exact local_primitive .u8 _
  | pair first second ihFirst ihSecond =>
    exact ((ihFirst v.1).bind fun _ => ihSecond v.2).atomic
  | record shape fields ih => exact ih (shape.toTuple v)
  | list element ih => exact ((local_count _).bind fun _ => Local.each ih v).atomic
  | set element ih => exact ((local_count _).bind fun _ => Local.each ih v.elements).atomic
  | map key value ihKey ihValue | orderedMap key value ihKey ihValue =>
    refine ((local_count _).bind fun _ => Local.each (fun e => ?_) v.entries).atomic
    exact (ihKey e.1).bind fun _ => ihValue e.2

theorem Header.local_writeErrorCode (h : Header) : Local h.writeErrorCode := by
  unfold writeErrorCode
  split
  · exact local_primitive _ _
  · exact local_pure ()

theorem Header.local_write (h : Header) (signature : UInt16) : Local (h.write signature) :=
  Local.atomic <| (local_primitive _ _).bind fun _ => (local_primitive _ _).bind fun _ =>
    h.local_writeErrorCode.bind fun _ => local_primitive _ _

/-! ## Serializers -/

namespace Serializer

/-- Every value is written as the same bytes into every writer. -/
def WritesLocally (s : Serializer α) : Prop :=
  ∀ a, Local (s.serialize a)

theorem writesLocally_ofLayout (layout : Layout α) : (ofLayout layout).WritesLocally :=
  layout.local_write

theorem local_writeMessage (style : ResponseStyle) (message : Option String) :
    Local (writeMessage style message) := by
  cases style with
  | codeOnly => exact local_pure _
  | detailed => exact local_nullableText message

section Envelopes

variable {payload : Serializer α} (h : payload.WritesLocally)
include h

theorem writesLocally_list : (list payload).WritesLocally :=
  fun values => ((local_count _).bind fun _ => Local.each h values).atomic

theorem writesLocally_tokenRequest : (tokenRequest payload).WritesLocally :=
  fun _ => ((local_text _).bind fun _ => h _).atomic

theorem writesLocally_sessionRequest : (sessionRequest payload).WritesLocally :=
  fun _ => ((local_primitive _ _).bind fun _ => (local_primitive _ _).bind fun _ => h _).atomic

theorem local_writePayload (response : Response α) : Local (writePayload payload response) := by
  unfold writePayload
  split
  · split
    · exact h _
    · exact local_throw _
  · exact local_pure _

theorem writesLocally_response (style : ResponseStyle) :
    (response style payload).WritesLocally :=
  fun response => Local.atomic <| (Layout.errorCode.local_write _).bind fun _ =>
    (local_writeMessage style _).bind fun _ => local_writePayload h response

end Envelopes

/-- A room to create is its kind, and then the fields in the form of the kind. -/
theorem serialize_createRoom {forms : RoomForms} {room : CreateRoom} {form : Serializer CreateRoom}
    (h : forms.get? room.kind = some form) : (createRoom forms).serialize room =
      (Write.atomic do
        Layout.roomKind.write room.kind
        form.serialize room) := by
  have hform : forms.form room.kind = .ok form := by rw [RoomForms.form, h]
  simp only [createRoom, hform]

/-- A room of a kind without a form cannot be written. -/
theorem serialize_createRoom_of_none {forms : RoomForms} {room : CreateRoom}
    (h : forms.get? room.kind = none) :
    (createRoom forms).serialize room = throw room.kind.unsupported := by
  have hform : forms.form room.kind = .error room.kind.unsupported := by rw [RoomForms.form, h]
  simp only [createRoom, hform]

theorem writesLocally_createRoom {forms : RoomForms}
    (h : ∀ kind form, forms.get? kind = some form → form.WritesLocally) :
    (createRoom forms).WritesLocally := by
  intro room
  cases hform : forms.get? room.kind with
  | some form =>
    rw [serialize_createRoom hform]
    exact ((Layout.roomKind.local_write _).bind fun _ => h room.kind form hform room).atomic
  | none =>
    rw [serialize_createRoom_of_none hform]
    exact local_throw _

theorem writesLocally_createRoom_all : (createRoom .all).WritesLocally := by
  refine writesLocally_createRoom fun kind form h room => ?_
  cases kind <;> cases h <;> cases room
  · exact CreateGroupRoom.layout.local_write _
  · exact local_throw _
  · exact local_throw _
  · exact CreateDirectRoom.layout.local_write _

end Serializer

open Serializer in
/-- The body of every packet of the catalogue is written as the same bytes into every writer. -/
theorem Packet.writesLocally_serializer (p : Packet) : p.serializer.WritesLocally := by
  cases p with
  | loginRequest | registerRequest | messagePostedBroadcast | userJoinedBroadcast
  | userLeftBroadcast | roomDeletedBroadcast => exact writesLocally_ofLayout _
  | logoutRequest | refreshSessionRequest =>
    exact writesLocally_tokenRequest (writesLocally_ofLayout _)
  | createRoomRequest => exact writesLocally_sessionRequest writesLocally_createRoom_all
  | joinRoomRequest | leaveRoomRequest | deleteRoomRequest | kickMemberRequest
  | fetchRoomsRequest | postMessageRequest | fetchMessagesRequest =>
    exact writesLocally_sessionRequest (writesLocally_ofLayout _)
  | loginResponse | registerResponse =>
    exact writesLocally_response (writesLocally_ofLayout _) .detailed
  | ackResponse | createRoomResponse | joinRoomResponse | postMessageResponse =>
    exact writesLocally_response (writesLocally_ofLayout _) .codeOnly
  | fetchRoomsResponse | fetchMessagesResponse =>
    exact writesLocally_response (writesLocally_list (writesLocally_ofLayout _)) .codeOnly

end ChatCodec
