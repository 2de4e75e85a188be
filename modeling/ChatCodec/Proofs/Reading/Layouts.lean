import ChatCodec.Packet
import ChatCodec.Proofs.Reading.Local

/-!
# Everything a packet is made of reads locally

By induction on the layout, a value reads the same wherever it lies; so do headers, and so do the
bodies of all packets, whose serializers hand the cursor from one layout to the next.

Main results: `Layout.clean_read`, `Header.clean_read`, `Packet.local_deserialize`.
-/

namespace ChatCodec

open Read

variable {α β : Type}

/-! ## Layouts -/

theorem Layout.local_orDuplicate (collection : CollectionKind) (result : Option α) :
    Local (orDuplicate collection result) := by
  unfold orDuplicate
  split
  · exact (parses_pure _).local
  · exact (parses_throw _).local

theorem Layout.clean_read (layout : Layout α) : Clean layout.read := by
  induction layout with
  | primitive p => exact (parses_primitive p).clean
  | text => exact clean_requiredText
  | nullableText => exact clean_text
  | empty => exact (parses_pure ()).clean
  | errorCode => exact (parses_primitive .i8).clean.map ErrorCode.ofInt8
  | enumeration e =>
    refine Local.bind (parses_primitive .u8).local fun byte => ?_
    split
    · exact (parses_pure _).local
    · exact (parses_throw _).local
  | pair first second ihFirst ihSecond =>
    exact Local.bind ihFirst.local fun a => ihSecond.local.bind_pure _
  | record shape fields ih => exact ih.map shape.ofTuple
  | list element ih => exact Local.bind (clean_count _).local fun n => ih.local.times n
  | set element ih =>
    refine Local.bind (clean_count _).local fun n => Local.iterate (fun s => ?_) n _
    exact ih.local.bind fun a => local_orDuplicate .set _
  | map key value ihKey ihValue =>
    refine Local.bind (clean_count _).local fun n => Local.iterate (fun m => ?_) n _
    exact ihKey.local.bind fun k => ihValue.local.bind fun v => local_orDuplicate .map _
  | orderedMap key value ihKey ihValue =>
    refine Local.bind (clean_count _).local fun n => Local.iterate (fun m => ?_) n _
    exact ihKey.local.bind fun k => ihValue.local.bind fun v => local_orDuplicate .map _

/-! ## Headers -/

namespace Header

theorem local_readErrorCode (packetType : PacketType) : Local (readErrorCode packetType) := by
  unfold readErrorCode
  split
  · exact (parses_primitive .i8).local.map some
  · exact (parses_pure none).local

theorem clean_read (signature : UInt16) (limit : Nat) : Clean (read signature limit) :=
  Local.bind (parses_primitive .u16).local fun _ => (parses_ofExcept _).local.bind fun _ =>
    (parses_primitive .u32).local.bind fun _ => (local_readErrorCode _).bind fun _ =>
      (parses_primitive .i32).local.bind fun _ => (parses_ofExcept _).local.bind_pure _

end Header

/-! ## Serializers -/

namespace Serializer

theorem local_ofLayout (layout : Layout α) : Local (ofLayout layout).deserialize :=
  layout.clean_read.local

theorem clean_list {element : Serializer α} (h : Local element.deserialize) :
    Clean (list element).deserialize :=
  Local.bind (clean_count _).local fun n => h.times n

theorem clean_tokenRequest {payload : Serializer α} (h : Local payload.deserialize) :
    Clean (tokenRequest payload).deserialize :=
  Local.bind clean_requiredText.local fun _ => h.bind_pure _

theorem clean_sessionRequest {payload : Serializer α} (h : Local payload.deserialize) :
    Clean (sessionRequest payload).deserialize :=
  Local.bind (parses_primitive .snowflake).local fun _ =>
    (parses_primitive .uuid).local.bind fun _ => h.bind_pure _

theorem local_readMessage (style : ResponseStyle) : Local (readMessage style) := by
  cases style with
  | codeOnly => exact (parses_pure none).local
  | detailed => exact clean_text.local

theorem local_readPayload {payload : Serializer α} (h : Local payload.deserialize)
    (error : ErrorCode) : Local (readPayload payload error) := by
  unfold readPayload
  split
  · exact h.map some
  · exact (parses_pure none).local

theorem clean_response {payload : Serializer α} (style : ResponseStyle)
    (h : Local payload.deserialize) : Clean (response style payload).deserialize :=
  Local.bind Layout.errorCode.clean_read.local fun error =>
    (local_readMessage style).bind fun _ => (local_readPayload h error).bind_pure _

/-- A response that is read is its code, then its message and then its payload. -/
theorem ok_of_run_response {payload : Serializer α} {style : ResponseStyle}
    {response : Response α} {src : Bytes} {n : Nat} (hread : Local payload.deserialize)
    (h : run (Serializer.response style payload).deserialize src = .ok (response, n)) :
    ∃ m k j, run Layout.errorCode.read src = .ok (response.error, m) ∧
      run (readMessage style) (src.drop m) = .ok (response.message, k) ∧
      run (readPayload payload response.error) ((src.drop m).drop k) = .ok (response.payload, j) ∧
      n = m + (k + j) := by
  have hrest (error : ErrorCode) (message : Option String) : Local (do
      return ({ error, message, payload := ← readPayload payload error } : Response α)) :=
    (local_readPayload hread error).bind_pure _
  change run (Read.atomic do
    let error ← Layout.errorCode.read
    let message ← readMessage style
    return ({ error, message, payload := ← readPayload payload error } : Response α)) src = _ at h
  rw [run_atomic] at h
  obtain ⟨error, m, _, herror, hmore, rfl⟩ := (run_bind_eq_ok Layout.errorCode.clean_read.local
    fun error => (local_readMessage style).bind (hrest error)).mp h
  obtain ⟨message, k, j, hmessage, hlast, rfl⟩ := (run_bind_eq_ok (local_readMessage style)
    (hrest error)).mp hmore
  obtain ⟨content, hpayload, rfl⟩ := run_bind_pure_eq_ok (local_readPayload hread error) hlast
  exact ⟨m, k, j, herror, hmessage, hpayload, rfl⟩

/-- The fields of a room are read in the form of its kind, if it has one. -/
theorem local_readFields {forms : RoomForms}
    (h : ∀ kind form, forms.get? kind = some form → Local form.deserialize) (kind : RoomKind) :
    Local (match forms.form kind with
      | .ok form => form.deserialize
      | .error e => throw e : ReadM CreateRoom) := by
  rw [RoomForms.form]
  cases hform : forms.get? kind with
  | some form => exact h kind form hform
  | none => exact (parses_throw _).local

/-- A room is read in the form of its kind. -/
theorem clean_createRoom {forms : RoomForms}
    (h : ∀ kind form, forms.get? kind = some form → Local form.deserialize) :
    Clean (createRoom forms).deserialize :=
  Local.bind Layout.roomKind.clean_read.local (local_readFields h)

theorem clean_createRoom_all : Clean (createRoom .all).deserialize := by
  refine clean_createRoom fun kind form h => ?_
  cases kind <;> cases h
  · exact CreateGroupRoom.layout.clean_read.local.map CreateRoom.group
  · exact CreateDirectRoom.layout.clean_read.local.map CreateRoom.direct

end Serializer

open Serializer in
/-- The body of every packet of the catalogue reads the same wherever it lies. -/
theorem Packet.local_deserialize (p : Packet) : Local p.serializer.deserialize := by
  cases p with
  | loginRequest | registerRequest | messagePostedBroadcast | userJoinedBroadcast
  | userLeftBroadcast | roomDeletedBroadcast => exact local_ofLayout _
  | logoutRequest | refreshSessionRequest => exact (clean_tokenRequest (local_ofLayout _)).local
  | createRoomRequest => exact (clean_sessionRequest clean_createRoom_all.local).local
  | joinRoomRequest | leaveRoomRequest | deleteRoomRequest | kickMemberRequest
  | fetchRoomsRequest | postMessageRequest | fetchMessagesRequest =>
    exact (clean_sessionRequest (local_ofLayout _)).local
  | ackResponse | loginResponse | registerResponse | createRoomResponse | joinRoomResponse
  | postMessageResponse => exact (clean_response _ (local_ofLayout _)).local
  | fetchRoomsResponse | fetchMessagesResponse =>
    exact (clean_response _ (clean_list (local_ofLayout _)).local).local

end ChatCodec
