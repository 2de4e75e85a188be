import ChatCodec.Proofs.RoundTrip.Layouts

/-!
# How much space a write takes

The sizes that layouts and serializers announce are enough. With so much space a write does not
notice that its destination ends somewhere: it succeeds, or it fails as it fails on a buffer.

* `Write.Within` — so many bytes are enough for the write, whether it succeeds or not;
* `Serializer.Bounded` — the announced size of every value is enough for it.

Main results: `Layout.within_write` and `Packet.bounded_serializer`.
-/

namespace ChatCodec

open Write (output IsShort)

variable {α β : Type}

namespace Write

/-- The write puts out no more than so many bytes, and where there is space for them it fails as it
fails on a buffer. Failing, too, takes no more than that: the bytes written before the failure
count, although they are taken back. -/
structure Within (write : WriteM α) (limit : Nat) : Prop where
  locally : Local write
  length_le : ∀ {a src}, output write = .ok (a, src) → src.length ≤ limit
  error : ∀ {w e}, w.Valid → w.Fits limit → output write = .error e → ∃ w', write w = .error e w'
  not_short : ∀ {e}, output write = .error e → ¬ IsShort e

variable {write : WriteM α} {next : α → WriteM β} {limit more : Nat}

theorem Within.mono (h : Within write limit) (hle : limit ≤ more) : Within write more where
  locally := h.locally
  length_le hout := Nat.le_trans (h.length_le hout) hle
  error hw hfits hout := h.error hw (hfits.mono hle) hout
  not_short := h.not_short

theorem within_pure (a : α) : Within (pure a : WriteM α) 0 where
  locally := local_pure a
  length_le hout := by cases hout; exact Nat.le_refl 0
  error _ _ hout := by cases hout
  not_short hout := by cases hout

theorem within_throw {e : CodecError} (h : ¬ IsShort e) : Within (throw e : WriteM α) 0 where
  locally := local_throw e
  length_le hout := by cases hout
  error {w e'} _ _ hout := by
    cases hout
    exact ⟨w, rfl⟩
  not_short hout := by cases hout; exact h

theorem within_bytes (src : Bytes) : Within (bytes src) src.length where
  locally := local_bytes src
  length_le hout := by
    rw [output_bytes] at hout
    cases hout
    exact Nat.le_refl _
  error _ _ hout := by
    rw [output_bytes] at hout
    cases hout
  not_short hout := by
    rw [output_bytes] at hout
    cases hout

theorem within_primitive (p : Primitive α) (a : α) : Within (primitive p a) p.size :=
  (within_bytes (p.encode a)).mono (Nat.le_of_eq (p.length_encode a))

/-- Two writes take what each of them takes. -/
theorem Within.bind (h : Within write limit) (hnext : ∀ a, Within (next a) more) :
    Within (write >>= next) (limit + more) where
  locally := h.locally.bind fun a => (hnext a).locally
  length_le hout := by
    obtain ⟨a, first, second, h₁, h₂, rfl⟩ :=
      (output_bind_eq_ok h.locally fun a => (hnext a).locally).mp hout
    rw [List.length_append]
    exact Nat.add_le_add (h.length_le h₁) ((hnext a).length_le h₂)
  error {w e} hw hfits hout := by
    have hfirst : w.Fits limit := hfits.mono (Nat.le_add_right _ _)
    cases h₁ : output write with
    | error e₁ =>
      rw [output_bind_of_error h₁] at hout
      cases hout
      obtain ⟨w', herror⟩ := h.error hw hfirst h₁
      exact ⟨w', by rw [bind_apply, herror]⟩
    | ok answer =>
      obtain ⟨a, src⟩ := answer
      rw [output_bind_of_ok h.locally (hnext a).locally h₁] at hout
      -- what is left after the first output is enough for the second
      have hsrc : w.Fits src.length := hfirst.mono (h.length_le h₁)
      have hrest : (w.append src).Fits more := (Writer.fits_append hw hsrc).mpr
        (hfits.mono (Nat.add_le_add_right (h.length_le h₁) more))
      rw [bind_of_ok (h.locally.ok hw h₁ hsrc)]
      exact (hnext a).error (hw.append hsrc) hrest (error_of_map hout)
  not_short {e} hout := by
    cases h₁ : output write with
    | error e₁ =>
      rw [output_bind_of_error h₁] at hout
      cases hout
      exact h.not_short h₁
    | ok answer =>
      rw [output_bind_of_ok h.locally (hnext _).locally h₁] at hout
      exact (hnext answer.1).not_short (error_of_map hout)

theorem Within.atomic (h : Within write limit) : Within (atomic write) limit where
  locally := h.locally.atomic
  length_le hout := by
    rw [output_atomic] at hout
    exact h.length_le hout
  error {w e} hw hfits hout := by
    rw [output_atomic] at hout
    obtain ⟨w', herror⟩ := h.error hw hfits hout
    exact ⟨w'.truncate w.offset, by rw [Write.atomic, herror]⟩
  not_short hout := by
    rw [output_atomic] at hout
    exact h.not_short hout

theorem Within.each {write : α → WriteM Unit} {size : α → Nat} (h : ∀ a, Within (write a) (size a))
    (values : List α) : Within (each write values) (Layout.totalSize (values.map size)) := by
  induction values with
  | nil => exact within_pure ()
  | cons a rest ih => exact (h a).bind fun _ => ih

/-- A prefix is refused for the number it would hold, never for lack of space. -/
theorem not_short_of_prefix32 {n : Nat} {e : CodecError} (h : prefix32 n = .error e) :
    ¬ IsShort e := by
  unfold prefix32 at h
  split at h <;> cases h
  exact fun ⟨_, _, hshort⟩ => nomatch hshort

theorem within_count (n : Nat) : Within (count n) 4 := by
  unfold count
  split
  · exact within_primitive .i32 _
  · next e h => exact (within_throw (not_short_of_prefix32 h)).mono (Nat.zero_le 4)

theorem within_text (s : String) : Within (text s) (4 + s.utf8ByteSize) := by
  have hlocal := local_text s
  cases h : prefix32 (Text.toBytes s).length with
  | ok length =>
    have hout := output_text h
    have hlen : (Primitive.i32.encode length ++ Text.toBytes s).length = 4 + s.utf8ByteSize := by
      rw [List.length_append, Primitive.length_encode, Text.length_toBytes]
      rfl
    refine ⟨hlocal, fun hout' => ?_, fun _ _ hout' => ?_, fun hout' => ?_⟩ <;>
      rw [hout] at hout' <;> cases hout'
    exact Nat.le_of_eq hlen
  | error e =>
    -- refused before any space is asked for
    have hthrow : text s = throw e := by rw [text, h]
    rw [hthrow]
    exact (within_throw (not_short_of_prefix32 h)).mono (Nat.zero_le _)

theorem within_nullableText (s : Option String) :
    Within (nullableText s) (4 + (s.map String.utf8ByteSize).getD 0) := by
  cases s with
  | some s => exact within_text s
  | none => exact within_primitive .i32 _

end Write

open Write

/-- The size of a value is enough to write it. -/
theorem Layout.within_write (layout : Layout α) (v : α) :
    Within (layout.write v) (layout.size v) := by
  induction layout with
  | primitive p => exact within_primitive p v
  | text => exact within_text v
  | nullableText => exact within_nullableText v
  | empty => exact within_pure ()
  | errorCode => exact within_primitive .i8 _
  | enumeration e => exact within_primitive .u8 _
  | pair first second ihFirst ihSecond =>
    exact ((ihFirst v.1).bind fun _ => ihSecond v.2).atomic
  | record shape fields ih => exact ih (shape.toTuple v)
  | list element ih => exact ((within_count _).bind fun _ => Within.each ih v).atomic
  | set element ih => exact ((within_count _).bind fun _ => Within.each ih v.elements).atomic
  | map key value ihKey ihValue | orderedMap key value ihKey ihValue =>
    refine ((within_count _).bind fun _ => Within.each (fun e => ?_) v.entries).atomic
    exact (ihKey e.1).bind fun _ => ihValue e.2

namespace Serializer

/-- The size a serializer announces for a value is enough to write it. -/
def Bounded (s : Serializer α) : Prop :=
  ∀ a, Within (s.serialize a) (s.maxSize a)

theorem bounded_ofLayout (layout : Layout α) : (ofLayout layout).Bounded :=
  layout.within_write

/-- The bytes of a message in the style that has one. -/
def messageSize (style : ResponseStyle) (message : Option String) : Nat :=
  match style with
  | .codeOnly => 0
  | .detailed => Layout.nullableText.size message

theorem within_writeMessage (style : ResponseStyle) (message : Option String) :
    Within (writeMessage style message) (messageSize style message) := by
  cases style with
  | codeOnly => exact within_pure ()
  | detailed => exact within_nullableText message

section Envelopes

variable {payload : Serializer α} (h : payload.Bounded)
include h

theorem bounded_list : (list payload).Bounded :=
  fun values => ((within_count _).bind fun _ => Within.each h values).atomic

theorem bounded_tokenRequest : (tokenRequest payload).Bounded :=
  fun request => ((within_text request.token).bind fun _ => h request.payload).atomic

theorem bounded_sessionRequest : (sessionRequest payload).Bounded := by
  intro request
  refine (((within_primitive .snowflake request.userId).bind fun _ =>
    (within_primitive .uuid request.sessionId).bind fun _ => h request.payload).atomic).mono ?_
  show 8 + (16 + payload.maxSize request.payload) ≤ 24 + payload.maxSize request.payload
  omega

/-- What a failure leaves out is not counted, and a success without payload fails before any of the
payload is written. -/
theorem within_writePayload (response : Response α) : Within (writePayload payload response)
    (if response.isSuccess then (response.payload.map payload.maxSize).getD 0 else 0) := by
  unfold writePayload
  split
  · cases response.payload with
    | some content => exact h content
    | none => exact within_throw fun ⟨_, _, hshort⟩ => nomatch hshort
  · exact within_pure ()

theorem bounded_response (style : ResponseStyle) : (response style payload).Bounded := by
  intro response
  have hcode : Within (Layout.errorCode.write response.error) 1 :=
    Layout.errorCode.within_write response.error
  refine ((hcode.bind fun _ => (within_writeMessage style response.message).bind fun _ =>
    within_writePayload h response).atomic).mono (Nat.le_of_eq ?_)
  exact (Nat.add_assoc _ _ _).symm

end Envelopes

theorem not_short_unsupported (kind : RoomKind) : ¬ IsShort kind.unsupported :=
  fun ⟨_, _, hshort⟩ => nomatch hshort

theorem bounded_groupRoom : groupRoom.Bounded
  | .group room => CreateGroupRoom.layout.within_write room
  | .direct _ => within_throw (not_short_unsupported .direct)

theorem bounded_directRoom : directRoom.Bounded
  | .direct room => CreateDirectRoom.layout.within_write room
  | .group _ => within_throw (not_short_unsupported .group)

/-- A room to create takes a byte more than the form of its kind announces. -/
theorem maxSize_createRoom {forms : RoomForms} {room : CreateRoom} {form : Serializer CreateRoom}
    (h : forms.get? room.kind = some form) :
    (createRoom forms).maxSize room = 1 + form.maxSize room := by
  simp only [createRoom, h, Option.map_some, Option.getD_some]

theorem bounded_createRoom {forms : RoomForms}
    (h : ∀ kind form, forms.get? kind = some form → form.Bounded) :
    (createRoom forms).Bounded := by
  intro room
  cases hform : forms.get? room.kind with
  | some form =>
    rw [serialize_createRoom hform, maxSize_createRoom hform]
    exact ((Layout.roomKind.within_write room.kind).bind fun _ =>
      h room.kind form hform room).atomic
  | none =>
    rw [serialize_createRoom_of_none hform]
    exact (within_throw (not_short_unsupported _)).mono (Nat.zero_le _)

theorem bounded_createRoom_all : (createRoom .all).Bounded := by
  refine bounded_createRoom fun kind form hform => ?_
  cases kind <;> cases hform
  · exact bounded_groupRoom
  · exact bounded_directRoom

end Serializer

open Serializer in
/-- The size announced for a body is enough for it, be it one that cannot be sent. -/
theorem Packet.bounded_serializer (p : Packet) : p.serializer.Bounded := by
  cases p with
  | loginRequest | registerRequest | messagePostedBroadcast | userJoinedBroadcast
  | userLeftBroadcast | roomDeletedBroadcast => exact bounded_ofLayout _
  | logoutRequest | refreshSessionRequest => exact bounded_tokenRequest (bounded_ofLayout _)
  | createRoomRequest => exact bounded_sessionRequest bounded_createRoom_all
  | joinRoomRequest | leaveRoomRequest | deleteRoomRequest | kickMemberRequest
  | fetchRoomsRequest | postMessageRequest | fetchMessagesRequest =>
    exact bounded_sessionRequest (bounded_ofLayout _)
  | loginResponse | registerResponse => exact bounded_response (bounded_ofLayout _) .detailed
  | ackResponse | createRoomResponse | joinRoomResponse | postMessageResponse =>
    exact bounded_response (bounded_ofLayout _) .codeOnly
  | fetchRoomsResponse | fetchMessagesResponse =>
    exact bounded_response (bounded_list (bounded_ofLayout _)) .codeOnly

end ChatCodec
