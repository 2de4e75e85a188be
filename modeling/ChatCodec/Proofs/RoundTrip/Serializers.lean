import ChatCodec.Proofs.RoundTrip.Layouts

/-!
# Bodies come back

A serializer `Restores` what it writes when it reads it back up to a normal form, whatever follows
on the wire. Envelopes restore what they wrap, and by the catalogue so does every packet.

Of a response more is lost than `Response.normalize` says: its error code travels as a byte, and the
receiver takes the byte for the code with that name (`Response.received`). This does no harm as long
as only success is sent as the byte of success (`ErrorCode.Faithful`).

Main results: `Serializer.Restores.list`, `Serializer.Restores.response` and their neighbours, and
`Packet.restores`.
-/

namespace ChatCodec

open Write (output)
open Read

variable {α β : Type}

/-- What the serializer writes of a value that is `Good` it reads back as the normal form of the
value, whatever follows. -/
structure Serializer.Restores (s : Serializer α) (Good : α → Prop) (normal : α → α) : Prop where
  writes : s.WritesLocally
  reads : Read.Local s.deserialize
  minSize_le : ∀ {a src}, output (s.serialize a) = .ok ((), src) → s.minSize ≤ src.length
  takes : ∀ {a src}, Good a → output (s.serialize a) = .ok ((), src) → src.length < UInt64.size →
    Takes s.deserialize src (normal a)

/-! ## Error codes -/

namespace ErrorCode

/-- On the wire the code says success only if it is success. -/
def Faithful (code : ErrorCode) : Prop :=
  code.toInt8 = 0 → code.isSuccess = true

theorem isSuccess_iff {code : ErrorCode} : code.isSuccess = true ↔ code = success :=
  beq_iff_eq

/-- A receiver takes just the byte 0 for success. -/
theorem isSuccess_ofInt8 (value : Int8) : (ofInt8 value).isSuccess = true ↔ value = 0 := by
  rw [isSuccess_iff]
  constructor
  · intro h
    rw [← toInt8_ofInt8 value, h]
    rfl
  · rintro rfl
    rfl

theorem isSuccess_received {code : ErrorCode} (h : code.Faithful) :
    (ofInt8 code.toInt8).isSuccess = code.isSuccess := by
  rw [Bool.eq_iff_iff, isSuccess_ofInt8]
  refine ⟨h, fun hsuccess => ?_⟩
  rw [isSuccess_iff.mp hsuccess]
  rfl

/-- A code that comes back is faithful. -/
theorem faithful_of_ofInt8 {code : ErrorCode} (h : ofInt8 code.toInt8 = code) : code.Faithful := by
  intro hzero
  rw [← h, isSuccess_ofInt8, hzero]

end ErrorCode

/-- What a receiver makes of a response. -/
def Response.received {π : Type} (style : ResponseStyle) (normal : π → π)
    (response : Response π) : Response π where
  error := .ofInt8 response.error.toInt8
  message := (response.normalize style).message
  payload := (response.normalize style).payload.map normal

/-- A response whose code comes back is received as its normal form. -/
theorem Response.received_eq_normalize {π : Type} {style : ResponseStyle} {response : Response π}
    (h : ErrorCode.ofInt8 response.error.toInt8 = response.error) :
    response.received style id = response.normalize style := by
  rw [received, h, Option.map_id]
  rfl

/-! ## What envelopes put out -/

namespace Serializer

variable {payload : Serializer α} {src : Bytes}

theorem output_tokenRequest (h : payload.WritesLocally) {request : TokenRequest α}
    (hout : output ((tokenRequest payload).serialize request) = .ok ((), src)) :
    ∃ token content, output (Write.text request.token) = .ok ((), token) ∧
      output (payload.serialize request.payload) = .ok ((), content) ∧
      src = token ++ content := by
  rw [tokenRequest, Write.output_atomic] at hout
  obtain ⟨_, token, content, h₁, h₂, rfl⟩ := (Write.output_bind_eq_ok (Write.local_text _)
    fun _ => h _).mp hout
  exact ⟨token, content, h₁, h₂, rfl⟩

theorem output_sessionRequest (h : payload.WritesLocally) {request : SessionRequest α}
    (hout : output ((sessionRequest payload).serialize request) = .ok ((), src)) :
    ∃ content, output (payload.serialize request.payload) = .ok ((), content) ∧
      src = Primitive.snowflake.encode request.userId ++
        (Primitive.uuid.encode request.sessionId ++ content) := by
  rw [sessionRequest, Write.output_atomic] at hout
  obtain ⟨_, userId, more, h₁, hmore, rfl⟩ := (Write.output_bind_eq_ok (Write.local_primitive _ _)
    fun _ => (Write.local_primitive _ _).bind fun _ => h _).mp hout
  obtain ⟨_, sessionId, content, h₂, h₃, rfl⟩ := (Write.output_bind_eq_ok
    (Write.local_primitive _ _) fun _ => h _).mp hmore
  rw [Write.output_primitive] at h₁ h₂
  cases h₁
  cases h₂
  exact ⟨content, h₃, rfl⟩

theorem output_response (h : payload.WritesLocally) {style : ResponseStyle} {response : Response α}
    (hout : output ((Serializer.response style payload).serialize response) = .ok ((), src)) :
    ∃ message content, output (writeMessage style response.message) = .ok ((), message) ∧
      output (writePayload payload response) = .ok ((), content) ∧
      src = Primitive.i8.encode response.error.toInt8 ++ (message ++ content) := by
  change output (Write.atomic do
    Layout.errorCode.write response.error
    writeMessage style response.message
    writePayload payload response) = _ at hout
  rw [Write.output_atomic] at hout
  obtain ⟨_, code, more, h₁, hmore, rfl⟩ := (Write.output_bind_eq_ok
    (Layout.errorCode.local_write _) fun _ => (local_writeMessage style _).bind
      fun _ => local_writePayload h response).mp hout
  obtain ⟨_, message, content, h₂, h₃, rfl⟩ := (Write.output_bind_eq_ok
    (local_writeMessage style _) fun _ => local_writePayload h response).mp hmore
  rw [Layout.write, Write.output_primitive] at h₁
  cases h₁
  exact ⟨message, content, h₂, h₃, rfl⟩

/-- A room comes out only in a form of its kind. -/
theorem output_createRoom {forms : RoomForms} {room : CreateRoom}
    (h : ∀ kind form, forms.get? kind = some form → form.WritesLocally)
    (hout : output ((createRoom forms).serialize room) = .ok ((), src)) :
    ∃ form fields, forms.get? room.kind = some form ∧
      output (form.serialize room) = .ok ((), fields) ∧
      src = Primitive.u8.encode (RoomKind.enumeration.toByte room.kind) ++ fields := by
  cases hform : forms.get? room.kind with
  | none =>
    rw [serialize_createRoom_of_none hform] at hout
    cases hout
  | some form =>
    rw [serialize_createRoom hform, Write.output_atomic] at hout
    obtain ⟨_, kind, fields, h₁, h₂, rfl⟩ := (Write.output_bind_eq_ok
      (Layout.roomKind.local_write _) fun _ => h _ form hform room).mp hout
    rw [Layout.roomKind, Layout.write, Write.output_primitive] at h₁
    cases h₁
    exact ⟨form, fields, rfl, h₂, rfl⟩

/-- The least size of a room to create is no more than that of any form. -/
theorem minSize_createRoom_le {forms : RoomForms} {kind : RoomKind} {form : Serializer CreateRoom}
    (hform : forms.get? kind = some form) : (createRoom forms).minSize ≤ 1 + form.minSize := by
  have hkind : kind ∈ forms.kinds := by
    rw [RoomForms.kinds, List.mem_filter, RoomForms.supports, hform]
    exact ⟨by cases kind <;> decide, rfl⟩
  have hmem : form.minSize ∈ (forms.kinds.filterMap forms.get?).map (·.minSize) :=
    List.mem_map_of_mem (List.mem_filterMap.mpr ⟨kind, hkind, hform⟩)
  exact Nat.add_le_add_left (List.min?_getD_le_of_mem hmem) 1

/-! ## The least sizes -/

/-- No value takes fewer bytes than the least size. -/
def LeastSize (s : Serializer α) : Prop :=
  ∀ a src, output (s.serialize a) = .ok ((), src) → s.minSize ≤ src.length

theorem leastSize_ofLayout (layout : Layout α) : (ofLayout layout).LeastSize :=
  fun _ _ => layout.minSize_le_length

theorem leastSize_list (h : payload.WritesLocally) : (list payload).LeastSize := by
  intro values src hout
  obtain ⟨length, more, -, -, rfl⟩ := Layout.output_counted h hout
  rw [List.length_append, Primitive.length_encode]
  exact Nat.le_add_right 4 _

theorem leastSize_tokenRequest (h : payload.WritesLocally) (hleast : payload.LeastSize) :
    (tokenRequest payload).LeastSize := by
  intro request src hout
  obtain ⟨token, content, h₁, h₂, rfl⟩ := output_tokenRequest h hout
  have htoken : Layout.text.minSize ≤ token.length := Layout.text.minSize_le_length h₁
  rw [List.length_append]
  exact Nat.add_le_add htoken (hleast _ _ h₂)

theorem leastSize_sessionRequest (h : payload.WritesLocally) (hleast : payload.LeastSize) :
    (sessionRequest payload).LeastSize := by
  intro request src hout
  obtain ⟨content, h₁, rfl⟩ := output_sessionRequest h hout
  have hcontent := hleast _ _ h₁
  rw [List.length_append, List.length_append, Primitive.length_encode, Primitive.length_encode]
  show 24 + payload.minSize ≤ 8 + (16 + content.length)
  omega

/-- A response takes at least its code, and in the style that has one the prefix of its message. -/
theorem leastSize_response (h : payload.WritesLocally) (style : ResponseStyle) :
    (Serializer.response style payload).LeastSize := by
  intro response src hout
  obtain ⟨message, content, h₁, h₂, rfl⟩ := output_response h hout
  rw [List.length_append, List.length_append, Primitive.length_encode]
  cases style with
  | codeOnly => exact Nat.le_add_right 1 _
  | detailed =>
    have hmessage : Layout.nullableText.minSize ≤ message.length :=
      Layout.nullableText.minSize_le_length h₁
    exact Nat.add_le_add_left (Nat.le_trans hmessage (Nat.le_add_right _ _)) 1

theorem leastSize_groupRoom : groupRoom.LeastSize
  | .group _, _, hout => CreateGroupRoom.layout.minSize_le_length hout
  | .direct _, _, hout => nomatch hout

theorem leastSize_directRoom : directRoom.LeastSize
  | .direct _, _, hout => CreateDirectRoom.layout.minSize_le_length hout
  | .group _, _, hout => nomatch hout

theorem leastSize_createRoom {forms : RoomForms}
    (h : ∀ kind form, forms.get? kind = some form → form.WritesLocally)
    (hleast : ∀ kind form, forms.get? kind = some form → form.LeastSize) :
    (createRoom forms).LeastSize := by
  intro room src hout
  obtain ⟨form, fields, hform, hfields, rfl⟩ := output_createRoom h hout
  rw [List.length_append, Primitive.length_encode]
  exact Nat.le_trans (minSize_createRoom_le hform)
    (Nat.add_le_add_left (hleast _ form hform _ _ hfields) 1)

end Serializer

/-! ## What comes back -/

namespace Serializer.Restores

variable {s : Serializer α} {Good Good' : α → Prop} {normal normal' : α → α}

theorem leastSize (h : s.Restores Good normal) : s.LeastSize :=
  fun _ _ => h.minSize_le

theorem mono (h : s.Restores Good normal) (hgood : ∀ a, Good' a → Good a)
    (hnormal : ∀ a, normal a = normal' a) : s.Restores Good' normal' where
  writes := h.writes
  reads := h.reads
  minSize_le := h.minSize_le
  takes ha hout hsmall := hnormal _ ▸ h.takes (hgood _ ha) hout hsmall

theorem ofLayout (layout : Layout α) :
    (Serializer.ofLayout layout).Restores layout.Recoverable id where
  writes := layout.local_write
  reads := layout.clean_read.local
  minSize_le := leastSize_ofLayout layout _ _
  takes := layout.takes_read

/-- A layout without error codes restores every value. -/
theorem ofPlain (layout : Layout α) (h : layout.isPlain = true) :
    (Serializer.ofLayout layout).Restores (fun _ => True) id :=
  (ofLayout layout).mono (fun a _ => layout.recoverable_of_isPlain h a) fun _ => rfl

theorem list (h : s.Restores Good normal) :
    (Serializer.list s).Restores
      (fun values => (s.minSize = 0 → values.length ≤ maxEmptyElements) ∧ ∀ a ∈ values, Good a)
      (List.map normal) where
  writes := writesLocally_list h.writes
  reads := (clean_list h.reads).local
  minSize_le := leastSize_list h.writes _ _
  takes hgood :=
    Layout.takes_list h.writes h.reads (fun _ _ => h.minSize_le) hgood.1
      fun a ha _ => h.takes (hgood.2 a ha)

theorem tokenRequest (h : s.Restores Good normal) :
    (Serializer.tokenRequest s).Restores (fun request => Good request.payload)
      (fun request => { request with payload := normal request.payload }) := by
  refine ⟨writesLocally_tokenRequest h.writes, (clean_tokenRequest h.reads).local,
    leastSize_tokenRequest h.writes h.leastSize _ _, ?_⟩
  intro request src hgood hout hsmall
  obtain ⟨token, payload, h₁, h₂, rfl⟩ := output_tokenRequest h.writes hout
  rw [List.length_append] at hsmall
  have hpayload := h.takes hgood h₂ (by omega)
  refine Takes.atomic ((takes_requiredText h₁).bind clean_requiredText.local
    (h.reads.bind_pure _) ?_)
  exact hpayload.bind_pure h.reads _

theorem sessionRequest (h : s.Restores Good normal) :
    (Serializer.sessionRequest s).Restores (fun request => Good request.payload)
      (fun request => { request with payload := normal request.payload }) := by
  refine ⟨writesLocally_sessionRequest h.writes, (clean_sessionRequest h.reads).local,
    leastSize_sessionRequest h.writes h.leastSize _ _, ?_⟩
  intro request src hgood hout hsmall
  obtain ⟨payload, h₁, rfl⟩ := output_sessionRequest h.writes hout
  rw [List.length_append, List.length_append] at hsmall
  have hpayload := h.takes hgood h₁ (by omega)
  have hrest (sessionId : Uuid) : Local (s.deserialize >>= fun payload =>
      pure ({ userId := request.userId, sessionId, payload } : SessionRequest α)) :=
    h.reads.bind_pure _
  refine Takes.atomic ((takes_primitive .snowflake request.userId).bind
    (parses_primitive _).local ((parses_primitive .uuid).local.bind hrest) ?_)
  refine (takes_primitive .uuid request.sessionId).bind (parses_primitive _).local (hrest _) ?_
  exact hpayload.bind_pure h.reads _

/-- A message comes back in the style that has one. -/
theorem takes_readMessage {π : Type} {style : ResponseStyle} {response : Response π} {src : Bytes}
    (hout : output (writeMessage style response.message) = .ok ((), src)) :
    Takes (readMessage style) src (response.normalize style).message := by
  cases style with
  | codeOnly =>
    cases hout
    exact takes_pure none
  | detailed => exact takes_nullableText hout

/-- The payload of a success comes back, and that of a failure does not. -/
theorem takes_readPayload (h : s.Restores Good normal) {style : ResponseStyle}
    {response : Response α} {src : Bytes} (hcode : response.error.Faithful)
    (hgood : ∀ payload, response.payload = some payload → Good payload)
    (hout : output (writePayload s response) = .ok ((), src)) (hsmall : src.length < UInt64.size) :
    Takes (readPayload s (.ofInt8 response.error.toInt8)) src
      ((response.normalize style).payload.map normal) := by
  -- both ends ask whether the code is success: the sender of its own code, the receiver of the
  -- byte, and for a faithful code these agree
  have hnormal : (response.normalize style).payload =
      if response.error.isSuccess then response.payload else none := rfl
  rw [readPayload, ErrorCode.isSuccess_received hcode, hnormal]
  rw [writePayload, Response.isSuccess] at hout
  cases hsuccess : response.error.isSuccess with
  | true =>
    rw [hsuccess, if_pos rfl] at hout
    rw [if_pos rfl, if_pos rfl]
    cases hpayload : response.payload with
    | some payload =>
      rw [hpayload] at hout
      exact (h.takes (hgood payload hpayload) hout hsmall).map h.reads some
    | none =>
      -- a success without a payload is not written
      rw [hpayload] at hout
      cases hout
  | false =>
    rw [hsuccess, if_neg Bool.false_ne_true] at hout
    cases hout
    exact takes_pure none

theorem response (h : s.Restores Good normal) (style : ResponseStyle) :
    (Serializer.response style s).Restores
      (fun response => response.error.Faithful ∧
        ∀ payload, response.payload = some payload → Good payload)
      (Response.received style normal) := by
  refine ⟨writesLocally_response h.writes style, (clean_response style h.reads).local,
    leastSize_response h.writes style _ _, ?_⟩
  intro response src hgood hout hsmall
  obtain ⟨message, payload, h₁, h₂, rfl⟩ := output_response h.writes hout
  rw [List.length_append, List.length_append] at hsmall
  have hcode : Takes Layout.errorCode.read (Primitive.i8.encode response.error.toInt8)
      (.ofInt8 response.error.toInt8) :=
    (takes_primitive .i8 _).map (parses_primitive _).local ErrorCode.ofInt8
  have hrest (error : ErrorCode) (message : Option String) : Local (do
      return ({ error, message, payload := ← readPayload s error } : Response α)) :=
    (local_readPayload h.reads error).bind_pure _
  have hpayload : Takes (readPayload s (.ofInt8 response.error.toInt8)) payload
      ((response.normalize style).payload.map normal) :=
    takes_readPayload h hgood.1 hgood.2 h₂ (by omega)
  refine Takes.atomic (hcode.bind Layout.errorCode.clean_read.local
    ((local_readMessage style).bind (hrest _)) ?_)
  refine (takes_readMessage h₁).bind (local_readMessage style) (hrest _ _) ?_
  exact hpayload.bind_pure (local_readPayload h.reads _) _

/-! ### Rooms to create -/

theorem groupRoom : Serializer.groupRoom.Restores (fun _ => True) id where
  writes
    | .group room => CreateGroupRoom.layout.local_write room
    | .direct _ => Write.local_throw _
  reads := CreateGroupRoom.layout.clean_read.local.map CreateRoom.group
  minSize_le := leastSize_groupRoom _ _
  takes {room src} _ hout hsmall := by
    cases room with
    | group room =>
      have hread := (ofPlain CreateGroupRoom.layout rfl).takes trivial hout hsmall
      exact hread.map CreateGroupRoom.layout.clean_read.local CreateRoom.group
    | direct room => cases hout

theorem directRoom : Serializer.directRoom.Restores (fun _ => True) id where
  writes
    | .direct room => CreateDirectRoom.layout.local_write room
    | .group _ => Write.local_throw _
  reads := CreateDirectRoom.layout.clean_read.local.map CreateRoom.direct
  minSize_le := leastSize_directRoom _ _
  takes {room src} _ hout hsmall := by
    cases room with
    | direct room =>
      have hread := (ofPlain CreateDirectRoom.layout rfl).takes trivial hout hsmall
      exact hread.map CreateDirectRoom.layout.clean_read.local CreateRoom.direct
    | group room => cases hout

/-- A room to create comes back if the forms of the kinds restore what they write. -/
theorem createRoom {forms : RoomForms}
    (h : ∀ kind form, forms.get? kind = some form → form.Restores (fun _ => True) id) :
    (Serializer.createRoom forms).Restores (fun _ => True) id := by
  have hforms : ∀ kind form, forms.get? kind = some form → form.WritesLocally :=
    fun kind form hform => (h kind form hform).writes
  have hreads := clean_createRoom fun kind form hform => (h kind form hform).reads
  refine ⟨writesLocally_createRoom hforms, hreads.local,
    leastSize_createRoom hforms (fun kind form hform => (h kind form hform).leastSize) _ _, ?_⟩
  intro room src _ hout hsmall
  obtain ⟨form, fields, hform, hfields, rfl⟩ := output_createRoom hforms hout
  rw [List.length_append] at hsmall
  have hkind : Takes Layout.roomKind.read
      (Primitive.u8.encode (RoomKind.enumeration.toByte room.kind)) room.kind :=
    Layout.roomKind.takes_read trivial (Write.output_primitive _ _) (by
      rw [Primitive.length_encode]
      decide)
  have hread := (h _ form hform).takes trivial hfields (by omega)
  refine Takes.atomic (hkind.bind Layout.roomKind.clean_read.local ?_ ?_) <;>
    rw [RoomForms.form, hform]
  · exact (h _ form hform).reads
  · exact hread

theorem createRoom_all : (Serializer.createRoom .all).Restores (fun _ => True) id := by
  refine createRoom fun kind form hform => ?_
  cases kind <;> cases hform
  · exact groupRoom
  · exact directRoom

end Serializer.Restores

/-! ## The catalogue -/

namespace Packet

/-- What a receiver makes of a body. -/
def received : (p : Packet) → p.Body → p.Body
  | ackResponse, body => body.received .codeOnly id
  | loginResponse, body => body.received .detailed id
  | registerResponse, body => body.received .detailed id
  | createRoomResponse, body => body.received .codeOnly id
  | joinRoomResponse, body => body.received .codeOnly id
  | fetchRoomsResponse, body => body.received .codeOnly id
  | postMessageResponse, body => body.received .codeOnly id
  | fetchMessagesResponse, body => body.received .codeOnly id
  | _, body => body

/-- The wire-normal form of a body: that of its response, or the body of a packet that is none. -/
def normalize : (p : Packet) → p.Body → p.Body
  | ackResponse, body => body.normalize .codeOnly
  | loginResponse, body => body.normalize .detailed
  | registerResponse, body => body.normalize .detailed
  | createRoomResponse, body => body.normalize .codeOnly
  | joinRoomResponse, body => body.normalize .codeOnly
  | fetchRoomsResponse, body => body.normalize .codeOnly
  | postMessageResponse, body => body.normalize .codeOnly
  | fetchMessagesResponse, body => body.normalize .codeOnly
  | _, body => body

theorem received_eq_normalize {p : Packet} {body : p.Body}
    (h : ∀ code, p.errorCode body = some code → ErrorCode.ofInt8 code.toInt8 = code) :
    p.received body = p.normalize body := by
  cases p with
  | ackResponse | loginResponse | registerResponse | createRoomResponse | joinRoomResponse
  | fetchRoomsResponse | postMessageResponse | fetchMessagesResponse =>
    exact Response.received_eq_normalize (h body.error rfl)
  | _ => rfl

open Serializer in
/-- Every packet comes back whose error code, if it has one, says success only if it is success. -/
theorem restores (p : Packet) : p.serializer.Restores
    (fun body => ∀ code, p.errorCode body = some code → code.Faithful) p.received := by
  -- elements of some size: no list of them is too long for its count to be believed
  have hlist {α : Type} {s : Serializer α} (h : s.Restores (fun _ => True) id)
      (hmin : s.minSize ≠ 0) : (Serializer.list s).Restores (fun _ => True) id :=
    h.list.mono (fun _ _ => ⟨fun hzero => absurd hzero hmin, fun _ _ => trivial⟩) List.map_id
  cases p with
  | loginRequest | registerRequest | messagePostedBroadcast | userJoinedBroadcast
  | userLeftBroadcast | roomDeletedBroadcast =>
    exact (Restores.ofPlain _ rfl).mono (fun _ _ => trivial) fun _ => rfl
  | logoutRequest | refreshSessionRequest =>
    exact (Restores.ofPlain _ rfl).tokenRequest.mono (fun _ _ => trivial) fun _ => rfl
  | createRoomRequest =>
    exact Restores.createRoom_all.sessionRequest.mono (fun _ _ => trivial) fun _ => rfl
  | joinRoomRequest | leaveRoomRequest | deleteRoomRequest | kickMemberRequest
  | fetchRoomsRequest | postMessageRequest | fetchMessagesRequest =>
    exact (Restores.ofPlain _ rfl).sessionRequest.mono (fun _ _ => trivial) fun _ => rfl
  | loginResponse | registerResponse =>
    exact ((Restores.ofPlain _ rfl).response .detailed).mono
      (fun body h => ⟨h body.error rfl, fun _ _ => trivial⟩) fun _ => rfl
  | ackResponse | createRoomResponse | joinRoomResponse | postMessageResponse =>
    exact ((Restores.ofPlain _ rfl).response .codeOnly).mono
      (fun body h => ⟨h body.error rfl, fun _ _ => trivial⟩) fun _ => rfl
  | fetchRoomsResponse | fetchMessagesResponse =>
    exact ((hlist (Restores.ofPlain _ rfl) (by decide)).response .codeOnly).mono
      (fun body h => ⟨h body.error rfl, fun _ _ => trivial⟩) fun _ => rfl

end Packet

end ChatCodec
