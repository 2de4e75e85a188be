import ChatCodec.Proofs.Framing.Packets

/-!
# Failures stay failures

A sender leaves out the payload of a response that is not a success, and a receiver looks for one
behind the byte of success. The two agree unless a failure is sent as that byte, which happens for
one code only: an unknown code whose value is that of success.

Main result: `Codec.decode_failure_iff`, by which a failure is received as a failure just if its
code is any other, and `Codec.decode_unknown_zero`, a failure received as a success.
-/

namespace ChatCodec

open Read

namespace ErrorCode

/-- A failure says success on the wire only under a value it does not know. -/
theorem faithful_iff {code : ErrorCode} : code.Faithful ↔ code ≠ unknown 0 := by
  constructor
  · rintro h rfl
    exact absurd (h rfl) (by decide)
  · intro hne hzero
    cases code with
    | unknown value => exact absurd (congrArg unknown hzero) hne
    | success => rfl
    | _ => exact absurd hzero (by decide)

end ErrorCode

/-- A response that is received has a code that stands for its own byte. -/
theorem Serializer.ofInt8_of_run_response {π : Type} {style : ResponseStyle} {s : Serializer π}
    {response : Response π} {src : Bytes} {n : Nat} (hread : Local s.deserialize)
    (h : run (Serializer.response style s).deserialize src = .ok (response, n)) :
    ErrorCode.ofInt8 response.error.toInt8 = response.error := by
  obtain ⟨m, k, j, herror, -, -, -⟩ := ok_of_run_response hread h
  -- the code was made from the byte that was read
  rw [Layout.read] at herror
  obtain ⟨value, -, hcode⟩ := run_bind_pure_eq_ok (parses_primitive .i8).local herror
  rw [hcode, ErrorCode.toInt8_ofInt8]

theorem Response.payload_received {π : Type} {style : ResponseStyle} {normal : π → π}
    {response : Response π} (h : response.error.isSuccess = false) :
    (response.received style normal).payload = none := by
  show (if response.error.isSuccess then response.payload else none).map normal = none
  rw [h]
  rfl

namespace Packet

/-- The body is that of a response with a payload. -/
def hasPayload : (p : Packet) → p.Body → Bool
  | ackResponse, body => body.payload.isSome
  | loginResponse, body => body.payload.isSome
  | registerResponse, body => body.payload.isSome
  | createRoomResponse, body => body.payload.isSome
  | joinRoomResponse, body => body.payload.isSome
  | fetchRoomsResponse, body => body.payload.isSome
  | postMessageResponse, body => body.payload.isSome
  | fetchMessagesResponse, body => body.payload.isSome
  | _, _ => false

variable {p : Packet} {body : p.Body} {code : ErrorCode}

/-- The payload of a failure does not reach the receiver. -/
theorem hasPayload_received (hcode : p.errorCode body = some code)
    (hfail : code.isSuccess = false) : p.hasPayload (p.received body) = false := by
  cases p with
  | ackResponse | loginResponse | registerResponse | createRoomResponse | joinRoomResponse
  | fetchRoomsResponse | postMessageResponse | fetchMessagesResponse =>
    cases hcode
    exact congrArg Option.isSome (Response.payload_received hfail)
  | _ => cases hcode

/-- A body that is received has a code that stands for its own byte. -/
theorem ofInt8_of_run {src : Bytes} {n : Nat} (hcode : p.errorCode body = some code)
    (h : run p.serializer.deserialize src = .ok (body, n)) :
    ErrorCode.ofInt8 code.toInt8 = code := by
  cases p with
  | ackResponse | loginResponse | registerResponse | createRoomResponse | joinRoomResponse
  | postMessageResponse =>
    cases hcode
    exact Serializer.ofInt8_of_run_response (Serializer.local_ofLayout _) h
  | fetchRoomsResponse | fetchMessagesResponse =>
    cases hcode
    exact Serializer.ofInt8_of_run_response
      (Serializer.clean_list (Serializer.local_ofLayout _)).local h
  | _ => cases hcode

end Packet

namespace Codec

variable {codec : Codec} {p : Packet} {body : p.Body} {code : ErrorCode}

/-- The body that a frame is decoded to has a code that stands for its own byte. -/
theorem ofInt8_of_decodeContent {header : Header} {content : Bytes}
    (hcode : p.errorCode body = some code)
    (h : p.spec.decodeContent p.serializer header content = .ok body) :
    ErrorCode.ofInt8 code.toInt8 = code := by
  unfold PacketSpec.decodeContent at h
  split at h
  · cases h
  · next received consumed hrun =>
    split at h
    · cases h
    · obtain ⟨-, -, rfl⟩ := ok_of_map h
      exact Packet.ofInt8_of_run hcode hrun

/-- A response that is not a success and can be encoded is decoded, all its bytes, to a response
that is not a success, has no payload and has the same byte for its code, if and only if its code is
not the unknown code with the byte of success. -/
theorem decode_failure_iff {pool pool' : BufferPool} {buffer : Buffer}
    (hcode : p.errorCode body = some code) (hfail : code.isSuccess = false)
    (hencode : codec.encode pool p body = (.ok buffer, pool')) :
    (∃ received code', codec.decode p buffer.bytes = .ok (received, buffer.length) ∧
      p.errorCode received = some code' ∧ code'.isSuccess = false ∧
      code'.toInt8 = code.toInt8 ∧ p.hasPayload received = false) ↔ code ≠ .unknown 0 := by
  obtain ⟨content, hout, hlimit, hbytes⟩ := encode_eq_ok hencode
  rw [Buffer.length, hbytes, decode_frameBytes hlimit]
  constructor
  · -- the unknown code with the byte of success is not received as a failure
    rintro ⟨received, code', hdecode, hcode', hfail', hsame, -⟩ rfl
    obtain ⟨decoded, hcontent, hanswer⟩ := ok_of_map hdecode
    cases hanswer
    -- the receiver makes success of the byte of success
    have hsuccess : code'.isSuccess = true := by
      rw [← ofInt8_of_decodeContent hcode' hcontent, hsame, ErrorCode.isSuccess_ofInt8]
      rfl
    rw [hfail'] at hsuccess
    cases hsuccess
  · -- under any other code both ends leave the payload out
    intro hne
    have hfaithful : code.Faithful := ErrorCode.faithful_iff.mpr hne
    have hall : ∀ code, p.errorCode body = some code → code.Faithful := by
      intro other hother
      rw [hcode] at hother
      cases hother
      exact hfaithful
    refine ⟨p.received body, .ofInt8 code.toInt8, ?_, ?_, ?_, ErrorCode.toInt8_ofInt8 _,
      Packet.hasPayload_received hcode hfail⟩
    · rw [decodeContent_sealedHeader hall hout hlimit]
      rfl
    · rw [Packet.errorCode_received, hcode]
      rfl
    · rw [ErrorCode.isSuccess_received hfaithful, hfail]

/-- A full room: the payload the sender had at hand is left out. -/
theorem decode_failure_roomFull :
    let frame : Buffer := ⟨[67, 87, 32, 0, 0, 1, 11, 1, 0, 0, 0, 11], 4096, by decide⟩
    standard.encode standard.freshPool .postMessageResponse ⟨.roomFull, none, some ⟨7⟩⟩ =
        (.ok frame, standard.freshPool) ∧
      ∃ received code, standard.decode .postMessageResponse frame.bytes =
          .ok (received, frame.length) ∧
        Packet.postMessageResponse.errorCode received = some code ∧ code.isSuccess = false ∧
        code.toInt8 = ErrorCode.roomFull.toInt8 ∧
        Packet.postMessageResponse.hasPayload received = false := by
  intro frame
  have hencode : standard.encode standard.freshPool .postMessageResponse
      ⟨.roomFull, none, some ⟨7⟩⟩ = (.ok frame, standard.freshPool) := rfl
  exact ⟨hencode, (decode_failure_iff rfl rfl hencode).mpr (by decide)⟩

/-- A failure received as a success. -/
theorem decode_unknown_zero :
    let frame : Buffer := ⟨[67, 87, 1, 0, 0, 1, 0, 1, 0, 0, 0, 0], 4096, by decide⟩
    (ErrorCode.unknown 0).isSuccess = false ∧
      standard.encode standard.freshPool .ackResponse (.failure (.unknown 0)) =
        (.ok frame, standard.freshPool) ∧
      standard.decode .ackResponse frame.bytes = .ok (.success (), frame.length) :=
  ⟨rfl, rfl, rfl⟩

end Codec

end ChatCodec
