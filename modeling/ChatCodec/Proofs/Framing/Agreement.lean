import ChatCodec.Proofs.Framing.Deframer
import ChatCodec.Proofs.Framing.Foreign

/-!
# Two ways to receive agree

A receiver that holds all the bytes decodes one packet after another with `Codec.decodeAny`. A
receiver of a stream pushes the bytes into a deframer as they arrive, takes frames off it and
decodes each with `Codec.decodeFrame`. The first one reads a body with the bytes of later packets
behind it, the second one from a buffer that ends with the body and lies in pieces. A serializer
that looks at the bytes ahead alone cannot tell the two apart, and those of the catalogue are of
this kind. One that asks for its offset can (`Codec.attempts_of_positional`), so the registry is
taken to be reachable by registrations of serializers that are `Read.Local`.

* `Attempt` — what one attempt to receive a packet comes to;
* `Codec.attempts`, `Codec.frameAttempts` — the attempts of the two receivers, up to the first that
  brings no packet.

Main results: the attempts are the same (`Codec.attempts_eq_frameAttempts`), and each packet takes
bytes, so that they come to an end (`Codec.attempts_eq_of_length_lt`).
-/

namespace ChatCodec

open Read

/-- What an attempt to receive a packet comes to. -/
inductive Attempt where
  /-- A packet arrived, none where it is discarded, and took so many bytes. -/
  | received (packet : Option Incoming) (consumed : Nat)
  /-- More bytes have to arrive. -/
  | incomplete
  | badHeader (e : CodecError)
  | badBody (e : CodecError)

namespace Codec

/-- Receives the packet at the start of some bytes. -/
def attempt (codec : Codec) (src : Bytes) : Attempt :=
  match codec.decodeAny src with
  | .ok (packet, n) => .received packet n
  | .error e =>
    if e.isInsufficientData then
      .incomplete
    else
      match run codec.readHeader src with
      | .error _ => .badHeader e
      | .ok _ => .badBody e

/-- Receives the packets of some bytes in so many calls, each from where the last one ended, up to
the first that brings no packet. -/
def attempts (codec : Codec) : Nat → Bytes → List Attempt
  | 0, _ => []
  | calls + 1, src =>
    match codec.attempt src with
    | .received packet n => .received packet n :: codec.attempts calls (src.drop n)
    | other => [other]

/-- Receives the packet of the next frame. What it took is what the deframer has less. -/
def frameAttempt (codec : Codec) (d : Deframer) : Attempt × Deframer :=
  match d.next with
  | (.error e, d') => (.badHeader e, d')
  | (.ok none, d') => (.incomplete, d')
  | (.ok (some frame), d') =>
    match codec.decodeFrame frame with
    | .ok packet => (.received packet (d.buffered - d'.buffered), d')
    | .error e => (.badBody e, d')

/-- Receives the packets of a deframer in so many calls, up to the first that brings no packet. -/
def frameAttempts (codec : Codec) : Nat → Deframer → List Attempt
  | 0, _ => []
  | calls + 1, d =>
    match codec.frameAttempt d with
    | (.received packet n, d') => .received packet n :: codec.frameAttempts calls d'
    | (other, _) => [other]

section Agreement

variable {codec : Codec}

theorem attempt_of_error {src : Bytes} {e : CodecError}
    (h : run codec.readHeader src = .error e) :
    codec.attempt src = if e.isInsufficientData then .incomplete else .badHeader e := by
  rw [attempt, decodeAny_of_error h, h]

theorem attempt_of_short {src : Bytes} {header : Header} {n : Nat}
    (hregistry : codec.registry.Reachable @Local) (h : run codec.readHeader src = .ok (header, n))
    (hlt : src.length < header.frameLength) : codec.attempt src = .incomplete := by
  rw [attempt, decodeAny_of_header hregistry h, if_pos hlt]
  rfl

/-- A frame that is there is never short of bytes, so its packet arrives or its body is bad. -/
theorem attempt_of_frame {src content : Bytes} {header : Header} {n : Nat}
    (hregistry : codec.registry.Reachable @Local) (h : run codec.readHeader src = .ok (header, n))
    (hle : header.frameLength ≤ src.length)
    (hcontent : content = (src.drop header.length).take header.contentLength) :
    content.length = header.contentLength ∧ codec.attempt src =
      match codec.registry.decodeContent header content with
      | .ok packet => .received packet header.frameLength
      | .error e => .badBody e := by
  have hlen : content.length = header.contentLength := hcontent ▸ length_content hle
  refine ⟨hlen, ?_⟩
  rw [attempt, decodeAny_of_header hregistry h, if_neg (Nat.not_lt.mpr hle), ← hcontent, h]
  cases hdecode : codec.registry.decodeContent header content with
  | ok packet => rfl
  | error e =>
    have hcomplete := hregistry.complete_dispatch hlen hdecode
    show (if e.isInsufficientData then _ else _) = _
    rw [hcomplete]
    rfl

/-- A packet that arrives takes bytes, and only such as are there. -/
theorem consumed_of_attempt {src : Bytes} {packet : Option Incoming} {n : Nat}
    (hregistry : codec.registry.Reachable @Local) (h : codec.attempt src = .received packet n) :
    0 < n ∧ n ≤ src.length := by
  cases hheader : run codec.readHeader src with
  | error e =>
    rw [attempt_of_error hheader] at h
    split at h <;> cases h
  | ok answer =>
    obtain ⟨header, k⟩ := answer
    rcases Nat.lt_or_ge src.length header.frameLength with hlt | hle
    · rw [attempt_of_short hregistry hheader hlt] at h
      cases h
    · obtain ⟨-, hattempt⟩ := attempt_of_frame hregistry hheader hle rfl
      rw [hattempt] at h
      split at h
      · cases h
        refine ⟨Nat.lt_of_lt_of_le ?_ (Nat.le_add_right _ _), hle⟩
        rw [Header.length, PacketType.headerLength]
        split <;> decide
      · cases h

/-- The attempts come to an end: more calls than there are bytes bring nothing new. -/
theorem attempts_eq_of_length_lt {src : Bytes} {calls more : Nat}
    (hregistry : codec.registry.Reachable @Local) (h : src.length < calls) :
    codec.attempts (calls + more) src = codec.attempts calls src := by
  induction calls generalizing src with
  | zero => cases h
  | succ calls ih =>
    rw [Nat.succ_add, attempts, attempts]
    cases hattempt : codec.attempt src with
    | received packet n =>
      obtain ⟨hpos, hle⟩ := consumed_of_attempt hregistry hattempt
      -- fewer bytes are left, and still fewer than calls
      have hshorter : (src.drop n).length < calls := by
        rw [List.length_drop]
        omega
      dsimp only
      rw [ih hshorter]
    | incomplete => rfl
    | badHeader e => rfl
    | badBody e => rfl

/-- One attempt comes to the same in both receivers, and leaves them the same bytes. -/
theorem frameAttempt_eq (hregistry : codec.registry.Reachable @Local) (buffer : Segments) :
    ∃ rest, codec.frameAttempt { codec.deframer with buffer } =
        (codec.attempt buffer.toBytes, { codec.deframer with buffer := rest }) ∧
      ∀ {packet n}, codec.attempt buffer.toBytes = .received packet n →
        rest.toBytes = buffer.toBytes.drop n := by
  have hbuffered (buffer : Segments) :
      ({ codec.deframer with buffer } : Deframer).buffered = buffer.toBytes.length :=
    Deframer.buffered_eq_length _
  -- both begin with the header; the frame is cut off only when the content is there as well
  cases hheader : run codec.readHeader buffer.toBytes with
  | error e =>
    have hnext : ({ codec.deframer with buffer } : Deframer).next = _ :=
      Deframer.next_of_error hheader
    rw [attempt_of_error hheader, frameAttempt, hnext]
    refine ⟨buffer, ?_, fun h => ?_⟩
    · cases e.isInsufficientData <;> rfl
    · cases he : e.isInsufficientData <;> rw [he] at h <;> cases h
  | ok answer =>
    obtain ⟨header, k⟩ := answer
    rcases Nat.lt_or_ge buffer.toBytes.length header.frameLength with hlt | hle
    · have hnext : ({ codec.deframer with buffer } : Deframer).next = _ :=
        Deframer.next_of_short hheader hlt
      rw [attempt_of_short hregistry hheader hlt, frameAttempt, hnext]
      exact ⟨buffer, rfl, fun h => by cases h⟩
    · obtain ⟨content, rest, hnext, hcontent, hrest⟩ :=
        Deframer.next_of_frame (d := { codec.deframer with buffer }) hheader hle
      change rest.toBytes = buffer.toBytes.drop header.frameLength at hrest
      obtain ⟨hlen, hattempt⟩ := attempt_of_frame hregistry hheader hle hcontent
      have hframe : codec.decodeFrame ⟨header, content⟩ =
          codec.registry.decodeContent header content.toBytes := decodeFrame_eq hregistry hlen
      have htaken : buffer.toBytes.length - rest.toBytes.length = header.frameLength := by
        rw [hrest, List.length_drop]
        omega
      rw [hattempt, frameAttempt, hnext]
      dsimp only
      rw [hframe, hbuffered, hbuffered, htaken]
      refine ⟨rest, ?_, fun h => ?_⟩
      · cases codec.registry.decodeContent header content.toBytes <;> rfl
      · split at h
        · cases h
          exact hrest
        · cases h

/-- The attempts of a receiver of frames are those of one that holds the bytes of its buffer. -/
theorem frameAttempts_eq (hregistry : codec.registry.Reachable @Local) (calls : Nat)
    (buffer : Segments) : codec.frameAttempts calls { codec.deframer with buffer } =
      codec.attempts calls buffer.toBytes := by
  -- on the calls, for any buffer: what an attempt leaves in it are the bytes the other goes on with
  induction calls generalizing buffer with
  | zero => rfl
  | succ calls ih =>
    obtain ⟨rest, hattempt, hrest⟩ := frameAttempt_eq hregistry buffer
    rw [frameAttempts, attempts, hattempt]
    cases hsame : codec.attempt buffer.toBytes with
    | received packet n =>
      dsimp only
      rw [ih, hrest hsame]
    | incomplete => rfl
    | badHeader e => rfl
    | badBody e => rfl

/-- However the bytes of a stream are cut into chunks, its frames are received as its packets are by
one who holds all the bytes: the same packets, each taking as many bytes, and then the same error or
the same need for more. This is so of every registry whose serializers look at the bytes ahead
alone. -/
theorem attempts_eq_frameAttempts (hregistry : codec.registry.Reachable @Local)
    (chunks : List Bytes) (calls : Nat) :
    codec.frameAttempts calls (chunks.foldl Deframer.push codec.deframer) =
      codec.attempts calls chunks.flatten := by
  obtain ⟨buffer, hpushed, hbytes⟩ := codec.deframer.foldl_push chunks
  rw [hpushed, frameAttempts_eq hregistry, hbytes]
  rfl

/-- A receiver that knows one packet only gets the packets of a stream cut inside a header, passes
over one of another type, and waits for more. -/
theorem attempts_eq_frameAttempts_single :
    let codec : Codec :=
      ⟨.standard, Registry.empty.insert (Registry.packetEntry .leaveRoomRequest
        Packet.leaveRoomRequest.serializer), rfl⟩
    let chunks : List Bytes := [[67, 87, 3], [0, 0, 0, 2, 0, 0], [], [0, 9, 9, 67]]
    codec.registry.Reachable @Local ∧
      codec.frameAttempts 3 (chunks.foldl Deframer.push codec.deframer) =
        codec.attempts 3 chunks.flatten ∧
      codec.attempts 3 chunks.flatten = [.received none 12, .incomplete] :=
  have hregistry : Registry.Reachable @Local (Registry.empty.insert (Registry.packetEntry
      .leaveRoomRequest Packet.leaveRoomRequest.serializer)) :=
    .registerPacket .empty (Packet.local_deserialize .leaveRoomRequest) rfl
  ⟨hregistry, attempts_eq_frameAttempts hregistry _ _, rfl⟩

end Agreement

/-- A serializer that asks for its offset is received in two ways. Behind a header of ten bytes the
body stands at offset ten; in a frame of its own it stands at the start. -/
theorem attempts_of_positional :
    let codec := ofRoomDeleted RoomDeleted.positional
    let src : Bytes := [67, 87, 4, 0, 0, 2, 8, 0, 0, 0, 1, 0, 0, 0, 0, 0, 0, 0]
    let received (place : UInt64) : Attempt :=
      .received (some ⟨.roomDeletedBroadcast, ⟨⟨place⟩⟩⟩) 18
    codec.registry.Reachable @Indifferent ∧
      codec.attempts 1 [src].flatten = [received 10] ∧
      codec.frameAttempts 1 ([src].foldl Deframer.push codec.deframer) = [received 0] ∧
      codec.frameAttempts 1 ([src].foldl Deframer.push codec.deframer) ≠
        codec.attempts 1 [src].flatten := by
  refine ⟨reachable_ofRoomDeleted RoomDeleted.indifferent_positional, rfl, rfl, fun h => ?_⟩
  have hplaces : [Attempt.received (some ⟨.roomDeletedBroadcast, ⟨⟨0⟩⟩⟩) 18] =
      [.received (some ⟨.roomDeletedBroadcast, ⟨⟨10⟩⟩⟩) 18] := h
  cases hplaces

end Codec

end ChatCodec
