import ChatCodec.Proofs.Framing.Decoding
import ChatCodec.Proofs.Framing.Encoding
import ChatCodec.Proofs.RoundTrip.Serializers

/-!
# Packets across the wire

What a sender encodes is the frame of the packet's content, and who decodes the content behind its
header receives the body, unless the body is a response whose failure is sent as the byte of
success.

Main results: `Codec.encodeInto_eq_ok` and `Codec.encode_eq_ok`, what an encoded packet consists of;
`Codec.decodeContent_sealedHeader`, how its content is received; and `Codec.decode_frameBytes`.
-/

namespace ChatCodec

open Write (output)
open Read

namespace Packet

/-- The error code of a body that is received is the one its byte stands for. -/
theorem errorCode_received (p : Packet) (body : p.Body) :
    p.errorCode (p.received body) = (p.errorCode body).map fun code => .ofInt8 code.toInt8 := by
  cases p <;> rfl

end Packet

namespace Codec

variable {codec : Codec} {p : Packet} {body : p.Body} {content : Bytes}

/-- What is encoded is the frame of the body as the packet lays it out. -/
theorem encodeInto_eq_ok {w w' : Writer} {n : Nat} (hw : w.Valid)
    (h : codec.encodeInto p body w = .ok n w') :
    ∃ content, output (p.serializer.serialize body) = .ok ((), content) ∧
      content.length ≤ codec.config.maxContentSize ∧
      w.Fits (codec.frameBytes p.code (p.errorCode body) content).length ∧
      n = (codec.frameBytes p.code (p.errorCode body) content).length ∧
      w' = w.append (codec.frameBytes p.code (p.errorCode body) content) :=
  encodeWith_eq_ok p.writesLocally_serializer hw h

/-- Into a buffer just the frame is written, whatever the buffer held before. -/
theorem written_of_encodeInto {buffer : Buffer} {w : Writer} {n : Nat}
    (h : codec.encodeInto p body (.growable buffer) = .ok n w) :
    ∃ content, output (p.serializer.serialize body) = .ok ((), content) ∧
      content.length ≤ codec.config.maxContentSize ∧
      w.written = codec.frameBytes p.code (p.errorCode body) content := by
  have hvalid := Writer.valid_growable buffer
  obtain ⟨content, hout, hlimit, hfits, -, rfl⟩ := encodeInto_eq_ok hvalid h
  have hempty : (Writer.growable buffer).written = [] := List.drop_length
  exact ⟨content, hout, hlimit, by rw [Writer.written_append hvalid hfits, hempty, List.nil_append]⟩

/-- A pooled buffer holds the frame and nothing else. -/
theorem encode_eq_ok {pool pool' : BufferPool} {buffer : Buffer}
    (h : codec.encode pool p body = (.ok buffer, pool')) :
    ∃ content, output (p.serializer.serialize body) = .ok ((), content) ∧
      content.length ≤ codec.config.maxContentSize ∧
      buffer.bytes = codec.frameBytes p.code (p.errorCode body) content := by
  unfold encode at h
  dsimp only at h
  split at h
  · next n w hencode =>
    cases h
    obtain ⟨content, hout, hlimit, -, -, rfl⟩ :=
      encodeInto_eq_ok (Writer.valid_growable _) hencode
    refine ⟨content, hout, hlimit, ?_⟩
    show pool.acquire.1.bytes ++ _ = _
    rw [pool.bytes_acquire, List.nil_append]
  · cases h

section Frames

variable {packetType : PacketType} {errorCode : Option ErrorCode}

/-- The header of a frame is read back, whatever follows the frame. -/
theorem run_readHeader_frameBytes (hlimit : content.length ≤ codec.config.maxContentSize)
    (rest : Bytes) :
    run codec.readHeader (codec.frameBytes packetType errorCode content ++ rest) =
      .ok (sealedHeader packetType errorCode content,
        (sealedHeader packetType errorCode content).length) := by
  rw [frameBytes, List.append_assoc,
    ← Header.length_bytes (sealedHeader packetType errorCode content) codec.config.signature]
  exact Header.takes_read (wellFormed_sealedHeader hlimit) _ _

/-- The header repeats the error code a receiver finds in the body. -/
theorem checkCode_sealedHeader (packetType : PacketType) (errorCode : Option ErrorCode)
    (content : Bytes) :
    PacketSpec.checkCode (sealedHeader packetType errorCode content).errorCode
      (errorCode.map fun code => .ofInt8 code.toInt8) = .ok () := by
  rw [errorCode_sealedHeader]
  cases errorCode with
  | none => cases packetType.hasErrorCode <;> rfl
  | some code =>
    cases packetType.hasErrorCode with
    | false => rfl
    | true => exact if_pos (ErrorCode.toInt8_ofInt8 code.toInt8).symm

end Frames

/-- The content of a packet is received as its body, if it says success only when it is success. -/
theorem decodeContent_sealedHeader
    (hfaithful : ∀ code, p.errorCode body = some code → code.Faithful)
    (hout : output (p.serializer.serialize body) = .ok ((), content))
    (hlimit : content.length ≤ codec.config.maxContentSize) :
    p.spec.decodeContent p.serializer (sealedHeader p.code (p.errorCode body) content) content =
      .ok (p.received body) := by
  -- far below the sizes at which the product of a count overflows
  have hsmall : content.length < UInt64.size := by
    have hle := Nat.le_trans hlimit codec.maxContentSize_le
    exact Nat.lt_of_le_of_lt hle (by decide)
  have hrun : run p.serializer.deserialize content = .ok (p.received body, content.length) := by
    have htakes := p.restores.takes hfaithful hout hsmall []
    rwa [List.append_nil] at htakes
  have hcode : p.spec.errorCode (p.received body) = _ := p.errorCode_received body
  rw [PacketSpec.decodeContent, hrun]
  dsimp only
  rw [if_neg (not_not_intro rfl), hcode, checkCode_sealedHeader]
  rfl

/-- Decoding a frame is decoding its content, all of it. -/
theorem decode_frameBytes {errorCode : Option ErrorCode}
    (hlimit : content.length ≤ codec.config.maxContentSize) :
    codec.decode p (codec.frameBytes p.code errorCode content) =
      (p.spec.decodeContent p.serializer (sealedHeader p.code errorCode content) content).map
        (·, (codec.frameBytes p.code errorCode content).length) := by
  have hheader : run codec.readHeader (codec.frameBytes p.code errorCode content) = _ :=
    (List.append_nil (codec.frameBytes p.code errorCode content)) ▸
      run_readHeader_frameBytes hlimit []
  have hframe : (sealedHeader p.code errorCode content).frameLength =
      (codec.frameBytes p.code errorCode content).length := by
    rw [frameBytes, List.length_append, Header.length_bytes, Header.frameLength,
      contentLength_sealedHeader hlimit]
  have hcontent : ((codec.frameBytes p.code errorCode content).drop
      (sealedHeader p.code errorCode content).length).take
        (sealedHeader p.code errorCode content).contentLength = content := by
    rw [contentLength_sealedHeader hlimit, frameBytes,
      ← Header.length_bytes (sealedHeader p.code errorCode content) codec.config.signature,
      List.drop_left, List.take_length]
  rw [decode_of_header hheader (packetType_sealedHeader _ _ _), hframe,
    if_neg (Nat.lt_irrefl _), hcontent]

end Codec

end ChatCodec
