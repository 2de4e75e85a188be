import ChatCodec.Codec
import ChatCodec.Proofs.Framing.Header

/-!
# Frames in bytes

A frame is a header, whose content size was written as zero and then replaced, and the content that
the serializer puts out. It comes out whole behind what was written before, or not at all.

* `Codec.sealedHeader` — the header that announces some content;
* `Codec.frameBytes` — the frame on the wire.

Main results: `Codec.encodeWith_of_output` and its converse `Codec.encodeWith_eq_ok`, and
`Codec.wellFormed_sealedHeader`, by which the receiver accepts the header.
-/

namespace ChatCodec

open Write (output)

/-! ## Writing over what was written -/

namespace Writer

/-- Replacing some of the bytes just appended is appending them replaced. -/
theorem replace_append {w : Writer} {src new : Bytes} {pos : Nat} (hw : w.Valid)
    (hfits : w.Fits src.length) (h : pos + new.length ≤ src.length) :
    (w.append src).replace (w.offset + pos) new = w.append (src.overwrite pos new) := by
  have hlen : (src.overwrite pos new).length = src.length := Bytes.length_overwrite h
  obtain ⟨sink, offset⟩ := w
  cases sink with
  | growable buffer start =>
    have hbuffer : buffer.bytes.length = start + offset := hw
    -- the position is counted from where the writer began in the buffer
    have hbytes : (buffer.bytes ++ src).overwrite (start + (offset + pos)) new =
        buffer.bytes ++ src.overwrite pos new := by
      have hmiddle := Bytes.overwrite_append buffer.bytes [] h
      rwa [List.append_nil, List.append_nil, hbuffer, Nat.add_assoc] at hmiddle
    have hle : start + (offset + pos) + new.length ≤ (buffer.bytes ++ src).length := by
      rw [List.length_append]
      omega
    simp only [append, replace, Buffer.append, Buffer.overwrite, dif_pos hle, hbytes, hlen]
  | fixed destination =>
    have hroom : offset + src.length ≤ destination.length := (fits_fixed hw).mp hfits
    have hfront : (destination.take offset).length = offset := by
      rw [List.length_take]
      omega
    have hbytes : (destination.overwrite offset src).overwrite (offset + pos) new =
        destination.overwrite offset (src.overwrite pos new) := by
      have hmiddle := Bytes.overwrite_append (destination.take offset)
        (destination.drop (offset + src.length)) h
      rw [hfront] at hmiddle
      have hsplit : destination.overwrite offset src =
          destination.take offset ++ src ++ destination.drop (offset + src.length) := rfl
      rw [hsplit, hmiddle, ← hlen]
      rfl
    simp only [append, replace, hbytes, hlen]

end Writer

namespace Codec

/-! ## Headers -/

/-- The header that announces some content. -/
def sealedHeader (packetType : PacketType) (errorCode : Option ErrorCode) (content : Bytes) :
    Header :=
  { provisionalHeader packetType errorCode with contentSize := .ofNat content.length }

/-- The frame of some content on the wire. -/
def frameBytes (codec : Codec) (packetType : PacketType) (errorCode : Option ErrorCode)
    (content : Bytes) : Bytes :=
  (sealedHeader packetType errorCode content).bytes codec.config.signature ++ content

section Headers

variable {packetType : PacketType} {errorCode : Option ErrorCode} {content : Bytes}

theorem packetType_provisionalHeader (packetType : PacketType) (errorCode : Option ErrorCode) :
    (provisionalHeader packetType errorCode).packetType = packetType := by
  cases errorCode with
  | none => rfl
  | some code =>
    rw [provisionalHeader, Header.withErrorCode]
    split <;> rfl

theorem packetType_sealedHeader (packetType : PacketType) (errorCode : Option ErrorCode)
    (content : Bytes) : (sealedHeader packetType errorCode content).packetType = packetType :=
  packetType_provisionalHeader packetType errorCode

/-- A header has an error code where its type asks for one, and it is the one given. -/
theorem errorCode_sealedHeader (packetType : PacketType) (errorCode : Option ErrorCode)
    (content : Bytes) : (sealedHeader packetType errorCode content).errorCode =
      if packetType.hasErrorCode then some ((errorCode.map ErrorCode.toInt8).getD 0) else none := by
  unfold sealedHeader provisionalHeader Header.withErrorCode Header.ofType
  cases errorCode <;> cases packetType.hasErrorCode <;> simp

/-- The limit of a valid configuration fits the content size field. -/
theorem maxContentSize_le (codec : Codec) : codec.config.maxContentSize ≤ Write.maxPrefix := by
  have hvalid := codec.valid
  unfold Config.fault? at hvalid
  split at hvalid
  · cases hvalid
  · omega

theorem toInt_contentSize {codec : Codec} (h : content.length ≤ codec.config.maxContentSize) :
    (sealedHeader packetType errorCode content).contentSize.toInt = content.length := by
  have hle := Nat.le_trans h codec.maxContentSize_le
  rw [Write.maxPrefix] at hle
  exact Int32.toInt_ofNat_of_lt (by omega)

theorem contentLength_sealedHeader {codec : Codec}
    (h : content.length ≤ codec.config.maxContentSize) :
    (sealedHeader packetType errorCode content).contentLength = content.length := by
  rw [Header.contentLength, toInt_contentSize h]
  rfl

/-- A receiver with the same configuration accepts the header. -/
theorem wellFormed_sealedHeader {codec : Codec}
    (h : content.length ≤ codec.config.maxContentSize) :
    (sealedHeader packetType errorCode content).WellFormed codec.config.maxContentSize where
  errorCode := by
    rw [errorCode_sealedHeader, packetType_sealedHeader]
    cases packetType.hasErrorCode <;> rfl
  nonneg := by
    rw [toInt_contentSize h]
    exact Int.natCast_nonneg _
  contentLength_le := by rwa [contentLength_sealedHeader h]

end Headers

/-! ## Encoding -/

section Encoding

variable {α : Type} {codec : Codec} {packetType : PacketType} {errorCode : Option ErrorCode}
variable {serializer : Serializer α} {body : α} {w w' : Writer} {content : Bytes} {n : Nat}

theorem length_frameBytes (codec : Codec) (packetType : PacketType) (errorCode : Option ErrorCode)
    (content : Bytes) : (codec.frameBytes packetType errorCode content).length =
      packetType.headerLength + content.length := by
  rw [frameBytes, List.length_append, Header.length_bytes, Header.length, packetType_sealedHeader]

theorem length_provisionalHeader (codec : Codec) (packetType : PacketType)
    (errorCode : Option ErrorCode) :
    ((provisionalHeader packetType errorCode).bytes codec.config.signature).length =
      packetType.headerLength := by
  rw [Header.length_bytes, Header.length, packetType_provisionalHeader]

/-- The content size is the last field of a header. -/
theorem contentSizeOffset_provisionalHeader (packetType : PacketType)
    (errorCode : Option ErrorCode) :
    (provisionalHeader packetType errorCode).contentSizeOffset + 4 = packetType.headerLength := by
  rw [Header.contentSizeOffset, Header.length, packetType_provisionalHeader,
    PacketType.headerLength]
  split <;> rfl

/-- Sealing the provisional header is writing the content size over the zero. -/
theorem overwrite_provisionalHeader (codec : Codec) (packetType : PacketType)
    (errorCode : Option ErrorCode) (content : Bytes) :
    ((provisionalHeader packetType errorCode).bytes codec.config.signature ++ content).overwrite
        (provisionalHeader packetType errorCode).contentSizeOffset
        (Primitive.i32.encode (.ofNat content.length)) =
      codec.frameBytes packetType errorCode content :=
  Header.overwrite_contentSize _ _ _ content

/-- A header that fits is written, and leaves the rest of the space to what comes behind it. -/
theorem write_provisionalHeader {limit : Nat} (codec : Codec) (errorCode : Option ErrorCode)
    (hw : w.Valid) (hfits : w.Fits (packetType.headerLength + limit)) :
    ∃ front, front = (provisionalHeader packetType errorCode).bytes codec.config.signature ∧
      w.Fits front.length ∧ (w.append front).Fits limit ∧
      (provisionalHeader packetType errorCode).write codec.config.signature w =
        .ok () (w.append front) := by
  have hfront := length_provisionalHeader codec packetType errorCode
  have hfits₁ : w.Fits
      ((provisionalHeader packetType errorCode).bytes codec.config.signature).length :=
    hfits.mono (by rw [hfront]; exact Nat.le_add_right _ _)
  exact ⟨_, rfl, hfits₁, (Writer.fits_append hw hfits₁).mpr (by rwa [hfront]),
    (Header.local_write _ _).ok hw (Header.output_write _ _) hfits₁⟩

/-- Content within the limit that fits becomes a frame behind what is written. -/
theorem encodeWith_of_output (hserializer : serializer.WritesLocally) (hw : w.Valid)
    (hout : output (serializer.serialize body) = .ok ((), content))
    (hlimit : content.length ≤ codec.config.maxContentSize)
    (hfits : w.Fits (codec.frameBytes packetType errorCode content).length) :
    codec.encodeWith packetType errorCode serializer body w =
      .ok (codec.frameBytes packetType errorCode content).length
        (w.append (codec.frameBytes packetType errorCode content)) := by
  have hpatch := overwrite_provisionalHeader codec packetType errorCode content
  have hlength := length_frameBytes codec packetType errorCode content
  have hlen := length_provisionalHeader codec packetType errorCode
  have hoffset := contentSizeOffset_provisionalHeader packetType errorCode
  -- the header and the content go behind what is written, one after the other
  obtain ⟨front, hfront, hfits₁, hfits₂, hwrite₁⟩ :=
    write_provisionalHeader codec errorCode hw (hlength ▸ hfits)
  rw [← hfront] at hpatch hlen
  have hfits₃ : w.Fits (front ++ content).length := by
    rwa [List.length_append, hlen, ← hlength]
  have hwrite₂ := (hserializer body).ok (hw.append hfits₁) hout hfits₂
  rw [Writer.append_append hw hfits₁] at hwrite₂
  unfold encodeWith
  generalize provisionalHeader packetType errorCode = header at hwrite₁ hpatch hoffset
  rw [Write.atomic, Write.get_bind_apply, Write.bind_of_ok hwrite₁, Write.get_bind_apply,
    Write.bind_of_ok hwrite₂]
  -- the size is how far the writer moved over the content, and it replaces the zero
  have hsize : (w.append (front ++ content)).offset - (w.append front).offset =
      content.length := by
    simp only [Writer.offset_append, List.length_append]
    omega
  have hpos : header.contentSizeOffset + (Primitive.i32.encode (.ofNat content.length)).length ≤
      (front ++ content).length := by
    rw [Primitive.length_encode, List.length_append, hlen, ← hoffset]
    exact Nat.le_add_right _ _
  have hwritten : w.offset + header.contentSizeOffset + 4 ≤
      (w.append (front ++ content)).offset := by
    simp only [Writer.offset_append, List.length_append]
    omega
  rw [Write.get_bind_apply, hsize, if_neg (Nat.not_lt.mpr hlimit)]
  dsimp only
  rw [Write.bind_of_ok (Write.patchI32_apply hwritten), Writer.replace_append hw hfits₃ hpos,
    hpatch, Write.get_bind_apply, Writer.offset_append, Nat.add_sub_cancel_left]
  rfl

/-- What is encoded is the frame of the output of the serializer, which is within the limit. -/
theorem encodeWith_eq_ok (hserializer : serializer.WritesLocally) (hw : w.Valid)
    (h : codec.encodeWith packetType errorCode serializer body w = .ok n w') :
    ∃ content, output (serializer.serialize body) = .ok ((), content) ∧
      content.length ≤ codec.config.maxContentSize ∧
      w.Fits (codec.frameBytes packetType errorCode content).length ∧
      n = (codec.frameBytes packetType errorCode content).length ∧
      w' = w.append (codec.frameBytes packetType errorCode content) := by
  -- what came of it is known once the output, the limit and the space are
  suffices hcontent : ∃ content, output (serializer.serialize body) = .ok ((), content) ∧
      content.length ≤ codec.config.maxContentSize ∧
      w.Fits (codec.frameBytes packetType errorCode content).length by
    obtain ⟨content, hout, hlimit, hfits⟩ := hcontent
    rw [encodeWith_of_output hserializer hw hout hlimit hfits] at h
    cases h
    exact ⟨content, hout, hlimit, hfits, rfl, rfl⟩
  unfold encodeWith at h
  have hwhole := Write.ok_of_atomic h
  rw [Write.get_bind_apply] at hwhole
  -- the header
  obtain ⟨_, w₁, hwrite₁, hrest⟩ := Write.ok_of_bind hwhole
  obtain ⟨src, hsrc, hfits₁, rfl⟩ := (Header.local_write _ _).of_ok hw hwrite₁
  rw [Header.output_write] at hsrc
  cases hsrc
  rw [Write.get_bind_apply] at hrest
  -- the content
  obtain ⟨_, w₂, hwrite₂, hseal⟩ := Write.ok_of_bind hrest
  obtain ⟨content, hout, hfits₂, rfl⟩ := (hserializer body).of_ok (hw.append hfits₁) hwrite₂
  refine ⟨content, hout, ?_, ?_⟩
  · -- content above the limit is refused after it was written
    refine Nat.le_of_not_lt fun hlarge => ?_
    rw [Write.get_bind_apply, Writer.offset_append _ content, Nat.add_sub_cancel_left,
      if_pos hlarge, Write.throw_bind] at hseal
    cases hseal
  · -- header and content fit one after the other, so the frame fits
    rw [Writer.fits_append hw hfits₁, length_provisionalHeader] at hfits₂
    rwa [length_frameBytes]

end Encoding

end Codec

end ChatCodec
