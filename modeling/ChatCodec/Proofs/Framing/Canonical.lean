import ChatCodec.Proofs.Framing.Packets
import ChatCodec.Proofs.RoundTrip.Canonical

/-!
# Every packet has one spelling

Encoding undoes decoding: bytes that are decoded as a packet are the frame of its body, and what is
encoded of the body are these bytes again. The header adds no freedom, since the packet and its body
decide all of its fields.

Main results: `Codec.frameBytes_of_decode`, and from it `Codec.encodeInto_of_decode`.
-/

namespace ChatCodec

open Write (output)
open Read

namespace PacketSpec

variable {β : Type} {spec : PacketSpec β} {serializer : Serializer β} {header : Header}

/-- Content is decoded as a body only if it is all used and its code is that of the header. -/
theorem ok_of_decodeContent {content : Bytes} {body : β}
    (h : spec.decodeContent serializer header content = .ok body) :
    run serializer.deserialize content = .ok (body, content.length) ∧
      checkCode header.errorCode (spec.errorCode body) = .ok () := by
  unfold decodeContent at h
  split at h
  · cases h
  · next body' consumed hrun =>
    split at h
    · cases h
    · next hall =>
      obtain ⟨⟨⟩, hcode, hbody⟩ := ok_of_map h
      cases hbody
      exact ⟨Decidable.not_not.mp hall ▸ hrun, hcode⟩

end PacketSpec

/-- The packets whose headers have an error code are those whose bodies have one. -/
theorem Packet.hasErrorCode_code (p : Packet) (body : p.Body) :
    p.code.hasErrorCode = (p.errorCode body).isSome := by
  cases p <;> rfl

namespace Codec

variable {codec : Codec} {p : Packet} {body : p.Body} {src : Bytes} {n : Nat}

/-- A body is decoded only behind a header of its packet. -/
theorem header_of_decode (h : codec.decode p src = .ok (body, n)) :
    ∃ header, run codec.readHeader src = .ok (header, header.length) ∧
      header.packetType = p.code := by
  have hread : Local codec.readHeader := (Header.clean_read _ _).local
  rw [decode, run_atomic] at h
  cases hrun : run codec.readHeader src with
  | error e =>
    rw [run_bind_of_error hread hrun] at h
    cases h
  | ok answer =>
    obtain ⟨header, k⟩ := answer
    obtain ⟨-, rfl, -⟩ := Header.eq_of_run_read hrun
    refine ⟨header, rfl, Decidable.byContradiction fun hne => ?_⟩
    have hthrow : p.spec.decodeBody p.serializer header =
        throw (.packetTypeMismatch p.code header.packetType) := PacketSpec.decodeBody_of_ne hne
    have hnext : Local (p.spec.decodeBody p.serializer header) := by
      rw [hthrow]
      exact (parses_throw _).local
    rw [run_bind_of_ok hread hnext hrun, hthrow] at h
    cases h

/-- The header in front of a body is the one a sender puts there. -/
theorem sealedHeader_eq {header : Header} {limit : Nat} {content : Bytes}
    (hwell : header.WellFormed limit) (htype : header.packetType = p.code)
    (hlen : content.length = header.contentLength)
    (hcheck : PacketSpec.checkCode header.errorCode (p.errorCode body) = .ok ()) :
    sealedHeader p.code (p.errorCode body) content = header := by
  have hsize : (sealedHeader p.code (p.errorCode body) content).contentSize =
      header.contentSize := by
    show Int32.ofNat content.length = _
    rw [hlen, Header.contentLength, Write.ofNat_toNat_toInt hwell.nonneg]
  have hcode : (sealedHeader p.code (p.errorCode body) content).errorCode =
      header.errorCode := by
    have hsome := hwell.errorCode
    rw [htype, p.hasErrorCode_code body] at hsome
    rw [errorCode_sealedHeader, p.hasErrorCode_code body]
    cases herror : header.errorCode with
    | none =>
      rw [herror] at hsome
      rw [← hsome]
      rfl
    | some headerCode =>
      obtain ⟨code, hbody⟩ := Option.isSome_iff_exists.mp (hsome.symm.trans (herror ▸ rfl))
      rw [herror, hbody, PacketSpec.checkCode] at hcheck
      split at hcheck
      · next heq =>
        rw [hbody, heq]
        rfl
      · cases hcheck
  obtain ⟨packetType, errorCode, contentSize⟩ := header
  have hpacket := packetType_sealedHeader p.code (p.errorCode body) content
  generalize sealedHeader p.code (p.errorCode body) content = written at hsize hcode hpacket
  obtain ⟨packetType', errorCode', contentSize'⟩ := written
  subst hsize hcode hpacket htype
  rfl

/-- Bytes that are decoded are the frame of the body. -/
theorem frameBytes_of_decode (h : codec.decode p src = .ok (body, n)) :
    ∃ content, output (p.serializer.serialize body) = .ok ((), content) ∧
      content.length ≤ codec.config.maxContentSize ∧ n ≤ src.length ∧
      src.take n = codec.frameBytes p.code (p.errorCode body) content := by
  obtain ⟨header, hheader, htype⟩ := header_of_decode h
  obtain ⟨hwell, -, hbytes⟩ := Header.eq_of_run_read hheader
  rw [decode_of_header hheader htype] at h
  split at h
  · cases h
  · next hlt =>
    obtain ⟨_, hcontent, hanswer⟩ := ok_of_map h
    cases hanswer
    obtain ⟨hrun, hcheck⟩ := PacketSpec.ok_of_decodeContent hcontent
    have hle := Nat.le_of_not_lt hlt
    have hlen : ((src.drop header.length).take header.contentLength).length =
        header.contentLength := length_content hle
    have hout := p.canonical.spells _ _ _ hrun
    rw [List.take_length] at hout
    refine ⟨_, hout, by rw [hlen]; exact hwell.contentLength_le, hle, ?_⟩
    rw [frameBytes, sealedHeader_eq hwell htype hlen hcheck, ← hbytes, Header.frameLength,
      List.take_add]

/-- Content within the limit becomes a frame at the end of a buffer. -/
theorem encodeInto_of_output {content : Bytes}
    (hout : output (p.serializer.serialize body) = .ok ((), content))
    (hlimit : content.length ≤ codec.config.maxContentSize) (buffer : Buffer) :
    ∃ w, codec.encodeInto p body (.growable buffer) =
        .ok (codec.frameBytes p.code (p.errorCode body) content).length w ∧
      w.toBuffer.bytes = buffer.bytes ++ codec.frameBytes p.code (p.errorCode body) content :=
  ⟨_, encodeWith_of_output p.writesLocally_serializer (Writer.valid_growable buffer) hout hlimit
    (Writer.fits_of_space rfl _), rfl⟩

/-- Encoding undoes decoding: of what is decoded, just the bytes it was decoded from are encoded,
and no other bytes are decoded as it. -/
theorem encodeInto_of_decode (h : codec.decode p src = .ok (body, n)) :
    n ≤ src.length ∧
    (∀ buffer, ∃ w, codec.encodeInto p body (.growable buffer) = .ok n w ∧
      w.toBuffer.bytes = buffer.bytes ++ src.take n) ∧
    ∀ other m, codec.decode p other = .ok (body, m) → other.take m = src.take n := by
  obtain ⟨content, hout, hlimit, hle, hframe⟩ := frameBytes_of_decode h
  refine ⟨hle, fun buffer => ?_, fun other m hother => ?_⟩
  · have hn : (codec.frameBytes p.code (p.errorCode body) content).length = n := by
      rw [← hframe, List.length_take]
      omega
    rw [hframe, ← hn]
    exact encodeInto_of_output hout hlimit buffer
  · -- the body decides the content, and the content the frame
    obtain ⟨content', hout', -, -, hframe'⟩ := frameBytes_of_decode hother
    rw [hout] at hout'
    cases hout'
    rw [hframe, hframe']

/-- A logout with the start of another frame behind it. -/
theorem encodeInto_of_decode_logout :
    let src : Bytes := [67, 87, 3, 0, 0, 0, 8, 0, 0, 0, 3, 0, 0, 0, 97, 98, 99, 1, 67, 87]
    let body : TokenRequest Logout := ⟨"abc", ⟨true⟩⟩
    standard.decode .logoutRequest src = .ok (body, 18) ∧
      18 ≤ src.length ∧
      (∀ buffer, ∃ w, standard.encodeInto .logoutRequest body (.growable buffer) = .ok 18 w ∧
        w.toBuffer.bytes = buffer.bytes ++ src.take 18) ∧
      ∀ other m, standard.decode .logoutRequest other = .ok (body, m) →
        other.take m = src.take 18 := by
  have hdecode : standard.decode .logoutRequest
      [67, 87, 3, 0, 0, 0, 8, 0, 0, 0, 3, 0, 0, 0, 97, 98, 99, 1, 67, 87] =
        .ok (⟨"abc", ⟨true⟩⟩, 18) := rfl
  exact ⟨hdecode, encodeInto_of_decode hdecode⟩

end Codec

end ChatCodec
