import ChatCodec.Proofs.Framing.Packets
import ChatCodec.Proofs.Serializers.Composed

/-!
# A frame or nothing

Whatever the serializer, the packet type and the writer: one whole frame is put behind what is
written, or nothing is. Nothing is assumed of the serializer but that it writes behind what is
written, so its bytes may depend on the writer and its failure may leave some of them.

* `Codec.HasContent` — behind the header the serializer puts out some content.

What comes of encoding: `Codec.HasContent.encodeWith_of_le`, `Codec.HasContent.encodeWith_of_lt` and
`Codec.encodeWith_of_no_content`. Main result: `Codec.encodeWith_frame_or_nothing`.
-/

namespace ChatCodec

open Write (output)
open Read

/-! ## Headers -/

/-- A header is written whole or not at all. -/
theorem Header.whole_write {scope : Writer.Scope} (h : Header) (signature : UInt16) :
    Write.Whole scope (h.write signature) fun _ => True := by
  have hcode : Write.Puts scope h.writeErrorCode fun _ => True := by
    unfold writeErrorCode
    split
    · exact (Write.whole_primitive _ _).puts.mono fun _ _ => trivial
    · exact (Write.whole_pure ()).puts.mono fun _ _ => trivial
  have hsignature : Write.Puts scope (Write.primitive .u16 signature) (· = _) :=
    (Write.whole_primitive _ _).puts
  have hfields := hsignature.bind fun _ =>
    (Write.whole_primitive .u32 h.packetType.code).puts.bind fun _ => hcode.bind fun _ =>
      (Write.whole_primitive .i32 h.contentSize).puts
  exact hfields.atomic.mono fun _ _ => trivial

namespace Codec

variable {α : Type} {codec : Codec} {packetType : PacketType} {errorCode : Option ErrorCode}
variable {serializer : Serializer α} {body : α} {w w' : Writer} {content : Bytes}

/-- The header fits, and behind it the serializer puts out some content. -/
def HasContent (codec : Codec) (packetType : PacketType) (errorCode : Option ErrorCode)
    (serializer : Serializer α) (body : α) (w : Writer) (content : Bytes) : Prop :=
  let front := (provisionalHeader packetType errorCode).bytes codec.config.signature
  w.Fits packetType.headerLength ∧ ∃ w', serializer.serialize body (w.append front) = .ok () w' ∧
    (w.append front).Adds content w'

/-- What is done behind the content: its size is checked, and put into the header. -/
def finish (codec : Codec) (header : Header) (start contentStart : Nat) : WriteM Nat := do
  let size := (← get).offset - contentStart
  if codec.config.maxContentSize < size then
    throw (.payloadTooLarge size codec.config.maxContentSize)
  Write.patchI32 (start + header.contentSizeOffset) (.ofNat size)
  return (← get).offset - start

/-- A frame is a header, the content behind it, and what is done then. -/
theorem encodeWith_eq_finish (codec : Codec) (packetType : PacketType)
    (errorCode : Option ErrorCode) (serializer : Serializer α) (body : α) :
    codec.encodeWith packetType errorCode serializer body = (Write.atomic do
      let start := (← get).offset
      (provisionalHeader packetType errorCode).write codec.config.signature
      let contentStart := (← get).offset
      serializer.serialize body
      codec.finish (provisionalHeader packetType errorCode) start contentStart) :=
  rfl

/-- A header that fits is put behind what is written. -/
theorem opens_of_fits (codec : Codec) (errorCode : Option ErrorCode) (hw : w.Valid)
    (hfits : w.Fits packetType.headerLength) :
    let header := provisionalHeader packetType errorCode
    let front := header.bytes codec.config.signature
    w.Fits front.length ∧ header.write codec.config.signature w = .ok () (w.append front) := by
  -- nothing behind the header has to fit
  have hnothing : w.Fits (packetType.headerLength + 0) := hfits
  obtain ⟨front, rfl, hfits₁, -, hwrite⟩ :=
    write_provisionalHeader codec errorCode hw hnothing
  exact ⟨hfits₁, hwrite⟩

/-- With room for the header, the content is written behind it. What fails then is taken back. -/
theorem encodeWith_of_fits (codec : Codec) (errorCode : Option ErrorCode)
    (serializer : Serializer α) (body : α) (hw : w.Valid)
    (hfits : w.Fits packetType.headerLength) :
    ∃ opened, opened = w.append
        ((provisionalHeader packetType errorCode).bytes codec.config.signature) ∧
      w.Adds ((provisionalHeader packetType errorCode).bytes codec.config.signature) opened ∧
      ∀ result, (serializer.serialize body >>= fun _ =>
          codec.finish (provisionalHeader packetType errorCode) w.offset opened.offset) opened =
          result →
        codec.encodeWith packetType errorCode serializer body w =
          match result with
          | .ok n w' => .ok n w'
          | .error e w' => .error e (w'.truncate w.offset) := by
  obtain ⟨hfits₁, hwrite⟩ := opens_of_fits codec errorCode hw hfits
  refine ⟨_, rfl, Writer.adds_append hw hfits₁, fun result hresult => ?_⟩
  rw [encodeWith_eq_finish, Write.atomic, Write.get_bind_apply, Write.bind_of_ok hwrite,
    Write.get_bind_apply, hresult]
  cases result <;> rfl

/-- Content within the limit is sealed as a frame. -/
theorem finish_of_le {opened : Writer} (hw : w.Valid)
    (hopened : w.Adds ((provisionalHeader packetType errorCode).bytes codec.config.signature)
      opened)
    (hcontent : opened.Adds content w') (hlimit : content.length ≤ codec.config.maxContentSize) :
    ∃ w'', codec.finish (provisionalHeader packetType errorCode) w.offset opened.offset w' =
        .ok (packetType.headerLength + content.length) w'' ∧
      w.Adds (codec.frameBytes packetType errorCode content) w'' := by
  have hpatch := overwrite_provisionalHeader codec packetType errorCode content
  have hlen := length_provisionalHeader codec packetType errorCode
  have hoffset := contentSizeOffset_provisionalHeader packetType errorCode
  have hadds := hopened.trans hcontent
  have hend : w'.offset = w.offset + (packetType.headerLength + content.length) := by
    rw [hadds.offset, List.length_append, hlen]
  have hsize : w'.offset - opened.offset = content.length := by
    rw [hcontent.offset, Nat.add_sub_cancel_left]
  have hwritten : w.offset + (provisionalHeader packetType errorCode).contentSizeOffset + 4 ≤
      w'.offset := by omega
  have hpos : (provisionalHeader packetType errorCode).contentSizeOffset +
      (Primitive.i32.encode (.ofNat content.length)).length ≤
      ((provisionalHeader packetType errorCode).bytes codec.config.signature ++
        content).length := by
    rw [Primitive.length_encode, List.length_append, hlen, ← hoffset]
    exact Nat.le_add_right _ _
  have hsealed := hadds.replace hw hpos
  rw [hpatch] at hsealed
  refine ⟨_, ?_, hsealed⟩
  rw [finish, Write.get_bind_apply, hsize, if_neg (Nat.not_lt.mpr hlimit)]
  dsimp only
  rw [Write.bind_of_ok (Write.patchI32_apply hwritten), Write.get_bind_apply,
    Writer.offset_replace, hend, Nat.add_sub_cancel_left]
  rfl

/-- Content above the limit is refused. -/
theorem finish_of_lt {opened : Writer} {header : Header} {start : Nat}
    (hcontent : opened.Adds content w') (hlarge : codec.config.maxContentSize < content.length) :
    codec.finish header start opened.offset w' =
      .error (.payloadTooLarge content.length codec.config.maxContentSize) w' := by
  have hsize : w'.offset - opened.offset = content.length := by
    rw [hcontent.offset, Nat.add_sub_cancel_left]
  rw [finish, Write.get_bind_apply, hsize, if_pos hlarge]
  rfl

/-- Content within the limit becomes a frame behind what was written. -/
theorem HasContent.encodeWith_of_le
    (h : codec.HasContent packetType errorCode serializer body w content) (hw : w.Valid)
    (hlimit : content.length ≤ codec.config.maxContentSize) :
    ∃ w', codec.encodeWith packetType errorCode serializer body w =
        .ok (packetType.headerLength + content.length) w' ∧
      w.Adds (codec.frameBytes packetType errorCode content) w' := by
  obtain ⟨hfits, w', hwrite, hcontent⟩ := h
  obtain ⟨opened, rfl, hopened, hencode⟩ :=
    codec.encodeWith_of_fits errorCode serializer body hw hfits
  obtain ⟨w'', hfinish, hframe⟩ := finish_of_le hw hopened hcontent hlimit
  exact ⟨w'', hencode (.ok _ w'') (by rw [Write.bind_of_ok hwrite, hfinish]), hframe⟩

/-- Content above the limit is refused, and taken back. -/
theorem HasContent.encodeWith_of_lt
    (h : codec.HasContent packetType errorCode serializer body w content) (hw : w.Valid)
    (hlarge : codec.config.maxContentSize < content.length) :
    ∃ w', codec.encodeWith packetType errorCode serializer body w =
        .error (.payloadTooLarge content.length codec.config.maxContentSize) w' ∧
      w.Adds [] w' := by
  obtain ⟨hfits, w', hwrite, hcontent⟩ := h
  obtain ⟨opened, rfl, hopened, hencode⟩ :=
    codec.encodeWith_of_fits errorCode serializer body hw hfits
  exact ⟨_, hencode (.error _ w') (by rw [Write.bind_of_ok hwrite, finish_of_lt hcontent hlarge]),
    (hopened.trans hcontent).truncate hw⟩

/-- Without content encoding fails, and what was written in the meantime is taken back. -/
theorem encodeWith_of_no_content (hserializer : serializer.Appends) (hw : w.Valid)
    (h : ¬ ∃ content, codec.HasContent packetType errorCode serializer body w content) :
    ∃ e w', codec.encodeWith packetType errorCode serializer body w = .error e w' ∧
      w.Adds [] w' := by
  by_cases hfits : w.Fits packetType.headerLength
  · obtain ⟨opened, rfl, hopened, hencode⟩ :=
      codec.encodeWith_of_fits errorCode serializer body hw hfits
    have hcovers : Writer.Scope.all.Covers _ := ⟨hopened.valid hw, fun hscope => nomatch hscope⟩
    cases hwrite : serializer.serialize body _ with
    | ok _ w' =>
      obtain ⟨content, hcontent, -⟩ := (hserializer body).ok hcovers hwrite
      exact absurd ⟨content, hfits, w', hwrite, hcontent⟩ h
    | error e w' =>
      obtain ⟨src, hsrc⟩ := (hserializer body).error hcovers hwrite
      exact ⟨e, _, hencode (.error e w') (by rw [Write.bind_apply, hwrite]),
        (hopened.trans hsrc).truncate hw⟩
  · -- the header itself is refused
    have hheader := (provisionalHeader packetType errorCode).local_write codec.config.signature
    have hcovers : Writer.Scope.all.Covers w := ⟨hw, fun hscope => nomatch hscope⟩
    obtain ⟨e, w', hwrite, -⟩ := hheader.short hw (Header.output_write _ _)
      (by rwa [length_provisionalHeader])
    have hadds := (Header.whole_write _ _).error hcovers hwrite
    refine ⟨e, w'.truncate w.offset, ?_, hadds.truncate hw⟩
    rw [encodeWith_eq_finish, Write.atomic, Write.get_bind_apply, Write.bind_apply, hwrite]

/-! ## All serializers -/

/-- There is room for the header and for the content. -/
theorem HasContent.fits (h : codec.HasContent packetType errorCode serializer body w content)
    (hw : w.Valid) : w.Fits (packetType.headerLength + content.length) := by
  obtain ⟨hfits, w', -, hadds⟩ := h
  have hfits₁ := (opens_of_fits codec errorCode hw hfits).1
  rw [← length_provisionalHeader codec packetType errorCode, ← Writer.fits_append hw hfits₁]
  exact hadds.fits (hw.append hfits₁)

/-- A serializer that writes the same bytes everywhere puts these out where they fit. -/
theorem hasContent_iff (hserializer : serializer.WritesLocally) (hw : w.Valid) :
    codec.HasContent packetType errorCode serializer body w content ↔
      output (serializer.serialize body) = .ok ((), content) ∧
        w.Fits (packetType.headerLength + content.length) := by
  constructor
  · intro h
    have hfits := h.fits hw
    obtain ⟨hfits₀, w', hwrite, hadds⟩ := h
    have hfits₁ := (opens_of_fits codec errorCode hw hfits₀).1
    obtain ⟨src, hout, hfits₂, rfl⟩ := (hserializer body).of_ok (hw.append hfits₁) hwrite
    cases hadds.unique (Writer.adds_append (hw.append hfits₁) hfits₂)
    exact ⟨hout, hfits⟩
  · rintro ⟨hout, hfits⟩
    obtain ⟨front, rfl, hfits₁, hfits₂, -⟩ := write_provisionalHeader codec errorCode hw hfits
    exact ⟨hfits.mono (Nat.le_add_right _ _), _,
      (hserializer body).ok (hw.append hfits₁) hout hfits₂,
      Writer.adds_append (hw.append hfits₁) hfits₂⟩

/-- The header of a frame field by field. -/
theorem sealedHeader_fields (packetType : PacketType) (errorCode : Option ErrorCode)
    (content : Bytes) : sealedHeader packetType errorCode content =
      { packetType
        errorCode :=
          if packetType.hasErrorCode then some ((errorCode.map ErrorCode.toInt8).getD 0) else none
        contentSize := .ofNat content.length } := by
  have htype := packetType_sealedHeader packetType errorCode content
  have hcode := errorCode_sealedHeader packetType errorCode content
  rw [← hcode]
  exact (congrArg (Header.mk · _ _) htype)

/-- Encoding through any serializer made of ones that append, behind whatever a writer holds. If the
serializer puts out some content within the limit, its frame goes behind what was written: the
header of the packet type, which has the error code given, or 0, just if it is that of a response,
and the content. The header is read back with the size of the content. In any other case encoding
fails, and the writer shows what it showed before; content above the limit is refused as too large.
A serializer made of ones that write the same bytes everywhere puts them out if they fit behind the
header. -/
theorem encodeWith_frame_or_nothing (codec : Codec) (packetType : PacketType)
    (errorCode : Option ErrorCode) (hserializer : serializer.Composed @Serializer.Appends)
    (body : α) (hw : w.Valid) :
    let encoded := codec.encodeWith packetType errorCode serializer body w
    let HasContent := codec.HasContent packetType errorCode serializer body w
    let limit := codec.config.maxContentSize
    let signature := codec.config.signature
    (∀ content, HasContent content → content.length ≤ limit →
      let header : Header :=
        { packetType
          errorCode :=
            if packetType.hasErrorCode then some ((errorCode.map ErrorCode.toInt8).getD 0)
            else none
          contentSize := .ofNat content.length }
      output (header.write signature) = .ok ((), header.bytes signature) ∧
      (∃ w', encoded = .ok (packetType.headerLength + content.length) w' ∧
        w.Adds (header.bytes signature ++ content) w') ∧
      header.contentSize.toInt = content.length ∧
      ∀ rest, run codec.readHeader (header.bytes signature ++ rest) =
        .ok (header, packetType.headerLength)) ∧
    ((¬ ∃ content, HasContent content ∧ content.length ≤ limit) →
      ∃ e w', encoded = .error e w' ∧ w.Adds [] w') ∧
    (∀ content, HasContent content → limit < content.length →
      ∃ w', encoded = .error (.payloadTooLarge content.length limit) w') ∧
    (∀ content, HasContent content → w.Fits (packetType.headerLength + content.length)) ∧
    (serializer.Composed @Serializer.WritesLocally → ∀ content, HasContent content ↔
      output (serializer.serialize body) = .ok ((), content) ∧
        w.Fits (packetType.headerLength + content.length)) := by
  intro encoded HasContent limit signature
  refine ⟨fun content hcontent hlimit => ?_, fun hnone => ?_, fun content hcontent hlarge => ?_,
    fun content hcontent => hcontent.fits hw,
    fun hlocal content => hasContent_iff hlocal.writesLocally hw⟩
  · intro header
    have hheader : sealedHeader packetType errorCode content = header := sealedHeader_fields _ _ _
    have hlength : (header.bytes signature).length = packetType.headerLength :=
      Header.length_bytes header signature
    obtain ⟨w', hencode, hadds⟩ := hcontent.encodeWith_of_le hw hlimit
    refine ⟨Header.output_write _ _, ⟨w', hencode, hheader ▸ hadds⟩, ?_, fun rest => ?_⟩
    · rw [← hheader]
      exact toInt_contentSize hlimit
    · rw [← hlength, ← hheader]
      exact Header.takes_read (wellFormed_sealedHeader hlimit) _ rest
  · -- there is no content, or too much of it
    by_cases hsome : ∃ content, HasContent content
    · obtain ⟨content, hcontent⟩ := hsome
      have hlarge := Nat.lt_of_not_le fun hlimit => hnone ⟨content, hcontent, hlimit⟩
      obtain ⟨w', hencode, hadds⟩ := hcontent.encodeWith_of_lt hw hlarge
      exact ⟨_, w', hencode, hadds⟩
    · exact encodeWith_of_no_content hserializer.appends hw hsome
  · obtain ⟨w', hencode, -⟩ := hcontent.encodeWith_of_lt hw hlarge
    exact ⟨w', hencode⟩

/-- A list of two numbers as the content of a response, behind three bytes of a destination. The
frame takes 19 bytes, for which 20 bytes are too few. -/
theorem encodeWith_frame_or_nothing_list :
    let serializer : Serializer (List UInt16) := .list (.ofLayout .u16)
    let writer (size : Nat) : Writer := ⟨.fixed (.replicate size 7), 3⟩
    let encoded (size : Nat) := standard.encodeWith Packet.postMessageResponse.code
      (some .roomFull) serializer [1, 2] (writer size)
    serializer.Composed @Serializer.Appends ∧ (writer 24).Valid ∧ (writer 20).Valid ∧
      (∃ w', encoded 24 = .ok 19 w' ∧ (writer 24).Adds
        [67, 87, 32, 0, 0, 1, 11, 8, 0, 0, 0, 2, 0, 0, 0, 1, 0, 2, 0] w') ∧
      ∃ e w', encoded 20 = .error e w' ∧ (writer 20).Adds [] w' := by
  intro serializer writer encoded
  have hcomposed : serializer.Composed @Serializer.Appends := .list (.ofLayout .u16)
  have hlocal : serializer.Composed @Serializer.WritesLocally := .list (.ofLayout .u16)
  have hout : output (serializer.serialize [1, 2]) = .ok ((), [2, 0, 0, 0, 1, 0, 2, 0]) := rfl
  have hvalid (size : Nat) (h : 3 ≤ size) : (writer size).Valid := by
    show 3 ≤ (List.replicate size (7 : UInt8)).length
    rwa [List.length_replicate]
  have hfits (size : Nat) (h : 3 ≤ size) : (writer size).Fits 19 ↔ 22 ≤ size := by
    rw [Writer.fits_fixed (hvalid size h), List.length_replicate]
  refine ⟨hcomposed, hvalid 24 (by decide), hvalid 20 (by decide), ?_, ?_⟩
  · obtain ⟨hframe, -, -, -, hiff⟩ := encodeWith_frame_or_nothing standard
      Packet.postMessageResponse.code (some .roomFull) hcomposed [1, 2] (hvalid 24 (by decide))
    have hcontent := (hiff hlocal _).mpr ⟨hout, (hfits 24 (by decide)).mpr (by decide)⟩
    exact (hframe _ hcontent (by decide)).2.1
  · obtain ⟨-, hnothing, -, -, hiff⟩ := encodeWith_frame_or_nothing standard
      Packet.postMessageResponse.code (some .roomFull) hcomposed [1, 2] (hvalid 20 (by decide))
    refine hnothing fun ⟨content, hcontent, _⟩ => ?_
    obtain ⟨hout', hroom⟩ := (hiff hlocal content).mp hcontent
    rw [hout] at hout'
    cases hout'
    exact absurd ((hfits 20 (by decide)).mp hroom) (by decide)

end Codec

end ChatCodec
