import ChatCodec.Proofs.Framing.Encoding
import ChatCodec.Proofs.Writing.Bounded

/-!
# A packet is the same wherever it is encoded

A packet has one frame, or one reason to have none. A destination of fixed size receives the frame
that a buffer and a pooled buffer receive, unless it is too short for it. One of the announced size
never is, and then it fails only for the reason the packet has no frame.

* `Codec.frame?` — the frame of a packet, or why it has none;
* `Codec.encodeInto_eq_ok_iff` and `Codec.encodeInto_eq_error_iff` — what any writer makes of it.

Main result: `Codec.encodings_agree`.
-/

namespace ChatCodec

open Write (output IsShort)

/-! ## Bodies that cannot be sent -/

namespace Codec

section Refused

variable {α : Type} {codec : Codec} {packetType : PacketType} {errorCode : Option ErrorCode}
variable {serializer : Serializer α} {body : α} {w : Writer} {content : Bytes} {e : CodecError}

/-- With space for the size announced, a body fails as it fails on a buffer. -/
theorem encodeWith_of_error (hserializer : serializer.Bounded) (hw : w.Valid)
    (hfits : w.Fits (packetType.headerLength + serializer.maxSize body))
    (hout : output (serializer.serialize body) = .error e) :
    ∃ w', codec.encodeWith packetType errorCode serializer body w = .error e w' := by
  -- the header is written, and leaves the body all the space that was announced for it
  obtain ⟨front, -, hfits₁, hfits₂, hwrite₁⟩ := write_provisionalHeader codec errorCode hw hfits
  obtain ⟨w', herror⟩ := (hserializer body).error (hw.append hfits₁) hfits₂ hout
  refine ⟨w'.truncate w.offset, ?_⟩
  rw [encodeWith, Write.atomic, Write.get_bind_apply, Write.bind_of_ok hwrite₁,
    Write.get_bind_apply, Write.bind_apply, herror]

/-- Content above the limit is refused, once it is written. -/
theorem encodeWith_of_large (hserializer : serializer.WritesLocally) (hw : w.Valid)
    (hfits : w.Fits (packetType.headerLength + content.length))
    (hout : output (serializer.serialize body) = .ok ((), content))
    (hlarge : codec.config.maxContentSize < content.length) :
    ∃ w', codec.encodeWith packetType errorCode serializer body w =
      .error (.payloadTooLarge content.length codec.config.maxContentSize) w' := by
  obtain ⟨front, -, hfits₁, hfits₂, hwrite₁⟩ := write_provisionalHeader codec errorCode hw hfits
  have hwrite₂ := (hserializer body).ok (hw.append hfits₁) hout hfits₂
  have hsize : ((w.append front).append content).offset - (w.append front).offset =
      content.length := by
    rw [Writer.offset_append _ content, Nat.add_sub_cancel_left]
  refine ⟨((w.append front).append content).truncate w.offset, ?_⟩
  rw [encodeWith, Write.atomic, Write.get_bind_apply, Write.bind_of_ok hwrite₁,
    Write.get_bind_apply, Write.bind_of_ok hwrite₂, Write.get_bind_apply, hsize, if_pos hlarge]
  rfl

end Refused

/-! ## The frame of a packet -/

/-- The frame of a packet, or why it has none. -/
def frame? (codec : Codec) (p : Packet) (body : p.Body) : Except CodecError Bytes :=
  match output (p.serializer.serialize body) with
  | .error e => .error e
  | .ok (_, content) =>
    if codec.config.maxContentSize < content.length then
      .error (.payloadTooLarge content.length codec.config.maxContentSize)
    else
      .ok (codec.frameBytes p.code (p.errorCode body) content)

variable {codec : Codec} {p : Packet} {body : p.Body} {src : Bytes} {w w' : Writer} {n : Nat}
variable {e : CodecError}

theorem frame?_eq_ok_iff : codec.frame? p body = .ok src ↔
    ∃ content, output (p.serializer.serialize body) = .ok ((), content) ∧
      content.length ≤ codec.config.maxContentSize ∧
      src = codec.frameBytes p.code (p.errorCode body) content := by
  unfold frame?
  constructor
  · intro h
    split at h
    · cases h
    · next content hout =>
      split at h <;> cases h
      next hlimit => exact ⟨content, hout, Nat.le_of_not_lt hlimit, rfl⟩
  · rintro ⟨content, hout, hlimit, rfl⟩
    rw [hout]
    exact if_neg (Nat.not_lt.mpr hlimit)

/-- A frame is no longer than announced. -/
theorem length_le_maxEncodedSize (h : codec.frame? p body = .ok src) :
    src.length ≤ maxEncodedSize p body := by
  obtain ⟨content, hout, -, rfl⟩ := frame?_eq_ok_iff.mp h
  rw [length_frameBytes]
  exact Nat.add_le_add_left ((p.bounded_serializer body).length_le hout) _

/-- Where it fits, the frame is appended; elsewhere nothing is encoded. -/
theorem encodeInto_eq_ok_iff (hw : w.Valid) : codec.encodeInto p body w = .ok n w' ↔
    ∃ src, codec.frame? p body = .ok src ∧ w.Fits src.length ∧ n = src.length ∧
      w' = w.append src := by
  constructor
  · intro h
    obtain ⟨content, hout, hlimit, hfits, hn, hw'⟩ :=
      encodeWith_eq_ok p.writesLocally_serializer hw h
    exact ⟨_, frame?_eq_ok_iff.mpr ⟨content, hout, hlimit, rfl⟩, hfits, hn, hw'⟩
  · rintro ⟨src, hframe, hfits, rfl, rfl⟩
    obtain ⟨content, hout, hlimit, rfl⟩ := frame?_eq_ok_iff.mp hframe
    exact encodeWith_of_output p.writesLocally_serializer hw hout hlimit hfits

/-- A packet without a frame is refused for the reason it has none, if there is as much space as was
announced for it. -/
theorem encodeInto_of_frame?_error (hw : w.Valid) (hfits : w.Fits (maxEncodedSize p body))
    (h : codec.frame? p body = .error e) : ∃ w', codec.encodeInto p body w = .error e w' := by
  unfold frame? at h
  split at h
  · next hout =>
    cases h
    exact encodeWith_of_error p.bounded_serializer hw hfits hout
  · next content hout =>
    split at h <;> cases h
    next hlarge =>
    have hle : content.length ≤ p.serializer.maxSize body :=
      (p.bounded_serializer body).length_le hout
    exact encodeWith_of_large p.writesLocally_serializer hw
      (hfits.mono (Nat.add_le_add_left hle _)) hout hlarge

theorem encodeInto_eq_error_iff (hw : w.Valid) (hfits : w.Fits (maxEncodedSize p body)) :
    (∃ w', codec.encodeInto p body w = .error e w') ↔ codec.frame? p body = .error e := by
  -- with the space announced, a frame is written; so an error is that of a packet without one
  refine ⟨fun ⟨w', herror⟩ => ?_, encodeInto_of_frame?_error hw hfits⟩
  cases hframe : codec.frame? p body with
  | error e' =>
    obtain ⟨w'', h⟩ := encodeInto_of_frame?_error hw hfits hframe
    rw [herror] at h
    cases h
    rfl
  | ok src =>
    have hok := (encodeInto_eq_ok_iff hw).mpr
      ⟨src, hframe, hfits.mono (length_le_maxEncodedSize hframe), rfl, rfl⟩
    rw [herror] at hok
    cases hok

/-- A packet has no frame because of its body, not for lack of space. -/
theorem not_short_of_frame?_error (h : codec.frame? p body = .error e) : ¬ IsShort e := by
  unfold frame? at h
  split at h
  · next hout =>
    cases h
    exact (p.bounded_serializer body).not_short hout
  · split at h <;> cases h
    exact fun ⟨_, _, hshort⟩ => nomatch hshort

/-! ## Each destination -/

/-- A buffer has space for any frame. -/
theorem encodeInto_growable_eq_ok_iff {buffer : Buffer} :
    codec.encodeInto p body (.growable buffer) = .ok n w' ↔
      ∃ src, codec.frame? p body = .ok src ∧ n = src.length ∧
        w' = (Writer.growable buffer).append src := by
  rw [encodeInto_eq_ok_iff (Writer.valid_growable buffer)]
  simp only [Write.growable_fits, true_and]

theorem encodeInto_growable_eq_error_iff {buffer : Buffer} :
    (∃ w, codec.encodeInto p body (.growable buffer) = .error e w) ↔
      codec.frame? p body = .error e :=
  encodeInto_eq_error_iff (Writer.valid_growable buffer) (Write.growable_fits buffer _)

/-- A pooled buffer holds the frame alone. -/
theorem encode_eq (codec : Codec) (pool : BufferPool) (p : Packet) (body : p.Body) :
    (codec.encode pool p body).1.map (·.bytes) = codec.frame? p body := by
  unfold encode
  dsimp only
  cases h : codec.frame? p body with
  | ok src =>
    rw [encodeInto_growable_eq_ok_iff.mpr ⟨src, h, rfl, rfl⟩]
    show Except.ok (pool.acquire.1.bytes ++ src) = _
    rw [pool.bytes_acquire, List.nil_append]
  | error e =>
    obtain ⟨w, herror⟩ := encodeInto_growable_eq_error_iff.mpr h
    rw [herror]
    rfl

section Destination

variable {destination : Bytes}

theorem valid_fixed (destination : Bytes) : (Writer.fixed destination).Valid :=
  Nat.zero_le _

theorem fits_fixed_iff : (Writer.fixed destination).Fits n ↔ n ≤ destination.length := by
  rw [Writer.fixed, Writer.fits_fixed (Nat.zero_le _), Nat.zero_add]

theorem encodeInto_fixed_eq_ok_iff : codec.encodeInto p body (.fixed destination) = .ok n w' ↔
    ∃ src, codec.frame? p body = .ok src ∧ src.length ≤ destination.length ∧ n = src.length ∧
      w' = (Writer.fixed destination).append src := by
  rw [encodeInto_eq_ok_iff (valid_fixed destination)]
  simp only [fits_fixed_iff]

/-- A destination of the size announced is not too short for a frame. -/
theorem encodeInto_fixed_eq_error_iff (h : maxEncodedSize p body ≤ destination.length) :
    (∃ w, codec.encodeInto p body (.fixed destination) = .error e w) ↔
      codec.frame? p body = .error e :=
  encodeInto_eq_error_iff (valid_fixed destination) (fits_fixed_iff.mpr h)

theorem written_fixed_append (h : src.length ≤ destination.length) :
    ((Writer.fixed destination).append src).written = src :=
  Writer.written_append (valid_fixed destination) (fits_fixed_iff.mpr h)

end Destination

theorem encodeToSlice_eq_ok_iff {size : Nat} : codec.encodeToSlice p body size = .ok src ↔
    codec.frame? p body = .ok src ∧ src.length ≤ size := by
  have hlen : (List.replicate size (0 : UInt8)).length = size := List.length_replicate
  unfold encodeToSlice
  constructor
  · intro h
    split at h <;> cases h
    next hencode =>
    obtain ⟨frame, hframe, hle, -, rfl⟩ := encodeInto_fixed_eq_ok_iff.mp hencode
    rw [written_fixed_append hle]
    exact ⟨hframe, hlen ▸ hle⟩
  · rintro ⟨hframe, hle⟩
    rw [Writer.ofSize, encodeInto_fixed_eq_ok_iff.mpr ⟨src, hframe, hlen.symm ▸ hle, rfl, rfl⟩]
    exact congrArg Except.ok (written_fixed_append (hlen.symm ▸ hle))

theorem encodeToSlice_eq_error_iff {size : Nat} (h : maxEncodedSize p body ≤ size) :
    codec.encodeToSlice p body size = .error e ↔ codec.frame? p body = .error e := by
  have hlen : maxEncodedSize p body ≤ (List.replicate size (0 : UInt8)).length := by
    rwa [List.length_replicate]
  rw [← encodeInto_fixed_eq_error_iff hlen]
  unfold encodeToSlice
  constructor
  · intro herror
    split at herror <;> cases herror
    next hencode => exact ⟨_, hencode⟩
  · rintro ⟨w, hencode⟩
    rw [Writer.ofSize, hencode]

/-- A packet is encoded alike into a destination of `size` bytes, whatever it held before, into a
buffer behind other bytes, and into a pooled buffer. The destination has to be as long as the frame;
one of the size announced always is, and fails only where the others fail. -/
theorem encodings_agree (codec : Codec) (p : Packet) (body : p.Body) (buffer : Buffer)
    (pool : BufferPool) (size : Nat) :
    ((∃ src, codec.encodeToSlice p body size = .ok src) ↔
      ∃ n w, codec.encodeInto p body (.growable buffer) = .ok n w ∧ n ≤ size) ∧
    (∀ src, codec.encodeToSlice p body size = .ok src →
      (∃ w, codec.encodeInto p body (.growable buffer) = .ok src.length w ∧
        w.toBuffer.bytes = buffer.bytes ++ src) ∧
      ∃ frame, (codec.encode pool p body).1 = .ok frame ∧ frame.bytes = src) ∧
    (∀ n w, codec.encodeInto p body (.growable buffer) = .ok n w → n ≤ maxEncodedSize p body) ∧
    (∀ e, (codec.encode pool p body).1 = .error e ↔
      ∃ w, codec.encodeInto p body (.growable buffer) = .error e w) ∧
    (maxEncodedSize p body ≤ size → ∀ e,
      (codec.encodeToSlice p body size = .error e ↔
        ∃ w, codec.encodeInto p body (.growable buffer) = .error e w) ∧
      (codec.encodeToSlice p body size = .error e → ¬ IsShort e)) ∧
    -- what the destination held before does not matter
    (∀ destination : Bytes, destination.length = size →
      (∀ src, codec.encodeToSlice p body size = .ok src ↔
        ∃ w, codec.encodeInto p body (.fixed destination) = .ok src.length w ∧ w.written = src) ∧
      (maxEncodedSize p body ≤ size → ∀ e, codec.encodeToSlice p body size = .error e ↔
        ∃ w, codec.encodeInto p body (.fixed destination) = .error e w)) := by
  have hpool := codec.encode_eq pool p body
  refine ⟨⟨?_, ?_⟩, fun src h => ⟨?_, ?_⟩, fun n w h => ?_, fun e => ?_, fun hsize e => ⟨?_, ?_⟩,
    fun destination hlen => ⟨fun src => ⟨fun h => ?_, ?_⟩, fun hsize e => ?_⟩⟩
  · -- what a destination holds, a buffer holds
    rintro ⟨src, h⟩
    obtain ⟨hframe, hle⟩ := encodeToSlice_eq_ok_iff.mp h
    exact ⟨src.length, _, encodeInto_growable_eq_ok_iff.mpr ⟨src, hframe, rfl, rfl⟩, hle⟩
  · rintro ⟨n, w, h, hle⟩
    obtain ⟨src, hframe, rfl, -⟩ := encodeInto_growable_eq_ok_iff.mp h
    exact ⟨src, encodeToSlice_eq_ok_iff.mpr ⟨hframe, hle⟩⟩
  · have hframe := (encodeToSlice_eq_ok_iff.mp h).1
    exact ⟨_, encodeInto_growable_eq_ok_iff.mpr ⟨src, hframe, rfl, rfl⟩, rfl⟩
  · rw [(encodeToSlice_eq_ok_iff.mp h).1] at hpool
    exact ok_of_map hpool
  · -- the length of a frame
    obtain ⟨src, hframe, rfl, -⟩ := encodeInto_growable_eq_ok_iff.mp h
    exact length_le_maxEncodedSize hframe
  · rw [encodeInto_growable_eq_error_iff, ← hpool]
    cases (codec.encode pool p body).1 <;> simp [Except.map]
  · rw [encodeInto_growable_eq_error_iff, encodeToSlice_eq_error_iff hsize]
  · exact fun h => not_short_of_frame?_error ((encodeToSlice_eq_error_iff hsize).mp h)
  · -- any destination of the size
    obtain ⟨hframe, hle⟩ := encodeToSlice_eq_ok_iff.mp h
    exact ⟨_, encodeInto_fixed_eq_ok_iff.mpr ⟨src, hframe, hlen.symm ▸ hle, rfl, rfl⟩,
      written_fixed_append (hlen.symm ▸ hle)⟩
  · rintro ⟨w, h, hwritten⟩
    obtain ⟨frame, hframe, hle, -, rfl⟩ := encodeInto_fixed_eq_ok_iff.mp h
    rw [written_fixed_append hle] at hwritten
    subst hwritten
    exact encodeToSlice_eq_ok_iff.mpr ⟨hframe, hlen ▸ hle⟩
  · rw [encodeInto_fixed_eq_error_iff (hlen.symm ▸ hsize), encodeToSlice_eq_error_iff hsize]

end Codec

end ChatCodec
