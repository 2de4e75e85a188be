import ChatCodec.Frame
import ChatCodec.Proofs.Framing.Header
import ChatCodec.Proofs.Reading.Final

/-!
# Cutting frames off a stream

To a deframer it does not matter in which pieces its bytes arrived: what it answers is decided by
their concatenation, from which it takes a whole frame or nothing.

* `Deframer.bytes` — the bytes collected, in one string.

Main results: the answers of `Deframer.next` to a bad header, to a frame still incomplete and to one
that is there (`next_of_error`, `next_of_short`, `next_of_frame`), and what they come to when the
bytes are the start of a stream of well-formed frames (`next_of_stream`).
-/

namespace ChatCodec.Deframer

open Read

variable {d : Deframer} {header : Header} {n : Nat} {e : CodecError}

/-- The bytes collected. -/
def bytes (d : Deframer) : Bytes :=
  d.buffer.toBytes

theorem buffered_eq_length (d : Deframer) : d.buffered = d.bytes.length :=
  d.buffer.size_eq_length

theorem isEmpty_iff (d : Deframer) : d.isEmpty = true ↔ d.bytes = [] := by
  rw [isEmpty, Segments.isEmpty, ← List.length_eq_zero_iff, ← buffered_eq_length, buffered]
  exact beq_iff_eq

/-! ## Pushing -/

@[simp] theorem bytes_push (d : Deframer) (chunk : Bytes) :
    (d.push chunk).bytes = d.bytes ++ chunk :=
  d.buffer.toBytes_push chunk

/-- Chunks pushed one after another only add to the bytes. -/
theorem foldl_push (d : Deframer) (chunks : List Bytes) : ∃ buffer,
    chunks.foldl push d = { d with buffer } ∧ buffer.toBytes = d.bytes ++ chunks.flatten := by
  induction chunks generalizing d with
  | nil => exact ⟨d.buffer, rfl, by rw [List.flatten_nil, List.append_nil, bytes]⟩
  | cons chunk chunks ih =>
    obtain ⟨buffer, hfold, hbytes⟩ := ih (d.push chunk)
    refine ⟨buffer, hfold, ?_⟩
    rw [hbytes, bytes_push, List.flatten_cons, List.append_assoc]

/-! ## The next frame -/

/-- The header is read from the bytes, whatever pieces they lie in. -/
theorem read_buffer (d : Deframer) : Header.read d.signature d.limit (Reader.ofSegments d.buffer) =
    (Reader.ofSegments d.buffer).replay (run (Header.read d.signature d.limit) d.bytes) := by
  rw [(Header.clean_read _ _).eq (Reader.valid_ofSegments _), Reader.rest_ofSegments]
  rfl

theorem next_of_error (h : run (Header.read d.signature d.limit) d.bytes = .error e) :
    d.next = (if e.isInsufficientData then .ok none else .error e, d) := by
  rw [next, read_buffer, h]
  rfl

theorem next_of_short (h : run (Header.read d.signature d.limit) d.bytes = .ok (header, n))
    (hlt : d.bytes.length < header.frameLength) : d.next = (.ok none, d) := by
  rw [← buffered_eq_length] at hlt
  rw [next, read_buffer, h]
  exact if_pos hlt

/-- Where there are no bytes, there is no frame. -/
theorem next_of_empty (h : d.bytes = []) : d.next = (.ok none, d) := by
  have hrun : run (Header.read d.signature d.limit) d.bytes = .error (.insufficientData 2 0) := by
    rw [h]
    rfl
  rw [next_of_error hrun]
  rfl

/-- A frame that is there is cut off with just the content it declares. -/
theorem next_of_frame (h : run (Header.read d.signature d.limit) d.bytes = .ok (header, n))
    (hle : header.frameLength ≤ d.bytes.length) : ∃ content buffer,
    d.next = (.ok (some ⟨header, content⟩), { d with buffer }) ∧
      content.toBytes = (d.bytes.drop header.length).take header.contentLength ∧
      buffer.toBytes = d.bytes.drop header.frameLength := by
  refine ⟨(d.buffer.split header.frameLength).1.drop header.length,
    (d.buffer.split header.frameLength).2, ?_, ?_, Segments.toBytes_split_snd _ _⟩
  · rw [← buffered_eq_length] at hle
    rw [next, read_buffer, h]
    exact if_neg (Nat.not_lt.mpr hle)
  · rw [Segments.toBytes_drop, Segments.toBytes_split_fst, List.drop_take, Header.frameLength,
      Nat.add_sub_cancel_left]
    rfl

/-! ## Well-formed frames -/

section Frames

variable {h : Header} {content rest : Bytes}

/-- A frame comes off as it was put on, whatever follows it. -/
theorem next_of_whole (hwell : h.WellFormed d.limit) (hlen : content.length = h.contentLength)
    (hbytes : d.bytes = h.bytes d.signature ++ content ++ rest) : ∃ segments buffer,
    d.next = (.ok (some ⟨h, segments⟩), { d with buffer }) ∧ segments.toBytes = content ∧
      buffer.toBytes = rest := by
  have hheader : (h.bytes d.signature).length = h.length := h.length_bytes d.signature
  have hframe : (h.bytes d.signature ++ content).length = h.frameLength := by
    rw [List.length_append, hheader, hlen, Header.frameLength]
  have hrun : run (Header.read d.signature d.limit) d.bytes = .ok (h, h.length) := by
    rw [hbytes, List.append_assoc, ← hheader]
    exact Header.takes_read hwell d.signature _
  have hle : h.frameLength ≤ d.bytes.length := by
    rw [hbytes, List.length_append, hframe]
    exact Nat.le_add_right _ _
  obtain ⟨segments, buffer, hnext, hsegments, hbuffer⟩ := next_of_frame hrun hle
  refine ⟨segments, buffer, hnext, ?_, ?_⟩
  · rw [hsegments, hbytes, List.append_assoc, ← hheader, List.drop_left, ← hlen, List.take_left]
  · rw [hbuffer, hbytes, ← hframe, List.drop_left]

/-- While a part of a frame is there, the deframer waits for the rest. -/
theorem next_of_part (hwell : h.WellFormed d.limit) (hlen : content.length = h.contentLength)
    {more : Bytes} (hbytes : d.bytes ++ more = h.bytes d.signature ++ content ++ rest)
    (hlt : d.bytes.length < (h.bytes d.signature ++ content).length) : d.next = (.ok none, d) := by
  have hfinal := Header.final_read d.signature d.limit
  have hrun : run (Header.read d.signature d.limit) (d.bytes ++ more) = .ok (h, h.length) := by
    rw [hbytes, List.append_assoc, ← h.length_bytes d.signature]
    exact Header.takes_read hwell d.signature _
  cases hpart : run (Header.read d.signature d.limit) d.bytes with
  | error e =>
    rw [next_of_error hpart]
    cases he : e.isInsufficientData with
    | true => rfl
    | false =>
      -- the error would not go away when the rest arrives
      rw [hfinal.error more hpart he] at hrun
      cases hrun
  | ok answer =>
    rw [hfinal.ok more hpart] at hrun
    cases hrun
    refine next_of_short hpart ?_
    rwa [List.length_append, Header.length_bytes, hlen] at hlt

/-- What a deframer does at the start of a frame, the rest of the stream being still on its way. It
waits, but not when nothing is on its way any more, or it cuts off the frame. -/
theorem next_of_stream (hwell : h.WellFormed d.limit) (hlen : content.length = h.contentLength)
    {pending stream : Bytes}
    (hbytes : d.bytes ++ pending = h.bytes d.signature ++ content ++ stream) :
    (d.next = (.ok none, d) ∧ pending ≠ []) ∨
    ∃ segments buffer, d.next = (.ok (some ⟨h, segments⟩), { d with buffer }) ∧
      segments.toBytes = content ∧ buffer.toBytes ++ pending = stream := by
  rcases Nat.lt_or_ge d.bytes.length (h.bytes d.signature ++ content).length with hlt | hle
  · -- the frame is not all there, so some of it is still pending
    refine .inl ⟨next_of_part hwell hlen hbytes hlt, ?_⟩
    rintro rfl
    have htotal := congrArg List.length hbytes
    rw [List.append_nil, List.length_append] at htotal
    omega
  · -- the frame is there, and what is there behind it belongs to the rest of the stream
    obtain ⟨rest, hwhole, hrest⟩ : ∃ rest, d.bytes = h.bytes d.signature ++ content ++ rest ∧
        rest ++ pending = stream := by
      rcases List.append_eq_append_iff.mp hbytes with ⟨more, hframe, hmore⟩ | ⟨rest, hd, hrest⟩
      · have htotal := congrArg List.length hframe
        simp only [List.length_append] at htotal hle
        obtain rfl : more = [] := List.length_eq_zero_iff.mp (by omega)
        rw [List.append_nil] at hframe
        exact ⟨[], by rw [List.append_nil, hframe], hmore⟩
      · exact ⟨rest, hd, hrest.symm⟩
    obtain ⟨segments, buffer, hnext, hsegments, hbuffer⟩ := next_of_whole hwell hlen hwhole
    exact .inr ⟨segments, buffer, hnext, hsegments, hbuffer ▸ hrest⟩

end Frames

end ChatCodec.Deframer
