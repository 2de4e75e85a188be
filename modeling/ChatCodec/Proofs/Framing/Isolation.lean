import ChatCodec.Proofs.Framing.Accounts
import ChatCodec.Proofs.Framing.Foreign

/-!
# Frames do not touch each other

A stream is made of frames whose contents are arbitrary: a content may be malformed, may announce
more than it holds, may belong to a packet nobody knows. However the stream is cut into chunks, the
receiver gets just these frames, and what it makes of one is what it makes of that frame alone.

* `Codec.IsFrame` — a header that can be read and as much content as it declares;
* `Codec.Brings` — answers that hold no error and the frames spelled by some byte strings;
* `Codec.Receives` — calls that push the bytes of some frames and ask until nothing comes;
* `Codec.outcomes` — what such a receiver decodes;
* `Codec.Isolates` — just the frames come, and those that nobody knows are passed over.

`Codec.next_of_isFrames` is one request and `Codec.play_of_isFrames` any calls. So far it does not
matter what is registered. A serializer could make something else of its body for the place or the
pieces in which it lies; what is decoded from a frame is what is decoded from its bytes alone if the
serializers are `Read.Local`, and is not touched by other frames if they are `Read.Indifferent`.

Main result: `Codec.isolates_frames`.
-/

namespace ChatCodec

open Read

/-! ## Frames in bytes -/

theorem Frame.Whole.length_bytes {frame : Frame} {limit : Nat} (h : frame.Whole limit)
    (signature : UInt16) : (frame.bytes signature).length = frame.header.frameLength := by
  rw [bytes, List.length_append, Header.length_bytes, h.length_content, Header.frameLength]

namespace Codec

variable {codec : Codec} {fs : List Bytes} {answers : List (Except CodecError (Option Frame))}

/-- The bytes are a header that can be read, and behind it as many bytes as it declares. -/
inductive IsFrame (codec : Codec) : Bytes → Prop
  | intro {header : Header} {front content : Bytes}
      (hheader : run codec.readHeader front = .ok (header, front.length))
      (hlen : content.length = header.contentLength) : codec.IsFrame (front ++ content)

theorem IsFrame.eq_bytes {f : Bytes} (h : codec.IsFrame f) : ∃ (header : Header) (content : Bytes),
    header.WellFormed codec.config.maxContentSize ∧ content.length = header.contentLength ∧
      f = header.bytes codec.config.signature ++ content := by
  obtain ⟨hheader, hlen⟩ := h
  obtain ⟨hwell, -, htake⟩ := Header.eq_of_run_read hheader
  rw [List.take_length] at htake
  exact ⟨_, _, hwell, hlen, by rw [htake]⟩

/-- A frame that is whole is decoded as its bytes alone are. -/
theorem decodeAny_bytes (hregistry : codec.registry.Reachable @Local) {frame : Frame}
    (hwhole : frame.Whole codec.config.maxContentSize) :
    codec.decodeAny (frame.bytes codec.config.signature) =
      (codec.decodeFrame frame).map (·, frame.header.frameLength) := by
  have hheader : run codec.readHeader (frame.bytes codec.config.signature) =
      .ok (frame.header, (frame.header.bytes codec.config.signature).length) :=
    Header.takes_read hwhole.header _ _
  have hdrop : (frame.bytes codec.config.signature).drop frame.header.length =
      frame.content.toBytes := by
    rw [Frame.bytes, ← Header.length_bytes frame.header codec.config.signature, List.drop_left]
  have hall : frame.content.toBytes.take frame.header.contentLength = frame.content.toBytes :=
    List.take_of_length_le (Nat.le_of_eq hwhole.length_content)
  rw [decodeAny_of_header hregistry hheader, hwhole.length_bytes, if_neg (Nat.lt_irrefl _), hdrop,
    hall, decodeFrame_eq hregistry hwhole.length_content]

theorem decodeFrame_eq_answer (codec : Codec) (frame : Frame) : codec.decodeFrame frame =
    (outcome (codec.registry.dispatch frame.header) frame.reader).1 := by
  rw [decodeFrame, outcome]
  cases codec.registry.dispatch frame.header frame.reader <;> rfl

/-- What is decoded from the bytes of a frame as if nothing else had ever come. -/
def decodeAlone (codec : Codec) (f : Bytes) : Except CodecError (Option Incoming) :=
  match run codec.readHeader f with
  | .ok (header, n) => (outcome (codec.registry.dispatch header) (.ofBytes (f.drop n))).1
  | .error e => .error e

/-- A frame that is whole is decoded as if nothing else had come, in whatever pieces it did. -/
theorem decodeFrame_eq_decodeAlone (hregistry : codec.registry.Reachable @Indifferent)
    {frame : Frame} (hwhole : frame.Whole codec.config.maxContentSize) :
    codec.decodeFrame frame = codec.decodeAlone (frame.bytes codec.config.signature) := by
  have hheader : run codec.readHeader (frame.bytes codec.config.signature) =
      .ok (frame.header, (frame.header.bytes codec.config.signature).length) :=
    Header.takes_read hwhole.header _ _
  have hdrop : (frame.bytes codec.config.signature).drop
      (frame.header.bytes codec.config.signature).length = frame.content.toBytes := by
    rw [Frame.bytes, List.drop_left]
  have halike := Reader.alike_ofSegments frame.content
  have hle : frame.header.contentLength ≤ (Reader.ofBytes frame.content.toBytes).remaining :=
    Nat.le_of_eq hwhole.length_content.symm
  have hle' : frame.header.contentLength ≤ (Reader.ofSegments frame.content).remaining :=
    halike.remaining_eq ▸ hle
  rw [decodeFrame_eq_answer, Frame.reader, decodeAlone, hheader]
  dsimp only
  rw [hdrop, hregistry.answer_dispatch Local.indifferent hle' hle halike.offset_eq
    fun hread => hread.within halike hle']

/-- The reserved type and types that are not registered are passed over, whatever the content. -/
theorem decodeFrame_of_unknown {frame : Frame}
    (hwhole : frame.Whole codec.config.maxContentSize)
    (hunknown : frame.header.packetType.isNone = true ∨
      codec.registry.contains frame.header.packetType = false) :
    codec.decodeFrame frame = .ok none := by
  -- the registry is not even asked for the reserved type
  have hnone : (if frame.header.packetType.isNone then none
      else codec.registry.find? frame.header.packetType) = none := by
    rcases hunknown with htype | htype
    · rw [if_pos htype]
    · have hfind : codec.registry.find? frame.header.packetType = none :=
        Option.isNone_iff_eq_none.mp (Option.isSome_eq_false_iff.mp htype)
      rw [hfind, ite_self]
  have hdispatch : codec.registry.dispatch frame.header =
      (fun _ => none) <$> skip frame.header.contentLength := by
    rw [Registry.dispatch, hnone]
    rfl
  have hskip := Parses.eq ((ParsesContent.of_skip frame.header.contentLength).map
    fun _ => (none : Option Incoming)) (Reader.valid_ofSegments frame.content)
  rw [Reader.rest_ofSegments,
    if_neg (Nat.not_lt.mpr (Nat.le_of_eq hwhole.length_content.symm))] at hskip
  rw [decodeFrame, Frame.reader, hdispatch, hskip]
  rfl

/-! ## Cutting them off -/

/-- The answers hold no error, and their frames are whole and spelled by the byte strings. -/
inductive Brings (codec : Codec) : List (Except CodecError (Option Frame)) → List Bytes → Prop
  | nil : codec.Brings [] []
  | wait {answers : List (Except CodecError (Option Frame))} {came : List Bytes}
      (hmore : codec.Brings answers came) : codec.Brings (.ok none :: answers) came
  | frame {frame : Frame} {answers : List (Except CodecError (Option Frame))} {came : List Bytes}
      (hwhole : frame.Whole codec.config.maxContentSize) (hmore : codec.Brings answers came) :
      codec.Brings (.ok (some frame) :: answers) (frame.bytes codec.config.signature :: came)

namespace Brings

variable {came : List Bytes}

theorem no_error (h : codec.Brings answers came) (e : CodecError) : .error e ∉ answers := by
  induction h with
  | nil => exact List.not_mem_nil
  | wait _ ih => simpa using ih
  | frame _ _ ih => simpa using ih

theorem map_bytes (h : codec.Brings answers came) :
    (Deframer.frames answers).map (·.bytes codec.config.signature) = came := by
  induction h with
  | nil => rfl
  | wait _ ih => exact ih
  | frame _ _ ih => exact congrArg (List.cons _) ih

theorem whole (h : codec.Brings answers came) :
    ∀ frame ∈ Deframer.frames answers, frame.Whole codec.config.maxContentSize := by
  induction h with
  | nil => exact fun _ hmem => nomatch hmem
  | wait _ ih => exact ih
  | frame hwhole _ ih => exact List.forall_mem_cons.mpr ⟨hwhole, ih⟩

/-- What is decoded from the frames is what their bytes are decoded to, each taking all of them. -/
theorem map_decodeAny (hregistry : codec.registry.Reachable @Local)
    (h : codec.Brings answers came) :
    came.map codec.decodeAny = (Deframer.frames answers).map fun frame =>
      (codec.decodeFrame frame).map (·, frame.header.frameLength) := by
  rw [← h.map_bytes, List.map_map]
  exact List.map_congr_left fun frame hmem => decodeAny_bytes hregistry (h.whole frame hmem)

theorem map_decodeFrame (hregistry : codec.registry.Reachable @Indifferent)
    (h : codec.Brings answers came) :
    (Deframer.frames answers).map codec.decodeFrame = came.map codec.decodeAlone := by
  rw [← h.map_bytes, List.map_map]
  exact List.map_congr_left fun frame hmem =>
    decodeFrame_eq_decodeAlone hregistry (h.whole frame hmem)

end Brings

section Calls

variable {buffer : Segments} {pending : Bytes}

/-- What a request does while frames are on their way. Either nothing comes, and then more is to be
pushed unless all have come; or the first frame comes, and just its bytes are taken. -/
theorem next_of_isFrames (hframes : ∀ f ∈ fs, codec.IsFrame f)
    (hbytes : buffer.toBytes ++ pending = fs.flatten) :
    (({ codec.deframer with buffer } : Deframer).next =
        (.ok none, { codec.deframer with buffer }) ∧ (pending = [] → fs = [])) ∨
    ∃ frame more rest, fs = frame.bytes codec.config.signature :: more ∧
      ({ codec.deframer with buffer } : Deframer).next =
        (.ok (some frame), { codec.deframer with buffer := rest }) ∧
      frame.Whole codec.config.maxContentSize ∧ rest.toBytes ++ pending = more.flatten := by
  cases fs with
  | nil =>
    obtain ⟨hbuffer, -⟩ := List.append_eq_nil_iff.mp hbytes
    exact .inl ⟨Deframer.next_of_empty hbuffer, fun _ => rfl⟩
  | cons f more =>
    obtain ⟨header, content, hwell, hlen, rfl⟩ := (hframes f List.mem_cons_self).eq_bytes
    rcases Deframer.next_of_stream (d := { codec.deframer with buffer }) hwell hlen hbytes with
      ⟨hnext, hpending⟩ | ⟨segments, rest, hnext, rfl, hrest⟩
    · exact .inl ⟨hnext, fun h => absurd h hpending⟩
    · exact .inr ⟨⟨header, segments⟩, more, rest, rfl, hnext, ⟨hwell, hlen⟩, hrest⟩

/-- While frames are on their way, any calls bring the first of them, in order, and leave the others
on their way. -/
theorem play_of_isFrames {calls : List Deframer.Call} {later : Bytes}
    (hframes : ∀ f ∈ fs, codec.IsFrame f)
    (hbytes : buffer.toBytes ++ (calls.flatMap Deframer.Call.pushed ++ later) = fs.flatten) :
    ∃ came more rest, fs = came ++ more ∧
      codec.Brings (Deframer.play calls { codec.deframer with buffer }).1 came ∧
      (Deframer.play calls { codec.deframer with buffer }).2 =
        { codec.deframer with buffer := rest } ∧
      rest.toBytes ++ later = more.flatten := by
  -- on the calls; the invariant is that the buffer and what is to be pushed are the frames that
  -- have not come yet, so that a frame always begins where the last one ended
  induction calls generalizing fs buffer with
  | nil => exact ⟨[], fs, buffer, rfl, .nil, rfl, hbytes⟩
  | cons call calls ih =>
    cases call with
    | push chunk =>
      have hpushed : (buffer.push chunk).toBytes ++
          (calls.flatMap Deframer.Call.pushed ++ later) = fs.flatten := by
        rw [Segments.toBytes_push, List.append_assoc]
        rwa [List.flatMap_cons, List.append_assoc] at hbytes
      exact ih hframes hpushed
    | next =>
      rcases next_of_isFrames hframes hbytes with ⟨hnext, -⟩ |
        ⟨frame, more, rest, rfl, hnext, hwhole, hrest⟩ <;> rw [Deframer.play, hnext]
      · obtain ⟨came, more, rest, hfs, hcame, hplay, hmore⟩ := ih hframes hbytes
        exact ⟨came, more, rest, hfs, hcame.wait, hplay, hmore⟩
      · obtain ⟨came, more, rest, rfl, hcame, hplay, hmore⟩ :=
          ih (List.forall_mem_cons.mp hframes).2 hrest
        exact ⟨_ :: came, more, rest, rfl, hcame.frame hwhole, hplay, hmore⟩

/-- As many requests as frames are there leave nothing to ask for. -/
theorem next_of_replicate {last : Nat} (hframes : ∀ f ∈ fs, codec.IsFrame f)
    (hbytes : buffer.toBytes = fs.flatten) (hlast : fs.length ≤ last) :
    (Deframer.play (List.replicate last .next)
      { codec.deframer with buffer }).2.next.1 = .ok none := by
  induction last generalizing fs buffer with
  | zero =>
    obtain rfl := List.length_eq_zero_iff.mp (Nat.le_zero.mp hlast)
    exact congrArg Prod.fst (Deframer.next_of_empty (d := { codec.deframer with buffer }) hbytes)
  | succ last ih =>
    rw [List.replicate_succ, Deframer.play]
    rcases next_of_isFrames hframes ((List.append_nil _).trans hbytes) with ⟨hnext, hall⟩ |
      ⟨frame, more, rest, rfl, hnext, -, hrest⟩ <;> rw [hnext]
    · obtain rfl := hall rfl
      exact ih hframes hbytes (Nat.zero_le last)
    · rw [List.append_nil] at hrest
      exact ih (List.forall_mem_cons.mp hframes).2 hrest (Nat.le_of_succ_le_succ hlast)

end Calls

/-! ## Isolation -/

/-- The calls push the bytes of the frames, cut into chunks in any way, and ask for frames, in
between and in the end, until nothing comes. -/
structure Receives (codec : Codec) (fs : List Bytes) (calls : List Deframer.Call) : Prop where
  pushed : calls.flatMap Deframer.Call.pushed = fs.flatten
  drained : (Deframer.play calls codec.deframer).2.next.1 = .ok none

/-- What is decoded from the frames that come in answer to the calls. -/
def outcomes (codec : Codec) (calls : List Deframer.Call) :
    List (Except CodecError (Option Incoming)) :=
  (Deframer.frames (Deframer.play calls codec.deframer).1).map codec.decodeFrame

/-- The answers to the calls are just the frames, and those that nobody knows are passed over. -/
structure Isolates (codec : Codec) (fs : List Bytes) (calls : List Deframer.Call) : Prop where
  no_error : ∀ e, .error e ∉ (Deframer.play calls codec.deframer).1
  bytes : (Deframer.frames (Deframer.play calls codec.deframer).1).map
    (·.bytes codec.config.signature) = fs
  passes : ∀ frame ∈ Deframer.frames (Deframer.play calls codec.deframer).1,
    (frame.header.packetType.isNone = true ∨
      codec.registry.contains frame.header.packetType = false) →
        codec.decodeFrame frame = .ok none
  isEmpty : (Deframer.play calls codec.deframer).2.isEmpty = true

/-- At first nothing is there, and everything is still to be pushed. -/
theorem play_of_pushed {calls : List Deframer.Call} (hframes : ∀ f ∈ fs, codec.IsFrame f)
    (hpushed : calls.flatMap Deframer.Call.pushed = fs.flatten) :
    ∃ came more rest, fs = came ++ more ∧
      codec.Brings (Deframer.play calls codec.deframer).1 came ∧
      (Deframer.play calls codec.deframer).2 = { codec.deframer with buffer := rest } ∧
      rest.toBytes = more.flatten := by
  have hstart : Segments.empty.toBytes ++ (calls.flatMap Deframer.Call.pushed ++ []) =
      fs.flatten := by
    rw [Segments.toBytes_empty, List.nil_append, List.append_nil, hpushed]
  obtain ⟨came, more, rest, hfs, hcame, hplay, hmore⟩ := play_of_isFrames hframes hstart
  rw [List.append_nil] at hmore
  exact ⟨came, more, rest, hfs, hcame, hplay, hmore⟩

/-- Whatever came before, it is enough to ask once for each frame in the end. -/
theorem receives_of_pushed {calls : List Deframer.Call} {last : Nat}
    (hframes : ∀ f ∈ fs, codec.IsFrame f)
    (hpushed : calls.flatMap Deframer.Call.pushed = fs.flatten) (hlast : fs.length ≤ last) :
    codec.Receives fs (calls ++ List.replicate last .next) where
  pushed := by
    have hnone : (List.replicate last Deframer.Call.next).flatMap Deframer.Call.pushed = [] :=
      List.flatMap_eq_nil_iff.mpr fun call hmem => by rw [List.eq_of_mem_replicate hmem]; rfl
    rw [List.flatMap_append, hnone, List.append_nil, hpushed]
  drained := by
    -- the requests at the end take the frames that have not come before
    obtain ⟨came, more, rest, rfl, -, hplay, hmore⟩ := play_of_pushed hframes hpushed
    rw [List.length_append] at hlast
    rw [Deframer.play_append, hplay]
    exact next_of_replicate (fun f hmem => hframes f (List.mem_append_right came hmem)) hmore
      (by omega)

/-- All frames come, and nothing else. -/
theorem Receives.brings {calls : List Deframer.Call} (h : codec.Receives fs calls)
    (hframes : ∀ f ∈ fs, codec.IsFrame f) :
    codec.Brings (Deframer.play calls codec.deframer).1 fs ∧
      (Deframer.play calls codec.deframer).2.isEmpty = true := by
  obtain ⟨came, more, rest, rfl, hcame, hplay, hmore⟩ := play_of_pushed hframes h.pushed
  have hdrained := h.drained
  rw [hplay] at hdrained ⊢
  -- if a frame had not come, all its bytes would be there, and asking once more would bring it
  rcases next_of_isFrames (fun f hmem => hframes f (List.mem_append_right came hmem))
    ((List.append_nil _).trans hmore) with ⟨-, hall⟩ | ⟨frame, _, _, -, hnext, -⟩
  · obtain rfl := hall rfl
    rw [List.append_nil]
    exact ⟨hcame, (Deframer.isEmpty_iff _).mpr hmore⟩
  · rw [hnext] at hdrained
    cases hdrained

theorem Receives.isolates {calls : List Deframer.Call} (h : codec.Receives fs calls)
    (hframes : ∀ f ∈ fs, codec.IsFrame f) : codec.Isolates fs calls := by
  obtain ⟨hcame, hempty⟩ := h.brings hframes
  exact ⟨hcame.no_error, hcame.map_bytes,
    fun frame hmem => decodeFrame_of_unknown (hcame.whole frame hmem), hempty⟩

theorem Receives.map_decodeAny (hregistry : codec.registry.Reachable @Local)
    {calls : List Deframer.Call} (h : codec.Receives fs calls)
    (hframes : ∀ f ∈ fs, codec.IsFrame f) : fs.map codec.decodeAny =
      (Deframer.frames (Deframer.play calls codec.deframer).1).map fun frame =>
        (codec.decodeFrame frame).map (·, frame.header.frameLength) :=
  (h.brings hframes).1.map_decodeAny hregistry

theorem Receives.outcomes_eq (hregistry : codec.registry.Reachable @Indifferent)
    {calls : List Deframer.Call} (h : codec.Receives fs calls)
    (hframes : ∀ f ∈ fs, codec.IsFrame f) : codec.outcomes calls = fs.map codec.decodeAlone :=
  (h.brings hframes).1.map_decodeFrame hregistry

/-- Frames do not touch each other. A stream of frames whose contents are arbitrary, cut into chunks
in any way and pushed between any requests, is received as just these frames and without an error.
Where the serializers registered look at the bytes ahead alone, what each frame is decoded to is
what its bytes alone are decoded to, and a packet takes all of them. When some frames of a stream
are replaced by others, by none or by such with a corrupt content, what the other frames are decoded
to stays the same; for this the serializers may look anywhere in the content and at where they
stand, as long as they do not look at the pieces it came in. -/
theorem isolates_frames (codec : Codec) :
    (∀ fs : List Bytes, (∀ f ∈ fs, codec.IsFrame f) →
      (∀ (calls : List Deframer.Call) (last : Nat),
        calls.flatMap Deframer.Call.pushed = fs.flatten → fs.length ≤ last →
          codec.Receives fs (calls ++ List.replicate last .next)) ∧
      ∀ calls : List Deframer.Call, codec.Receives fs calls → codec.Isolates fs calls ∧
        (codec.registry.Reachable @Local → fs.map codec.decodeAny =
          (Deframer.frames (Deframer.play calls codec.deframer).1).map fun frame =>
            (codec.decodeFrame frame).map (·, frame.header.frameLength))) ∧
    (codec.registry.Reachable @Indifferent → ∀ before old new after : List Bytes,
      (∀ f ∈ before ++ old ++ after, codec.IsFrame f) → (∀ f ∈ new, codec.IsFrame f) →
      ∀ calls calls' : List Deframer.Call,
        codec.Receives (before ++ old ++ after) calls →
        codec.Receives (before ++ new ++ after) calls' →
          (codec.outcomes calls').take before.length = (codec.outcomes calls).take before.length ∧
          (codec.outcomes calls').drop (before.length + new.length) =
            (codec.outcomes calls).drop (before.length + old.length)) := by
  constructor
  · intro fs hframes
    exact ⟨fun calls last => receives_of_pushed hframes, fun calls hcalls =>
      ⟨hcalls.isolates hframes, fun hregistry => hcalls.map_decodeAny hregistry hframes⟩⟩
  · intro hregistry before old new after hframes hnew calls calls' hcalls hcalls'
    have hframes' : ∀ f ∈ before ++ new ++ after, codec.IsFrame f := by
      simp only [List.forall_mem_append] at hframes ⊢
      exact ⟨⟨hframes.1.1, hnew⟩, hframes.2⟩
    -- both are lists of what the frames alone are decoded to, and these lists differ in the middle
    rw [hcalls.outcomes_eq hregistry hframes, hcalls'.outcomes_eq hregistry hframes']
    simp only [List.map_append]
    constructor
    · rw [List.append_assoc, List.append_assoc, List.take_left' (by rw [List.length_map]),
        List.take_left' (by rw [List.length_map])]
    · rw [List.drop_left' (by rw [List.length_append, List.length_map, List.length_map]),
        List.drop_left' (by rw [List.length_append, List.length_map, List.length_map])]

/-- A logout between two other frames. When the length of its token is overwritten, so that the
token would reach into the frame behind it, that one is received as before. -/
theorem isolates_frames_logout :
    let codec : Codec := ⟨.standard, Registry.empty.insert (Registry.packetEntry .logoutRequest
      Packet.logoutRequest.serializer), rfl⟩
    let calls : List Deframer.Call :=
      [.push [67, 87, 0, 0, 0], .next, .push [0, 1, 0, 0, 0, 67, 67, 87, 3, 0, 0, 0, 6, 0], .next,
        .push [0, 0, 1, 0, 0, 0, 97, 1, 67, 87, 3, 0, 0, 0, 6, 0, 0, 0, 1, 0, 0, 0, 98, 0]]
    let calls' : List Deframer.Call :=
      [.push [67, 87, 0, 0, 0, 0, 1, 0, 0, 0, 67, 67, 87, 3, 0, 0, 0, 6, 0, 0, 0, 9], .next,
        .push [0, 0, 0, 97, 1, 67, 87, 3, 0, 0, 0, 6, 0, 0, 0, 1, 0, 0, 0, 98, 0]]
    codec.registry.Reachable @Indifferent ∧
      (codec.outcomes (calls' ++ List.replicate 3 .next)).drop 2 =
        (codec.outcomes (calls ++ List.replicate 3 .next)).drop 2 ∧
      codec.outcomes (calls' ++ List.replicate 3 .next) = [.ok none,
        .error (.contentSizeMismatch 6 13), .ok (some ⟨.logoutRequest, ⟨"b", ⟨false⟩⟩⟩)] := by
  intro codec calls calls'
  have hregistry : codec.registry.Reachable @Indifferent :=
    .registerPacket .empty (Local.indifferent (Packet.local_deserialize .logoutRequest)) rfl
  have hreserved : codec.IsFrame ([67, 87, 0, 0, 0, 0, 1, 0, 0, 0] ++ [67]) := .intro rfl rfl
  have hheader : run codec.readHeader [67, 87, 3, 0, 0, 0, 6, 0, 0, 0] =
      .ok (⟨⟨3⟩, none, 6⟩, 10) := rfl
  have hlogout : codec.IsFrame (_ ++ [1, 0, 0, 0, 98, 0]) := .intro hheader rfl
  have hold : codec.IsFrame (_ ++ [1, 0, 0, 0, 97, 1]) := .intro hheader rfl
  have hnew : codec.IsFrame (_ ++ [9, 0, 0, 0, 97, 1]) := .intro hheader rfl
  obtain ⟨hall, hothers⟩ := isolates_frames codec
  have hframes {f : Bytes} (hf : codec.IsFrame f) := List.forall_mem_cons.mpr ⟨hreserved,
    List.forall_mem_cons.mpr ⟨hf, List.forall_mem_singleton.mpr hlogout⟩⟩
  have hcalls := (hall _ (hframes hold)).1 calls 3 rfl (Nat.le_refl 3)
  have hcalls' := (hall _ (hframes hnew)).1 calls' 3 rfl (Nat.le_refl 3)
  have hsame := hothers hregistry [_] [_] [_] [_] (hframes hold)
    (List.forall_mem_singleton.mpr hnew) _ _ hcalls hcalls'
  exact ⟨hregistry, hsame.2, (hcalls'.outcomes_eq hregistry (hframes hnew)).trans rfl⟩

/-- A serializer that asks for its offset makes something else of a frame than of its bytes alone.
One that asks for the pieces makes something else of a frame that came in two of them. -/
theorem decodes_of_foreign :
    let f : Bytes := [67, 87, 4, 0, 0, 2, 8, 0, 0, 0, 1, 0, 0, 0, 0, 0, 0, 0]
    let whole : List Deframer.Call := [.push f, .next]
    let halves : List Deframer.Call := [.push (f.take 14), .push (f.drop 14), .next]
    let received (id : UInt64) : Except CodecError (Option Incoming) :=
      .ok (some ⟨.roomDeletedBroadcast, ⟨⟨id⟩⟩⟩)
    ((ofRoomDeleted RoomDeleted.positional).registry.Reachable @Indifferent ∧
      (ofRoomDeleted RoomDeleted.positional).IsFrame f ∧
      (ofRoomDeleted RoomDeleted.positional).Receives [f] whole ∧
      (ofRoomDeleted RoomDeleted.positional).outcomes whole = [received 0] ∧
      ((ofRoomDeleted RoomDeleted.positional).decodeAny f).map Prod.fst = received 10) ∧
    (ofRoomDeleted RoomDeleted.pieces).registry.Reachable @Sighted ∧
      (ofRoomDeleted RoomDeleted.pieces).IsFrame f ∧
      (ofRoomDeleted RoomDeleted.pieces).Receives [f] whole ∧
      (ofRoomDeleted RoomDeleted.pieces).Receives [f] halves ∧
      (ofRoomDeleted RoomDeleted.pieces).outcomes whole = [received 1] ∧
      (ofRoomDeleted RoomDeleted.pieces).outcomes halves = [received 2] := by
  have hheader (serializer : Serializer RoomDeleted) :
      run (ofRoomDeleted serializer).readHeader [67, 87, 4, 0, 0, 2, 8, 0, 0, 0] =
        .ok (⟨.ofParts 2 4, none, 8⟩, 10) := rfl
  have hframe (serializer : Serializer RoomDeleted) : (ofRoomDeleted serializer).IsFrame
      (_ ++ [1, 0, 0, 0, 0, 0, 0, 0]) := .intro (hheader serializer) rfl
  have hpositional : (ofRoomDeleted RoomDeleted.positional).registry.Reachable @Indifferent :=
    reachable_ofRoomDeleted RoomDeleted.indifferent_positional
  have hpieces : (ofRoomDeleted RoomDeleted.pieces).registry.Reachable @Sighted :=
    reachable_ofRoomDeleted RoomDeleted.sighted_pieces
  exact ⟨⟨hpositional, hframe _, ⟨rfl, rfl⟩, rfl, rfl⟩,
    hpieces, hframe _, ⟨rfl, rfl⟩, ⟨rfl, rfl⟩, rfl, rfl⟩

end Codec

end ChatCodec
