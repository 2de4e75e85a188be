import ChatCodec.Proofs.Framing.Deframer
import ChatCodec.Proofs.Framing.Packets

/-!
# What is sent arrives

A sender encodes packets one after another. Their frames travel as a stream of bytes, which a
receiver pushes into a deframer in chunks of any size, asking for frames whenever it likes. Whatever
the chunks and whenever it asks, it never gets an error, and the frames it gets are those of the
packets in the order they were sent.

* `Codec.Sends` — some packets are encoded to a stream;
* `Deframer.Call`, `Deframer.play` — pushes and requests in any order, and the answers to them;
* `Codec.Delivers` — the answers hold no error and the frames of some packets in order.

What the deframer holds, with what is still to be pushed, is always the stream of the packets that
have not come out yet. `Codec.next_of_sends` keeps this over one request, `Codec.play_of_sends` over
any calls. Main result: `Codec.delivers_play`.
-/

namespace ChatCodec

open Read

/-! ## Calls -/

/-- A call of a receiver. -/
inductive Deframer.Call where
  | push (chunk : Bytes)
  | next

/-- The bytes that a call pushes. -/
def Deframer.Call.pushed : Call → Bytes
  | push chunk => chunk
  | next => []

namespace Deframer

/-- The answers to the requests for a frame, in order, and the deframer after all calls. -/
def play : List Call → Deframer → List (Except CodecError (Option Frame)) × Deframer
  | [], d => ([], d)
  | .push chunk :: calls, d => play calls (d.push chunk)
  | .next :: calls, d => (d.next.1 :: (play calls d.next.2).1, (play calls d.next.2).2)

/-- The frames among some answers. -/
def frames (answers : List (Except CodecError (Option Frame))) : List Frame :=
  answers.filterMap fun
    | .ok frame => frame
    | .error _ => none

theorem play_append (calls more : List Call) (d : Deframer) : play (calls ++ more) d =
    ((play calls d).1 ++ (play more (play calls d).2).1, (play more (play calls d).2).2) := by
  induction calls generalizing d with
  | nil => rfl
  | cons call calls ih =>
    cases call with
    | push chunk => exact ih (d.push chunk)
    | next =>
      rw [List.cons_append, play, play, ih]
      rfl

end Deframer

/-! ## Packets -/

namespace Incoming

/-- A response code that stands for its own byte, if the packet has one. -/
def HasPlainCode (sent : Incoming) : Prop :=
  ∀ code, sent.packet.errorCode sent.body = some code → ErrorCode.ofInt8 code.toInt8 = code

/-- The packet with the wire-normal form of its body. -/
def normalize (sent : Incoming) : Incoming :=
  ⟨sent.packet, sent.packet.normalize sent.body⟩

end Incoming

namespace Codec

/-- Each packet is encoded, into whatever buffer, and the frames make a stream. -/
inductive Sends (codec : Codec) : List Incoming → Bytes → Prop
  | nil : codec.Sends [] []
  | cons {sent : Incoming} {more : List Incoming} {buffer : Buffer} {n : Nat} {w : Writer}
      {stream : Bytes}
      (hencode : codec.encodeInto sent.packet sent.body (.growable buffer) = .ok n w)
      (hmore : codec.Sends more stream) : codec.Sends (sent :: more) (w.written ++ stream)

/-- The answers hold no error, and their frames are decoded to the packets in order. -/
structure Delivers (codec : Codec) (answers : List (Except CodecError (Option Frame)))
    (sent : List Incoming) : Prop where
  no_error : ∀ e, .error e ∉ answers
  frames : (Deframer.frames answers).map codec.decodeFrame =
    sent.map fun packet => .ok (some packet.normalize)

section Delivers

variable {codec : Codec} {answers more : List (Except CodecError (Option Frame))}
variable {sent rest : List Incoming}

theorem delivers_nil (codec : Codec) : codec.Delivers [] [] where
  no_error _ h := by cases h
  frames := rfl

theorem Delivers.append (h : codec.Delivers answers sent) (hmore : codec.Delivers more rest) :
    codec.Delivers (answers ++ more) (sent ++ rest) where
  no_error e hmem := (List.mem_append.mp hmem).elim (h.no_error e) (hmore.no_error e)
  frames := by
    rw [Deframer.frames, List.filterMap_append, List.map_append, List.map_append]
    exact congrArg₂ _ h.frames hmore.frames

/-- Nothing came yet. -/
theorem Delivers.wait (h : codec.Delivers answers sent) :
    codec.Delivers (.ok none :: answers) sent where
  no_error e hmem := by
    rcases List.mem_cons.mp hmem with heq | hmem
    · cases heq
    · exact h.no_error e hmem
  frames := h.frames

/-- The frame of a packet came. -/
theorem Delivers.cons {frame : Frame} {packet : Incoming} (h : codec.Delivers answers sent)
    (hframe : codec.decodeFrame frame = .ok (some packet.normalize)) :
    codec.Delivers (.ok (some frame) :: answers) (packet :: sent) where
  no_error e hmem := by
    rcases List.mem_cons.mp hmem with heq | hmem
    · cases heq
    · exact h.no_error e hmem
  frames := by
    show codec.decodeFrame frame :: (Deframer.frames answers).map codec.decodeFrame = _
    rw [hframe, h.frames, List.map_cons]

end Delivers

/-! ## Delivery -/

/-- The codec of a configuration knows the whole catalogue. -/
theorem registry_of_ofConfig {config : Config} {codec : Codec}
    (h : ofConfig config = .ok codec) : codec.registry = .standard := by
  unfold ofConfig withRegistry at h
  split at h
  · cases h
    rfl
  · cases h

section Delivery

variable {codec : Codec} {sent : List Incoming} {buffer : Segments} {pending : Bytes}

/-- The frame of a packet that was sent is decoded to the packet in its normal form. -/
theorem decodeFrame_of_sent (hregistry : codec.registry = .standard) {packet : Incoming}
    (hcode : packet.HasPlainCode) {segments : Segments}
    (hout : Write.output (packet.packet.serializer.serialize packet.body) =
      .ok ((), segments.toBytes))
    (hlimit : segments.toBytes.length ≤ codec.config.maxContentSize) :
    codec.decodeFrame ⟨sealedHeader packet.packet.code (packet.packet.errorCode packet.body)
      segments.toBytes, segments⟩ = .ok (some packet.normalize) := by
  have hlen : segments.toBytes.length = (sealedHeader packet.packet.code
      (packet.packet.errorCode packet.body) segments.toBytes).contentLength :=
    (contentLength_sealedHeader hlimit).symm
  have hfaithful : ∀ code, packet.packet.errorCode packet.body = some code → code.Faithful :=
    fun code h => ErrorCode.faithful_of_ofInt8 (hcode code h)
  rw [decodeFrame_eq (hregistry ▸ .standard) hlen, hregistry,
    Registry.decodeContent_standard (packetType_sealedHeader _ _ _) hlen,
    decodeContent_sealedHeader hfaithful hout hlimit, Packet.received_eq_normalize hcode]
  rfl

/-- What a request for a frame does while the packets of a stream are on their way. Either nothing
comes, and then more is to be pushed unless all has come; or the frame of the first packet comes,
and the others are still on their way. -/
theorem next_of_sends (hregistry : codec.registry = .standard)
    (hcodes : ∀ packet ∈ sent, packet.HasPlainCode)
    (hsends : codec.Sends sent (buffer.toBytes ++ pending)) :
    (({ codec.deframer with buffer } : Deframer).next =
        (.ok none, { codec.deframer with buffer }) ∧
      (pending = [] → sent = [] ∧ buffer.toBytes = [])) ∨
    ∃ packet more frame rest, sent = packet :: more ∧
      ({ codec.deframer with buffer } : Deframer).next =
        (.ok (some frame), { codec.deframer with buffer := rest }) ∧
      codec.decodeFrame frame = .ok (some packet.normalize) ∧
      codec.Sends more (rest.toBytes ++ pending) := by
  generalize hstream : buffer.toBytes ++ pending = stream at hsends
  cases hsends with
  | nil =>
    obtain ⟨hbuffer, -⟩ := List.append_eq_nil_iff.mp hstream
    exact .inl ⟨Deframer.next_of_empty hbuffer, fun _ => ⟨rfl, hbuffer⟩⟩
  | @cons packet more start n w stream hencode hmore =>
    obtain ⟨content, hout, hlimit, hwritten⟩ := written_of_encodeInto hencode
    have hwell : (sealedHeader packet.packet.code (packet.packet.errorCode packet.body)
        content).WellFormed codec.config.maxContentSize := wellFormed_sealedHeader hlimit
    rw [hwritten] at hstream
    rcases Deframer.next_of_stream (d := { codec.deframer with buffer }) hwell
      (contentLength_sealedHeader hlimit).symm hstream with
      ⟨hnext, hpending⟩ | ⟨segments, rest, hnext, rfl, rfl⟩
    · exact .inl ⟨hnext, fun h => absurd h hpending⟩
    · have hcode := hcodes packet List.mem_cons_self
      have hframe := decodeFrame_of_sent hregistry hcode hout hlimit
      exact .inr ⟨packet, more, _, rest, rfl, hnext, hframe, hmore⟩

/-- While the packets of a stream are on their way, any calls bring the first of them, in order, and
leave the others on their way. -/
theorem play_of_sends (hregistry : codec.registry = .standard) {calls : List Deframer.Call}
    {later : Bytes} (hcodes : ∀ packet ∈ sent, packet.HasPlainCode)
    (hsends : codec.Sends sent
      (buffer.toBytes ++ (calls.flatMap Deframer.Call.pushed ++ later))) :
    ∃ came more rest, sent = came ++ more ∧
      codec.Delivers (Deframer.play calls { codec.deframer with buffer }).1 came ∧
      (Deframer.play calls { codec.deframer with buffer }).2 =
        { codec.deframer with buffer := rest } ∧
      codec.Sends more (rest.toBytes ++ later) := by
  -- on the calls; the invariant is that the buffer and what is to be pushed are the stream of the
  -- packets that have not come yet
  induction calls generalizing sent buffer with
  | nil => exact ⟨[], sent, buffer, rfl, codec.delivers_nil, rfl, hsends⟩
  | cons call calls ih =>
    cases call with
    | push chunk =>
      -- a chunk goes over from what is to be pushed into the buffer
      have hpushed : codec.Sends sent ((buffer.push chunk).toBytes ++
          (calls.flatMap Deframer.Call.pushed ++ later)) := by
        rw [Segments.toBytes_push, List.append_assoc]
        rwa [List.flatMap_cons, List.append_assoc] at hsends
      exact ih hcodes hpushed
    | next =>
      rcases next_of_sends hregistry hcodes hsends with ⟨hnext, -⟩ |
        ⟨packet, more, frame, rest, rfl, hnext, hframe, hmore⟩ <;> rw [Deframer.play, hnext]
      · obtain ⟨came, more, rest, hsent, hcame, hplay, hmore⟩ := ih hcodes hsends
        exact ⟨came, more, rest, hsent, hcame.wait, hplay, hmore⟩
      · have hothers : ∀ packet ∈ more, packet.HasPlainCode :=
          fun packet hmem => hcodes packet (List.mem_cons_of_mem _ hmem)
        obtain ⟨came, more', rest', rfl, hcame, hplay, hmore'⟩ := ih hothers hmore
        exact ⟨packet :: came, more', rest', rfl, hcame.cons hframe, hplay, hmore'⟩

/-- When the bytes of all packets are there, each request brings one until all have come. -/
theorem play_replicate_next (hregistry : codec.registry = .standard) {last : Nat}
    (hcodes : ∀ packet ∈ sent, packet.HasPlainCode) (hlast : sent.length ≤ last)
    (hsends : codec.Sends sent buffer.toBytes) :
    codec.Delivers
        (Deframer.play (List.replicate last .next) { codec.deframer with buffer }).1 sent ∧
      (Deframer.play (List.replicate last .next)
        { codec.deframer with buffer }).2.isEmpty = true := by
  induction last generalizing sent buffer with
  | zero =>
    obtain rfl := List.length_eq_zero_iff.mp (Nat.le_zero.mp hlast)
    generalize hbytes : buffer.toBytes = bytes at hsends
    cases hsends
    exact ⟨codec.delivers_nil, (Deframer.isEmpty_iff _).mpr hbytes⟩
  | succ last ih =>
    rw [List.replicate_succ]
    rw [← List.append_nil buffer.toBytes] at hsends
    rcases next_of_sends hregistry hcodes hsends with ⟨hnext, hall⟩ |
      ⟨packet, more, frame, rest, rfl, hnext, hframe, hmore⟩ <;> rw [Deframer.play, hnext]
    · -- nothing is pending, so nothing comes only when all have come
      obtain ⟨rfl, -⟩ := hall rfl
      rw [List.append_nil] at hsends
      obtain ⟨hcame, hempty⟩ := ih hcodes (Nat.zero_le last) hsends
      exact ⟨hcame.wait, hempty⟩
    · have hothers : ∀ packet ∈ more, packet.HasPlainCode :=
        fun packet hmem => hcodes packet (List.mem_cons_of_mem _ hmem)
      rw [List.append_nil] at hmore
      obtain ⟨hcame, hempty⟩ := ih hothers (Nat.le_of_succ_le_succ hlast) hmore
      exact ⟨hcame.cons hframe, hempty⟩

/-- The stream of some packets, cut into chunks in any way and pushed between any requests for
frames, is received as the packets in their normal form, in order and without an error. When at last
as many requests are made as there are frames that have not come, nothing is left. -/
theorem delivers_play {config : Config} {stream : Bytes} {calls : List Deframer.Call} {last : Nat}
    (hcodec : ofConfig config = .ok codec) (hcodes : ∀ packet ∈ sent, packet.HasPlainCode)
    (hsends : codec.Sends sent stream) (hcalls : calls.flatMap Deframer.Call.pushed = stream)
    (hlast : sent.length ≤
      (Deframer.frames (Deframer.play calls codec.deframer).1).length + last) :
    codec.Delivers
        (Deframer.play (calls ++ List.replicate last .next) codec.deframer).1 sent ∧
      (Deframer.play (calls ++ List.replicate last .next) codec.deframer).2.isEmpty = true := by
  have hregistry := registry_of_ofConfig hcodec
  -- nothing is there at first, and everything is still to be pushed
  have hstart : codec.Sends sent
      (Segments.empty.toBytes ++ (calls.flatMap Deframer.Call.pushed ++ [])) := by
    rwa [Segments.toBytes_empty, List.nil_append, List.append_nil, hcalls]
  obtain ⟨came, more, rest, rfl, hcame, hplay, hmore⟩ := play_of_sends hregistry hcodes hstart
  change codec.Delivers (Deframer.play calls codec.deframer).1 came at hcame
  change (Deframer.play calls codec.deframer).2 = _ at hplay
  -- as many packets came as frames, so the last requests are enough for the others
  have hcount := congrArg List.length hcame.frames
  rw [List.length_map, List.length_map] at hcount
  have hleft : more.length ≤ last := by
    rw [List.length_append, hcount] at hlast
    omega
  have hothers : ∀ packet ∈ more, packet.HasPlainCode :=
    fun packet hmem => hcodes packet (List.mem_append_right came hmem)
  rw [List.append_nil] at hmore
  obtain ⟨hlate, hempty⟩ := play_replicate_next hregistry hothers hleft hmore
  rw [Deframer.play_append, hplay]
  exact ⟨hcame.append hlate, hempty⟩

/-- Two packets in three chunks, cut inside a header and inside a content; a request in between
brings nothing, another one the first packet. The payload of the failure is left out. -/
theorem delivers_play_two :
    let sent : List Incoming :=
      [⟨.ackResponse, .success ()⟩, ⟨.postMessageResponse, ⟨.roomFull, some "full", some ⟨7⟩⟩⟩]
    let calls : List Deframer.Call :=
      [.push [67, 87, 1, 0, 0], .next, .push [1, 0, 1, 0, 0, 0, 0, 67], .next,
        .push [87, 32, 0, 0, 1, 11, 1, 0, 0, 0, 11]]
    standard.Delivers (Deframer.play (calls ++ List.replicate 1 .next) standard.deframer).1 sent ∧
      (Deframer.play (calls ++ List.replicate 1 .next) standard.deframer).2.isEmpty = true := by
  have hcodes : Incoming.HasPlainCode ⟨.ackResponse, .success ()⟩ ∧
      Incoming.HasPlainCode ⟨.postMessageResponse, ⟨.roomFull, some "full", some ⟨7⟩⟩⟩ := by
    constructor <;> rintro code ⟨⟩ <;> rfl
  have hack : standard.encodeInto .ackResponse (.success ()) (.growable .empty) =
      .ok 12 ((Writer.growable .empty).append [67, 87, 1, 0, 0, 1, 0, 1, 0, 0, 0, 0]) := rfl
  have hpost : standard.encodeInto .postMessageResponse ⟨.roomFull, some "full", some ⟨7⟩⟩
      (.growable .empty) =
        .ok 12 ((Writer.growable .empty).append [67, 87, 32, 0, 0, 1, 11, 1, 0, 0, 0, 11]) := rfl
  have hcodec : ofConfig .standard = .ok standard := rfl
  exact delivers_play hcodec (List.forall_mem_cons.mpr ⟨hcodes.1, List.forall_mem_cons.mpr
    ⟨hcodes.2, fun _ h => nomatch h⟩⟩) (.cons hack (.cons hpost .nil)) rfl (by decide)

end Delivery

end Codec

end ChatCodec
