import ChatCodec.Proofs.Framing.Sinks
import ChatCodec.Stream

/-!
# Packets to any sink

A sender writes packets one after another to a sink that takes a few bytes at a time and may fill
up, in the middle of a frame too. Some of the packets cannot be encoded. What the sink holds is at
all times the beginning of one stream, that of the frames of the other packets in order.

* `ByteSink.upTo` — the beginning of a stream, as far as a limit allows;
* `ByteSink.Holds` — the sink holds the beginning of a stream, and takes something at each write;
* `Codec.wire` — the frames of some packets on the wire;
* `Codec.writePackets`, `Codec.verdicts` — any number of calls, and what they answer.

One write of all bytes keeps `Holds` (`ByteSink.writeAll_eq`), so does one packet
(`Codec.writePacket_eq`), and so do any number of them (`Codec.writePackets_eq`). Main result:
`Codec.writePackets_stored`.
-/

namespace ChatCodec

/-! ## Sinks -/

namespace ByteSink

/-- The beginning of a stream, as far as a limit allows. -/
def upTo : Option Nat → Bytes → Bytes
  | none, stream => stream
  | some limit, stream => stream.take limit

section Limits

variable {limit : Option Nat} {stream src more : Bytes}

/-- What is there in full is there within the limit. -/
theorem length_le_of_upTo {bound : Nat} (h : upTo (some bound) (stream ++ src) =
    upTo (some bound) stream ++ src) (hne : src ≠ []) : (stream ++ src).length ≤ bound := by
  have hlength := congrArg List.length h
  have hpos := List.length_pos_iff.mpr hne
  simp only [upTo, List.length_take, List.length_append] at hlength ⊢
  omega

/-- Beyond the limit nothing is added. -/
theorem upTo_of_le {bound : Nat} (h : bound ≤ stream.length) (more : Bytes) :
    upTo (some bound) (stream ++ more) = upTo (some bound) stream :=
  List.take_append_of_le_length h

/-- What is refused in part reaches the limit. -/
theorem exists_limit (h : upTo limit (stream ++ src) ≠ upTo limit stream ++ src) :
    ∃ bound, limit = some bound ∧ bound ≤ (stream ++ src).length := by
  cases limit with
  | none => exact absurd rfl h
  | some bound =>
    refine ⟨bound, rfl, Nat.le_of_not_lt fun hlt => h ?_⟩
    rw [List.length_append] at hlt
    rw [upTo, upTo, List.take_of_length_le (by rw [List.length_append]; omega),
      List.take_of_length_le (by omega)]

end Limits

/-- The sink holds the beginning of a stream, and each write takes something while there is room. -/
structure Holds (sink : ByteSink) (stream : Bytes) : Prop where
  stored : sink.stored = upTo sink.limit stream
  maxWrite : sink.maxWrite ≠ some 0

variable {sink : ByteSink} {stream src : Bytes} {b : UInt8} {rest : Bytes} {n : Nat}

theorem holds_empty {maxWrite : Option Nat} (hmax : maxWrite ≠ some 0) (limit : Option Nat) :
    Holds { maxWrite, limit } [] where
  stored := by cases limit <;> simp [upTo]
  maxWrite := hmax

/-- With the next bytes of the stream the sink holds more of it, as far as its limit allows. -/
theorem Holds.extend (h : sink.Holds stream) (src : Bytes) :
    ({ sink with stored := upTo sink.limit (stream ++ src) } : ByteSink).Holds (stream ++ src) where
  stored := rfl
  maxWrite := h.maxWrite

/-- Only a full sink takes nothing. -/
theorem Holds.isFull (h : sink.Holds stream) (hn : 0 < n) (haccepts : sink.accepts n = 0) :
    sink.isFull = true ∧ ∃ bound, sink.limit = some bound ∧ bound ≤ stream.length := by
  obtain ⟨stored, maxWrite, limit⟩ := sink
  obtain ⟨hstored, hmax⟩ := h
  dsimp only at hstored hmax
  subst hstored
  have hcount : 0 < (maxWrite.map (min · n)).getD n := by
    cases maxWrite with
    | none => exact hn
    | some bound =>
      have hbound : bound ≠ 0 := fun hzero => hmax (congrArg some hzero)
      simp only [Option.map_some, Option.getD_some]
      omega
  cases limit with
  | none =>
    rw [accepts] at haccepts
    simp only [Option.map_none, Option.getD_none] at haccepts
    omega
  | some bound =>
    have hle : bound ≤ (stream.take bound).length := by
      rw [accepts] at haccepts
      simp only [Option.map_some, Option.getD_some, upTo] at haccepts
      omega
    refine ⟨by simpa [ByteSink.isFull, upTo] using hle, bound, rfl, ?_⟩
    rw [List.length_take] at hle
    omega

/-- A write takes no more than it is given, and no more than there is room for. -/
theorem accepts_le (sink : ByteSink) (n : Nat) : sink.accepts n ≤ n ∧
    ∀ bound, sink.limit = some bound → sink.accepts n ≤ bound - sink.stored.length := by
  obtain ⟨stored, maxWrite, limit⟩ := sink
  have hcount : (maxWrite.map (min · n)).getD n ≤ n := by
    cases maxWrite with
    | none => exact Nat.le_refl n
    | some bound => exact Nat.min_le_right bound n
  cases limit with
  | none => exact ⟨hcount, fun _ h => nomatch h⟩
  | some limit =>
    simp only [accepts, Option.map_some, Option.getD_some]
    refine ⟨Nat.le_trans (Nat.min_le_left _ _) hcount, fun _ h => ?_⟩
    cases h
    exact Nat.min_le_right _ _

/-- The bytes one write takes are the next ones of the stream. -/
theorem Holds.take (h : sink.Holds stream) (haccepts : sink.accepts src.length = n + 1) :
    ({ sink with stored := sink.stored ++ src.take (n + 1) } : ByteSink).Holds
      (stream ++ src.take (n + 1)) := by
  refine ⟨?_, h.maxWrite⟩
  have hroom := (sink.accepts_le src.length).2
  have hstored := h.stored
  obtain ⟨stored, maxWrite, limit⟩ := sink
  dsimp only at hroom hstored ⊢
  cases limit with
  | none => rw [hstored, upTo, upTo]
  | some bound =>
    -- there is room for a byte at least, so the stream was stored in full
    have hle := hroom bound rfl
    rw [haccepts, hstored, upTo, List.length_take] at hle
    have hroom₁ : (stream ++ src.take (n + 1)).length ≤ bound := by
      rw [List.length_append, List.length_take]
      omega
    have hroom₀ : stream.length ≤ bound := by omega
    rw [hstored, upTo, upTo, List.take_of_length_le hroom₀, List.take_of_length_le hroom₁]

/-- All bytes are written, or as many as the sink still has room for, and then it is full. -/
theorem writeAll_eq (h : sink.Holds stream) (src : Bytes) : sink.writeAll src =
    (if upTo sink.limit (stream ++ src) = upTo sink.limit stream ++ src then .ok ()
      else .error (.io "sink full"),
      { sink with stored := upTo sink.limit (stream ++ src) }) := by
  fun_induction writeAll sink src generalizing stream with
  | case1 sink =>
    rw [List.append_nil, List.append_nil, if_pos rfl, ← h.stored]
  | case2 sink b rest haccepts =>
    obtain ⟨hfull, bound, hlimit, hle⟩ := h.isFull (Nat.succ_pos _) haccepts
    have hsame : upTo sink.limit (stream ++ b :: rest) = sink.stored := by
      rw [h.stored, hlimit, upTo_of_le hle]
    have hpart : ¬ sink.stored = sink.stored ++ b :: rest := by simp
    rw [refusal, if_pos hfull, hsame, ← h.stored, if_neg hpart]
  | case3 sink b rest n haccepts ih =>
    have htaken : b :: rest.take n = (b :: rest).take (n + 1) := rfl
    have hrest : (b :: rest).take (n + 1) ++ rest.drop n = b :: rest :=
      List.take_append_drop (n + 1) (b :: rest)
    have hholds := h.take haccepts
    -- what was taken is in the sink, and the rest is written behind it
    have hupTo : upTo sink.limit (stream ++ (b :: rest).take (n + 1)) =
        upTo sink.limit stream ++ (b :: rest).take (n + 1) := by
      rw [← h.stored]
      exact hholds.stored.symm
    rw [htaken] at ih ⊢
    rw [ih hholds]
    dsimp only
    rw [List.append_assoc, hrest, hupTo, List.append_assoc, hrest]

end ByteSink

/-! ## Packets -/

namespace Codec

variable {codec : Codec} {pool : BufferPool} {sink : ByteSink} {stream : Bytes}

/-- The bytes of a packet on the wire; one that cannot be encoded has none. -/
def sentBytes (codec : Codec) (sent : Incoming) : Bytes :=
  match codec.frame? sent.packet sent.body with
  | .ok frame => frame
  | .error _ => []

/-- The frames of some packets on the wire. -/
def wire (codec : Codec) (sent : List Incoming) : Bytes :=
  sent.flatMap codec.sentBytes

/-- What a call answers that writes a packet behind a stream. -/
def verdict (codec : Codec) (limit : Option Nat) (stream : Bytes) (sent : Incoming) :
    Except StreamError Nat :=
  match codec.frame? sent.packet sent.body with
  | .error e => .error (.codec e)
  | .ok frame =>
    if ByteSink.upTo limit (stream ++ frame) = ByteSink.upTo limit stream ++ frame then
      .ok frame.length
    else
      .error (.io "sink full")

/-- What calls one after another answer. -/
def verdicts (codec : Codec) (limit : Option Nat) :
    Bytes → List Incoming → List (Except StreamError Nat)
  | _, [] => []
  | stream, call :: more =>
    codec.verdict limit stream call :: codec.verdicts limit (stream ++ codec.sentBytes call) more

/-- Writes packets one after another: the answers in order, and the pool and the sink after them. -/
def writePackets (codec : Codec) :
    List Incoming → BufferPool → ByteSink → List (Except StreamError Nat) × BufferPool × ByteSink
  | [], pool, sink => ([], pool, sink)
  | call :: more, pool, sink =>
    let (answer, pool, sink) := codec.writePacket pool sink call.packet call.body
    let (answers, pool, sink) := codec.writePackets more pool sink
    (answer :: answers, pool, sink)

theorem wire_nil (codec : Codec) : codec.wire [] = [] := rfl

theorem wire_append (codec : Codec) (before after : List Incoming) :
    codec.wire (before ++ after) = codec.wire before ++ codec.wire after :=
  List.flatMap_append

theorem wire_cons (codec : Codec) (call : Incoming) (after : List Incoming) :
    codec.wire (call :: after) = codec.sentBytes call ++ codec.wire after :=
  List.flatMap_cons

theorem sentBytes_of_error {sent : Incoming} {e : CodecError}
    (h : codec.frame? sent.packet sent.body = .error e) : codec.sentBytes sent = [] := by
  rw [sentBytes, h]

theorem sentBytes_of_frame {sent : Incoming} {frame : Bytes}
    (h : codec.frame? sent.packet sent.body = .ok frame) : codec.sentBytes sent = frame := by
  rw [sentBytes, h]

/-- A frame has a header at least. -/
theorem frame_ne_nil {p : Packet} {body : p.Body} {frame : Bytes}
    (h : codec.frame? p body = .ok frame) : frame ≠ [] := by
  obtain ⟨content, -, -, rfl⟩ := frame?_eq_ok_iff.mp h
  refine List.ne_nil_of_length_pos ?_
  rw [length_frameBytes, PacketType.headerLength]
  split <;> omega

/-- A packet is written behind what the sink holds, whatever pool its buffer is from. -/
theorem writePacket_eq (h : sink.Holds stream) (codec : Codec) (pool : BufferPool)
    (sent : Incoming) : ∃ pool', codec.writePacket pool sink sent.packet sent.body =
      (codec.verdict sink.limit stream sent, pool',
        { sink with stored := ByteSink.upTo sink.limit (stream ++ codec.sentBytes sent) }) := by
  have hencode := codec.encode_eq pool sent.packet sent.body
  unfold writePacket verdict sentBytes
  rw [← hencode]
  rcases codec.encode pool sent.packet sent.body with ⟨e | buffer, pool'⟩
  · -- nothing is encoded, so nothing is written
    refine ⟨pool', ?_⟩
    dsimp only [Except.map]
    rw [List.append_nil, ← h.stored]
  · refine ⟨pool'.release buffer, ?_⟩
    dsimp only [Except.map]
    rw [ByteSink.writeAll_eq h]
    by_cases hwhole : ByteSink.upTo sink.limit (stream ++ buffer.bytes) =
        ByteSink.upTo sink.limit stream ++ buffer.bytes
    · rw [if_pos hwhole, if_pos hwhole]
      rfl
    · rw [if_neg hwhole, if_neg hwhole]

/-- The answers depend on the limit and on what was written, not on the pool and not on how many
bytes a write takes. -/
theorem writePackets_eq (h : sink.Holds stream) (codec : Codec) (sent : List Incoming)
    (pool : BufferPool) :
    (codec.writePackets sent pool sink).1 = codec.verdicts sink.limit stream sent ∧
      (codec.writePackets sent pool sink).2.2 =
        { sink with stored := ByteSink.upTo sink.limit (stream ++ codec.wire sent) } := by
  induction sent generalizing pool sink stream with
  | nil =>
    refine ⟨rfl, ?_⟩
    rw [wire_nil, List.append_nil, ← h.stored]
    rfl
  | cons call more ih =>
    obtain ⟨pool', hcall⟩ := writePacket_eq h codec pool call
    have hmore := ih (h.extend (codec.sentBytes call)) pool'
    rw [writePackets, hcall, wire_cons, ← List.append_assoc]
    exact ⟨congrArg _ hmore.1, hmore.2⟩

/-! ## Calls before and after others -/

section Verdicts

variable {limit : Option Nat} {sent before after : List Incoming} {call : Incoming}

theorem length_verdicts : (codec.verdicts limit stream sent).length = sent.length := by
  induction sent generalizing stream with
  | nil => rfl
  | cons call more ih => rw [verdicts, List.length_cons, List.length_cons, ih]

theorem verdicts_append : codec.verdicts limit stream (before ++ after) =
    codec.verdicts limit stream before ++
      codec.verdicts limit (stream ++ codec.wire before) after := by
  induction before generalizing stream with
  | nil =>
    rw [wire_nil, List.append_nil]
    rfl
  | cons call before ih =>
    rw [List.cons_append, verdicts, verdicts, ih, List.cons_append, wire_cons, List.append_assoc]

/-- A call succeeds with the length of the frame just if the whole frame went behind the stream. -/
theorem verdict_eq_ok_iff {n : Nat} : codec.verdict limit stream call = .ok n ↔
    ∃ frame, codec.frame? call.packet call.body = .ok frame ∧ n = frame.length ∧
      ByteSink.upTo limit (stream ++ frame) = ByteSink.upTo limit stream ++ frame := by
  unfold verdict
  cases codec.frame? call.packet call.body with
  | error e => simp
  | ok frame =>
    dsimp only
    split
    · next hwhole =>
      constructor
      · intro h
        cases h
        exact ⟨frame, rfl, rfl, hwhole⟩
      · rintro ⟨_, hframe, rfl, -⟩
        cases hframe
        rfl
    · next hpart =>
      constructor
      · intro h
        cases h
      · rintro ⟨_, hframe, -, hwhole⟩
        cases hframe
        exact absurd hwhole hpart

/-- A call fails by the sink only when it is full, and then the stream has reached the limit. -/
theorem limit_of_verdict {text : String} (h : codec.verdict limit stream call = .error (.io text)) :
    text = "sink full" ∧ ∃ bound, limit = some bound ∧
      bound ≤ (stream ++ codec.sentBytes call).length := by
  unfold verdict at h
  split at h
  · cases h
  · next frame hframe =>
    split at h
    · cases h
    · next hpart =>
      cases h
      rw [sentBytes_of_frame hframe]
      exact ⟨rfl, ByteSink.exists_limit hpart⟩

/-- Behind a stream that has reached the limit no packet that has a frame is written. -/
theorem verdict_of_full {bound : Nat} {frame : Bytes} (hfull : bound ≤ stream.length)
    (hframe : codec.frame? call.packet call.body = .ok frame) :
    codec.verdict (some bound) stream call = .error (.io "sink full") := by
  have hne := frame_ne_nil hframe
  rw [verdict, hframe]
  dsimp only
  refine if_neg fun hwhole => ?_
  have hle := ByteSink.length_le_of_upTo hwhole hne
  have hpos := List.length_pos_iff.mpr hne
  rw [List.length_append] at hle
  omega

theorem verdicts_of_full {bound k : Nat} {frame : Bytes} (hfull : bound ≤ stream.length)
    (hcall : after[k]? = some call) (hframe : codec.frame? call.packet call.body = .ok frame) :
    (codec.verdicts (some bound) stream after)[k]? = some (.error (.io "sink full")) := by
  induction after generalizing stream k with
  | nil => cases hcall
  | cons first after ih =>
    cases k with
    | zero =>
      cases hcall
      exact congrArg some (verdict_of_full hfull hframe)
    | succ k =>
      refine ih ?_ hcall
      rw [List.length_append]
      exact Nat.le_trans hfull (Nat.le_add_right _ _)

end Verdicts

/-! ## Any number of calls -/

/-- Packets written one after another, whatever pool their buffers are from, to a sink that takes
any number of bytes at a time and may have a limit. The sink holds the beginning of the frames of
those that have one. Each call answers the length of its frame just if all of it is stored; a
packet without a frame is as if it had not been written; and once a call fails by the sink, no
packet after it that has a frame is written, and nothing is stored any more. -/
theorem writePackets_stored (codec : Codec) (pool : BufferPool) {maxWrite : Option Nat}
    (hmax : maxWrite ≠ some 0) (limit : Option Nat) (sent : List Incoming) :
    let answers (sent : List Incoming) :=
      (codec.writePackets sent pool { maxWrite, limit }).1
    let stored (sent : List Incoming) :=
      (codec.writePackets sent pool { maxWrite, limit }).2.2.stored
    -- the frame of a packet is what is encoded of it, into whatever buffer
    (∀ (pool' : BufferPool) (p : Packet) (body : p.Body),
      (codec.encode pool' p body).1.map (·.bytes) = codec.frame? p body) ∧
    stored sent = ByteSink.upTo limit (codec.wire sent) ∧
    ∀ before call after, sent = before ++ call :: after → ∃ answer later,
      answers sent = answers before ++ answer :: later ∧
      (answers before).length = before.length ∧ later.length = after.length ∧
      (∀ n, answer = .ok n ↔ ∃ frame, codec.frame? call.packet call.body = .ok frame ∧
        n = frame.length ∧ stored (before ++ [call]) = stored before ++ frame) ∧
      (∀ e, codec.frame? call.packet call.body = .error e →
        answer = .error (.codec e) ∧ stored (before ++ [call]) = stored before ∧
        answers (before ++ after) = answers before ++ later ∧
        stored (before ++ after) = stored sent) ∧
      (∀ frame, codec.frame? call.packet call.body = .ok frame →
        stored (before ++ [call]) ≠ stored before ++ frame → answer = .error (.io "sink full")) ∧
      (∀ text, answer = .error (.io text) →
        text = "sink full" ∧ stored sent = stored (before ++ [call]) ∧
        ∀ (k : Nat) (other : Incoming) (frame : Bytes), after[k]? = some other →
          codec.frame? other.packet other.body = .ok frame →
          later[k]? = some (.error (.io "sink full"))) := by
  intro answers stored
  have hholds := ByteSink.holds_empty hmax limit
  have hanswers (sent : List Incoming) : answers sent = codec.verdicts limit [] sent :=
    (writePackets_eq hholds codec sent pool).1
  have hstored (sent : List Incoming) : stored sent = ByteSink.upTo limit (codec.wire sent) :=
    congrArg ByteSink.stored (writePackets_eq hholds codec sent pool).2
  refine ⟨fun pool' p body => codec.encode_eq pool' p body, hstored sent, ?_⟩
  rintro before call after rfl
  have hcall : codec.wire (before ++ [call]) = codec.wire before ++ codec.sentBytes call := by
    rw [wire_append, wire_cons, wire_nil, List.append_nil]
  have hall : codec.wire (before ++ call :: after) =
      codec.wire (before ++ [call]) ++ codec.wire after := by
    rw [hcall, wire_append, wire_cons, List.append_assoc]
  refine ⟨codec.verdict limit (codec.wire before) call,
    codec.verdicts limit (codec.wire (before ++ [call])) after, ?_, ?_, length_verdicts,
    fun n => ?_, fun e he => ?_, fun frame hframe hpart => ?_, fun text htext => ?_⟩
  · rw [hanswers, hanswers, verdicts_append, verdicts, hcall]
    rfl
  · rw [hanswers, length_verdicts]
  · rw [verdict_eq_ok_iff, hstored, hstored, hcall]
    refine exists_congr fun frame => and_congr_right fun hframe => ?_
    rw [sentBytes_of_frame hframe]
  · have hnone := sentBytes_of_error he
    rw [hnone, List.append_nil] at hcall
    refine ⟨by rw [verdict, he], by rw [hstored, hstored, hcall], ?_, ?_⟩
    · rw [hanswers, hanswers, verdicts_append, hcall]
      rfl
    · rw [hstored, hstored, hall, hcall, wire_append]
  · rw [hstored, hstored, hcall, sentBytes_of_frame hframe] at hpart
    rw [verdict, hframe]
    exact if_neg hpart
  · obtain ⟨rfl, bound, rfl, hfull⟩ := limit_of_verdict htext
    rw [← hcall] at hfull
    refine ⟨rfl, ?_, fun k other frame hother hframe => verdicts_of_full hfull hother hframe⟩
    rw [hstored, hstored, hall, ByteSink.upTo_of_le hfull]

/-- Four packets to a sink that takes three bytes at a time and holds 20: the second one has no
frame, the third one is cut off, and the fourth one stores nothing. -/
theorem writePackets_stored_four :
    let ack : Incoming := ⟨.ackResponse, .success ()⟩
    let bad : Incoming := ⟨.ackResponse, ⟨.success, none, none⟩⟩
    let full : Incoming := ⟨.postMessageResponse, .failure .roomFull⟩
    let after (sent : List Incoming) := standard.writePackets sent standard.freshPool
      { maxWrite := some 3, limit := some 20 }
    some 3 ≠ some 0 ∧
      (after [ack, bad, full, ack]).2.2.stored =
        [67, 87, 1, 0, 0, 1, 0, 1, 0, 0, 0, 0, 67, 87, 32, 0, 0, 1, 11, 1] ∧
      (after [ack, bad, full, ack]).1[2]? = some (.error (.io "sink full")) ∧
      (after [ack, bad, full, ack]).2.2.stored = (after [ack, bad, full]).2.2.stored := by
  intro ack bad full after
  have hmax : some 3 ≠ some 0 := by decide
  have hstored (sent : List Incoming) :
      (after sent).2.2.stored = ByteSink.upTo (some 20) (standard.wire sent) :=
    (writePackets_stored standard standard.freshPool hmax (some 20) sent).2.1
  obtain ⟨-, -, hcalls⟩ := writePackets_stored standard standard.freshPool hmax (some 20)
    [ack, bad, full, ack]
  obtain ⟨answer, later, hanswers, hbefore, -, -, -, hcut, hfull⟩ :=
    hcalls [ack, bad] full [ack] rfl
  have hframe : standard.frame? .postMessageResponse (.failure .roomFull) =
      .ok [67, 87, 32, 0, 0, 1, 11, 1, 0, 0, 0, 11] := rfl
  -- eight of the twelve bytes of the third frame are stored
  have hpart : (after [ack, bad, full]).2.2.stored ≠
      (after [ack, bad]).2.2.stored ++ [67, 87, 32, 0, 0, 1, 11, 1, 0, 0, 0, 11] := by
    rw [hstored, hstored]
    decide
  have hanswer := hcut _ hframe hpart
  change (after [ack, bad, full, ack]).1 = (after [ack, bad]).1 ++ answer :: later at hanswers
  change (after [ack, bad]).1.length = 2 at hbefore
  refine ⟨hmax, (hstored _).trans (by decide), ?_, (hfull _ hanswer).2.1⟩
  rw [hanswers, hanswer, List.getElem?_append_right (Nat.le_of_eq hbefore), hbefore]
  rfl

end Codec

end ChatCodec
