import ChatCodec.Proofs.Framing.Shortage
import ChatCodec.Proofs.Streams.Script

/-!
# How much a receiver holds

A peer cannot make a receiver hold bytes without bound. The deframer waits for one frame at a time,
whose declared size is checked as soon as it is there, and what it holds while it waits is less than
that frame. A read then adds a chunk of a fixed size at most.

* `Deframer.buffered_le_of_wait` — the bytes held while waiting;
* `FrameStream.Bounded` — the bytes held by a stream, between any two reads.

A read and a stop keep the bound (`Bounded.reads`, `Bounded.stops`), and so do any calls
(`Bounded.play`). Main result: `FrameStream.bounded_of_play`.
-/

namespace ChatCodec

open Read

/-! ## Waiting for a frame -/

theorem PacketType.headerLength_le (packetType : PacketType) : packetType.headerLength ≤ 11 := by
  unfold headerLength
  split <;> decide

/-- A header that is not complete lacks a byte of the longest one at least. -/
theorem Header.Unfinished.length_le {signature : UInt16} {src : Bytes}
    (h : Unfinished signature src) : src.length ≤ 10 := by
  cases h with
  | signature hlt => omega
  | packetType hlt =>
    rw [List.length_append, Primitive.length_encode, Primitive.size]
    omega
  | @contentSize packetType rest hlt =>
    have hle := packetType.headerLength_le
    rw [List.length_append, List.length_append, Primitive.length_encode, Primitive.length_encode,
      Primitive.size, Primitive.size]
    omega

namespace Deframer

variable {d : Deframer}

/-- A deframer that waits holds less than the longest frame. -/
theorem buffered_le_of_wait (h : d.next.1 = .ok none) : d.buffered ≤ 10 + d.limit := by
  rw [buffered_eq_length]
  cases hheader : run (Header.read d.signature d.limit) d.bytes with
  | error e =>
    -- waiting on an error, the deframer lacks a part of the header
    have hshort : IsShort (run (Header.read d.signature d.limit) d.bytes) := by
      rw [hheader, isShort_error]
      rw [next_of_error hheader] at h
      cases he : e.isInsufficientData with
      | true => rfl
      | false =>
        rw [he] at h
        cases h
    have hle := (Header.isShort_read.mp hshort).length_le
    omega
  | ok answer =>
    -- the header was accepted, so the frame it is waiting for is within the limit
    obtain ⟨header, n⟩ := answer
    obtain ⟨hwell, -, -⟩ := Header.eq_of_run_read hheader
    have hlength := header.packetType.headerLength_le
    have hlimit := hwell.contentLength_le
    rcases Nat.lt_or_ge d.bytes.length header.frameLength with hlt | hle
    · rw [Header.frameLength, Header.length] at hlt
      omega
    · obtain ⟨content, buffer, hnext, -, -⟩ := next_of_frame hheader hle
      rw [hnext] at h
      cases h

/-- The bound is reached by a header with an error code and all but the last byte of the largest
content. -/
example : (Deframer.push { signature := 22339, limit := 2 }
      [67, 87, 1, 0, 0, 1, 0, 2, 0, 0, 0, 5]).next.1 = .ok none ∧
    (Deframer.push { signature := 22339, limit := 2 }
      [67, 87, 1, 0, 0, 1, 0, 2, 0, 0, 0, 5]).buffered = 10 + 2 :=
  ⟨rfl, rfl⟩

/-- A request keeps the limit and adds nothing to what is held. -/
theorem buffered_next_le (d : Deframer) :
    d.next.2.limit = d.limit ∧ d.next.2.buffered ≤ d.buffered := by
  rcases d.next_cases with ⟨e, hnext, -, -⟩ | hnext | ⟨frame, buffer, hnext, -, hbytes⟩ <;>
    rw [hnext]
  · exact ⟨rfl, Nat.le_refl _⟩
  · exact ⟨rfl, Nat.le_refl _⟩
  · refine ⟨rfl, ?_⟩
    rw [buffered_eq_length, buffered_eq_length, hbytes, List.length_append]
    exact Nat.le_add_left _ _

end Deframer

namespace FrameStream

variable {s t s' : FrameStream} {config : Config} {chunks : List Bytes} {readSize : Nat}
variable {answer : Except StreamError (Option Frame)}

/-! ## Calls -/

/-- The stream holds no more than a deframer may that waits, and one chunk. -/
structure Bounded (s : FrameStream) (limit readSize : Nat) : Prop where
  limit_eq : s.deframer.limit = limit
  readSize_eq : s.readSize = readSize
  buffered_le : s.deframer.buffered ≤ 10 + limit + readSize

theorem bounded_ofConfig (config : Config) (source : ByteSource) :
    (ofConfig config source).Bounded config.maxContentSize (max config.readChunkSize 1) where
  limit_eq := rfl
  readSize_eq := rfl
  buffered_le := Nat.zero_le _

section Bounded

variable {limit : Nat}

theorem Bounded.wait (h : s.Bounded limit readSize) (hwait : s.deframer.next.1 = .ok none) :
    s.deframer.buffered ≤ 10 + limit :=
  h.limit_eq ▸ Deframer.buffered_le_of_wait hwait

/-- Each chunk is added to what a deframer holds that waits. -/
theorem Bounded.reads (h : s.Bounded limit readSize) (hreads : Reads s chunks t) :
    t.Bounded limit readSize := by
  induction hreads with
  | nil => exact h
  | @cons s t source chunk chunks hwait hread _ _ ih =>
    -- the deframer waited before the read, whatever was read before
    refine ih ⟨h.limit_eq, h.readSize_eq, ?_⟩
    have hheld := h.wait hwait
    have hchunk := ByteSource.length_le_of_read hread
    rw [h.readSize_eq] at hchunk
    rw [Deframer.buffered_eq_length] at hheld ⊢
    rw [Deframer.bytes_push, List.length_append]
    omega

/-- A stop may take a frame off, and adds nothing. -/
theorem Bounded.stops (h : s.Bounded limit readSize) (hstops : Stops s answer s') :
    s'.Bounded limit readSize := by
  cases hstops with
  | @frame frame deframer hnext =>
    obtain rfl : s.deframer.next.2 = deframer := congrArg Prod.snd hnext
    obtain ⟨hlimit, hheld⟩ := s.deframer.buffered_next_le
    exact ⟨hlimit.trans h.limit_eq, h.readSize_eq, Nat.le_trans hheld h.buffered_le⟩
  | header => exact h
  | failure | clean | inside => exact ⟨h.limit_eq, h.readSize_eq, h.buffered_le⟩

theorem Bounded.next (h : s.Bounded limit readSize) : s.next.2.Bounded limit readSize := by
  obtain ⟨chunks, t, hreads, hstops⟩ := s.exists_reads
  exact (h.reads hreads).stops hstops

theorem Bounded.play (h : s.Bounded limit readSize) (calls : Nat) :
    (play calls s).2.Bounded limit readSize := by
  induction calls generalizing s with
  | zero => exact h
  | succ calls ih => exact ih h.next

end Bounded

/-- A configuration that is accepted never asks for chunks of no bytes. -/
theorem readChunkSize_pos (hvalid : config.fault? = none) : 0 < config.readChunkSize := by
  apply Nat.pos_of_ne_zero
  intro hzero
  unfold Config.fault? at hvalid
  rw [if_pos hzero] at hvalid
  repeat' split at hvalid
  all_goals cases hvalid

/-- Whatever a source delivers, and however often a frame is asked for, a stream never holds more
than ten bytes, the largest content and one chunk, between any two of the reads of a call; and when
it reads, it holds no more than ten bytes and the largest content. A chunk has the size in the
configuration, or one byte where that is zero, which no accepted configuration says. -/
theorem bounded_of_play (config : Config) (source : ByteSource) (calls : Nat) :
    let stream := (play calls (ofConfig config source)).2
    (∃ chunks t, Reads stream chunks t ∧ Stops t stream.next.1 stream.next.2) ∧
    (∀ chunks t, Reads stream chunks t →
      t.deframer.buffered ≤ 10 + config.maxContentSize + stream.readSize ∧
      (t.deframer.next.1 = .ok none → t.deframer.buffered ≤ 10 + config.maxContentSize)) ∧
    stream.readSize = max config.readChunkSize 1 ∧
    (config.fault? = none → stream.readSize = config.readChunkSize) := by
  intro stream
  have hbounded := (bounded_ofConfig config source).play calls
  have hsize : stream.readSize = max config.readChunkSize 1 := hbounded.readSize_eq
  refine ⟨stream.exists_reads, fun chunks t hreads => ?_, hsize, fun hvalid => ?_⟩
  · have hreached := hbounded.reads hreads
    exact ⟨hsize ▸ hreached.buffered_le, hreached.wait⟩
  · rw [hsize]
    exact Nat.max_eq_left (readChunkSize_pos hvalid)

end FrameStream

end ChatCodec
