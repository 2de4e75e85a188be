import ChatCodec.Proofs.Framing.Accounts
import ChatCodec.Stream

/-!
# A call that reads from a source

A call for the next frame reads chunks from its source, each because the deframer waits, and then it
stops in one of five ways.

* `FrameStream.Reads` — some chunks are read, each while the deframer waits;
* `FrameStream.Stops` — a call stops without reading more;
* `ByteSource.only` — a source without some of its events, data apart.

Main results: `FrameStream.exists_reads`, by which every call is chunks read and then a stop, and
its converse (`Reads.next_eq`, `Stops.next_eq`); and that events without data make no difference to
either (`Reads.only`, `Stops.only`), nor to calls (`next_ready`, `next_data_of_failure`).
-/

namespace ChatCodec

/-! ## Sources -/

namespace SourceEvent

/-- The event hands out data, be it of no bytes. -/
def isData : SourceEvent → Bool
  | data _ => true
  | failure _ => false
  | notReady => false

/-- The source is ready. -/
def isReady : SourceEvent → Bool
  | data _ => true
  | failure _ => true
  | notReady => false

end SourceEvent

namespace ByteSource

variable {limit : Nat} {source rest : ByteSource} {chunk : Bytes} {text : String}

/-- The source with those of its events that are kept. -/
def only (keep : SourceEvent → Bool) (source : ByteSource) : ByteSource :=
  { source with events := source.events.filter keep }

/-- A read brings as many bytes as were asked for at most. -/
theorem length_le_of_read (h : source.read limit = (.ok chunk, rest)) :
    chunk.length ≤ limit := by
  obtain ⟨current, events⟩ := source
  unfold read at h
  fun_induction readFrom limit current events with
  | case1 | case3 =>
    cases h
    exact List.length_take_le _ _
  | case2 =>
    cases h
    exact Nat.zero_le _
  | case4 => cases h
  | case5 events ih => exact ih h

/-- A failure takes no data. -/
theorem unread_of_error (h : source.read limit = (.error text, rest)) :
    rest.unread = source.unread := by
  obtain ⟨current, events⟩ := source
  unfold read at h
  fun_induction readFrom limit current events with
  | case1 | case2 | case3 => cases h
  | case4 => cases h; rfl
  | case5 events ih => rw [ih h]; rfl

/-- A read that brings no bytes met the end of the events or data of no bytes. -/
theorem of_read_nil (hlimit : 0 < limit) (h : source.read limit = (.ok [], rest)) :
    rest.current = [] ∧
      (rest.events = [] ∨ ∃ before, source.events = before ++ .data [] :: rest.events) := by
  obtain ⟨current, events⟩ := source
  unfold read at h
  fun_induction readFrom limit current events with
  | case1 b bytes events =>
    -- there are data at hand, and some of them are handed out
    obtain ⟨n, rfl⟩ := Nat.exists_eq_succ_of_ne_zero (Nat.ne_of_gt hlimit)
    cases h
  | case2 => cases h; exact ⟨rfl, .inl rfl⟩
  | case3 bytes events =>
    obtain ⟨n, rfl⟩ := Nat.exists_eq_succ_of_ne_zero (Nat.ne_of_gt hlimit)
    cases bytes with
    | nil => cases h; exact ⟨rfl, .inr ⟨[], rfl⟩⟩
    | cons b bytes => cases h
  | case4 => cases h
  | case5 events ih =>
    obtain ⟨hcurrent, hrest | ⟨before, hevents⟩⟩ := ih h
    · exact ⟨hcurrent, .inl hrest⟩
    · exact ⟨hcurrent, .inr ⟨.notReady :: before, congrArg (_ :: ·) hevents⟩⟩

/-- A read that fails came to a failure. -/
theorem of_read_error (h : source.read limit = (.error text, rest)) :
    ∃ before, source.events = before ++ .failure text :: rest.events := by
  obtain ⟨current, events⟩ := source
  unfold read at h
  fun_induction readFrom limit current events with
  | case1 | case2 | case3 => cases h
  | case4 => cases h; exact ⟨[], rfl⟩
  | case5 events ih =>
    obtain ⟨before, hevents⟩ := ih h
    exact ⟨.notReady :: before, congrArg (_ :: ·) hevents⟩

/-- A read takes events off the front. -/
theorem events_read (source : ByteSource) (limit : Nat) :
    (source.read limit).2.events <:+ source.events := by
  obtain ⟨current, events⟩ := source
  unfold read
  fun_induction readFrom limit current events with
  | case1 | case2 => exact List.suffix_refl _
  | case3 | case4 => exact List.suffix_cons _ _
  | case5 events ih => exact ih.trans (List.suffix_cons _ _)

section Only

variable {keep : SourceEvent → Bool} (hdata : ∀ bytes, keep (.data bytes) = true)
include hdata

/-- Events without data may be left out before a read that brings data. -/
theorem read_only_of_ok (h : source.read limit = (.ok chunk, rest)) :
    (source.only keep).read limit = (.ok chunk, rest.only keep) := by
  obtain ⟨current, events⟩ := source
  unfold read at h
  fun_induction readFrom limit current events with
  | case1 =>
    cases h
    rw [only, read, readFrom, only]
  | case2 => cases h; rfl
  | case3 bytes events =>
    cases h
    simp only [only, read, List.filter_cons, hdata]
    rfl
  | case4 => cases h
  | case5 events ih =>
    -- if the pause is kept, the read passes over it
    have hrest := ih h
    simp only [only, read, List.filter_cons] at hrest ⊢
    cases keep .notReady <;> exact hrest

end Only

/-- Pauses may be left out before a failure. -/
theorem read_ready_of_error (h : source.read limit = (.error text, rest)) :
    (source.only SourceEvent.isReady).read limit =
      (.error text, rest.only SourceEvent.isReady) := by
  obtain ⟨current, events⟩ := source
  unfold read at h
  fun_induction readFrom limit current events with
  | case1 | case2 | case3 => cases h
  | case4 => cases h; rfl
  | case5 events ih => exact ih h

/-- A failure makes no difference to the data that are left. -/
theorem only_data_of_error (h : source.read limit = (.error text, rest)) :
    rest.only SourceEvent.isData = source.only SourceEvent.isData := by
  obtain ⟨current, events⟩ := source
  unfold read at h
  fun_induction readFrom limit current events with
  | case1 | case2 | case3 => cases h
  | case4 => cases h; rfl
  | case5 events ih => exact ih h

end ByteSource

/-! ## Calls -/

namespace FrameStream

variable {s t s' : FrameStream} {chunks : List Bytes}
variable {answer : Except StreamError (Option Frame)}

/-- The bytes that are read and not yet returned in a frame. -/
def buffered (s : FrameStream) : Bytes :=
  s.deframer.bytes

/-- The stream over a source without some of its events. -/
def only (keep : SourceEvent → Bool) (s : FrameStream) : FrameStream :=
  { s with source := s.source.only keep }

/-- Chunks are read one after another, each while the deframer waits for more. -/
inductive Reads : FrameStream → List Bytes → FrameStream → Prop
  | nil {s : FrameStream} : Reads s [] s
  | cons {s t : FrameStream} {source : ByteSource} {chunk : Bytes} {chunks : List Bytes}
      (hwait : s.deframer.next.1 = .ok none)
      (hread : s.source.read s.readSize = (.ok chunk, source)) (hne : chunk ≠ [])
      (hmore : Reads { s with source, deframer := s.deframer.push chunk } chunks t) :
      Reads s (chunk :: chunks) t

/-- A call stops: the deframer has a frame or an error, or a read brings no bytes. -/
inductive Stops (s : FrameStream) : Except StreamError (Option Frame) → FrameStream → Prop
  | frame {frame : Frame} {deframer : Deframer}
      (hnext : s.deframer.next = (.ok (some frame), deframer)) :
      Stops s (.ok (some frame)) { s with deframer }
  | header {e : CodecError} (hnext : s.deframer.next = (.error e, s.deframer)) :
      Stops s (.error (.codec e)) s
  | failure {text : String} {source : ByteSource} (hwait : s.deframer.next.1 = .ok none)
      (hread : s.source.read s.readSize = (.error text, source)) :
      Stops s (.error (.io text)) { s with source }
  | clean {source : ByteSource} (hwait : s.deframer.next.1 = .ok none)
      (hread : s.source.read s.readSize = (.ok [], source)) (hempty : s.buffered = []) :
      Stops s (.ok none) { s with source }
  | inside {source : ByteSource} (hwait : s.deframer.next.1 = .ok none)
      (hread : s.source.read s.readSize = (.ok [], source)) (hne : s.buffered ≠ []) :
      Stops s (.error (.unexpectedEnd s.buffered.length)) { s with source }

/-! ### What a call does -/

theorem next_of_wait (hwait : s.deframer.next.1 = .ok none) : s.next =
    match s.source.read s.readSize with
    | (.error text, source) => (.error (.io text), { s with source })
    | (.ok [], source) =>
      (if s.deframer.isEmpty then .ok none else .error (.unexpectedEnd s.deframer.buffered),
        { s with source })
    | (.ok (b :: chunk), source) =>
      next { s with source, deframer := s.deframer.push (b :: chunk) } := by
  have hnext : s.deframer.next = (.ok none, s.deframer) :=
    Prod.ext hwait (Deframer.next_of_none hwait)
  rw [next, hnext]
  dsimp only
  split <;> simp_all

/-- Every call reads some chunks and then stops. -/
theorem exists_reads (s : FrameStream) :
    ∃ chunks t, Reads s chunks t ∧ Stops t s.next.1 s.next.2 := by
  fun_induction next s with
  | case1 s e deframer hnext =>
    obtain rfl : deframer = s.deframer := by
      have hsame := (Deframer.next_of_header_error (congrArg Prod.fst hnext)).1
      rwa [hnext] at hsame
    exact ⟨[], s, .nil, .header hnext⟩
  | case2 s frame deframer hnext => exact ⟨[], s, .nil, .frame hnext⟩
  | case3 s deframer hnext text source hread =>
    have hwait : s.deframer.next.1 = .ok none := congrArg Prod.fst hnext
    obtain rfl : deframer = s.deframer :=
      (congrArg Prod.snd hnext).symm.trans (Deframer.next_of_none hwait)
    exact ⟨[], s, .nil, .failure hwait hread⟩
  | case4 s deframer hnext source hread =>
    have hwait : s.deframer.next.1 = .ok none := congrArg Prod.fst hnext
    obtain rfl : deframer = s.deframer :=
      (congrArg Prod.snd hnext).symm.trans (Deframer.next_of_none hwait)
    refine ⟨[], s, .nil, ?_⟩
    dsimp only
    split
    · next hempty => exact .clean hwait hread ((Deframer.isEmpty_iff _).mp hempty)
    · next hempty =>
        rw [Deframer.buffered_eq_length]
        exact .inside hwait hread (mt (Deframer.isEmpty_iff _).mpr hempty)
  | case5 s deframer hnext b chunk source hread ih =>
    have hwait : s.deframer.next.1 = .ok none := congrArg Prod.fst hnext
    obtain rfl : deframer = s.deframer :=
      (congrArg Prod.snd hnext).symm.trans (Deframer.next_of_none hwait)
    obtain ⟨chunks, t, hmore, hstops⟩ := ih
    exact ⟨(b :: chunk) :: chunks, t, .cons hwait hread (List.cons_ne_nil _ _) hmore, hstops⟩

/-- After the chunks it read, a call goes on as one that begins there. -/
theorem Reads.next_eq (h : Reads s chunks t) : s.next = t.next := by
  induction h with
  | nil => rfl
  | @cons s t source chunk chunks hwait hread hne _ ih =>
    obtain ⟨b, chunk, rfl⟩ := List.exists_cons_of_ne_nil hne
    rw [next_of_wait hwait, hread]
    exact ih

theorem Stops.next_eq (h : Stops s answer s') : s.next = (answer, s') := by
  cases h with
  | frame hnext | header hnext => rw [next, hnext]
  | failure hwait hread => rw [next_of_wait hwait, hread]
  | clean hwait hread hempty =>
    rw [next_of_wait hwait, hread, if_pos ((Deframer.isEmpty_iff _).mpr hempty)]
  | inside hwait hread hne =>
    rw [next_of_wait hwait, hread, if_neg (mt (Deframer.isEmpty_iff _).mp hne),
      Deframer.buffered_eq_length]
    rfl

/-! ### Events without data -/

section Only

variable {keep : SourceEvent → Bool} (hdata : ∀ bytes, keep (.data bytes) = true)
include hdata

theorem Reads.only (h : Reads s chunks t) : Reads (s.only keep) chunks (t.only keep) := by
  induction h with
  | nil => exact .nil
  | cons hwait hread hne _ ih =>
    exact .cons hwait (ByteSource.read_only_of_ok hdata hread) hne ih

theorem Stops.only (h : Stops s answer s') (hio : ∀ text, answer ≠ .error (.io text)) :
    Stops (s.only keep) answer (s'.only keep) := by
  cases h with
  | frame hnext => exact .frame hnext
  | header hnext => exact .header hnext
  | failure => exact absurd rfl (hio _)
  | clean hwait hread hempty => exact .clean hwait (ByteSource.read_only_of_ok hdata hread) hempty
  | inside hwait hread hne => exact .inside hwait (ByteSource.read_only_of_ok hdata hread) hne

end Only

/-- Without its pauses a source makes a call answer the same, and leaves the same but for them. -/
theorem next_ready (s : FrameStream) : (s.only SourceEvent.isReady).next =
    (s.next.1, s.next.2.only SourceEvent.isReady) := by
  obtain ⟨chunks, t, hreads, hstops⟩ := s.exists_reads
  rw [(hreads.only fun _ => rfl).next_eq]
  refine Stops.next_eq ?_
  by_cases hio : ∃ text, s.next.1 = .error (.io text)
  · obtain ⟨text, hanswer⟩ := hio
    generalize s.next.2 = s' at hstops ⊢
    rw [hanswer] at hstops ⊢
    cases hstops with
    | failure hwait hread => exact .failure hwait (ByteSource.read_ready_of_error hread)
  · exact hstops.only (fun _ => rfl) fun text hanswer => hio ⟨text, hanswer⟩

/-- On the data of a source alone, a call answers the same unless it failed. -/
theorem next_data_of_ne (hio : ∀ text, s.next.1 ≠ .error (.io text)) :
    (s.only SourceEvent.isData).next = (s.next.1, s.next.2.only SourceEvent.isData) := by
  obtain ⟨chunks, t, hreads, hstops⟩ := s.exists_reads
  rw [(hreads.only fun _ => rfl).next_eq]
  exact (hstops.only (fun _ => rfl) hio).next_eq

/-- After a failure, the next call does what the one that failed would have done without it. -/
theorem next_data_of_failure {text : String} (hio : s.next.1 = .error (.io text)) :
    (s.only SourceEvent.isData).next = (s.next.2.only SourceEvent.isData).next := by
  obtain ⟨chunks, t, hreads, hstops⟩ := s.exists_reads
  rw [(hreads.only fun _ => rfl).next_eq]
  generalize s.next.2 = s' at hstops
  rw [hio] at hstops
  cases hstops with
  | failure hwait hread =>
    rw [only, only, ← ByteSource.only_data_of_error hread]

end FrameStream

end ChatCodec
