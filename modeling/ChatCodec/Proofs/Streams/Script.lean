import ChatCodec.Proofs.Streams.Calls

/-!
# Frames from any source

A stream of frames over a source that follows a script: data in chunks of any size, failures, and
pauses. However often a frame is asked for, also after errors, the data of the script are accounted
for: they are the frames returned, the bytes buffered and the data not taken yet.

* `FrameStream.play` — so many calls and their answers;
* `FrameStream.Accounts` — the stream and the frames returned account for the script;
* `FrameStream.Orderly` — the next call ends, fails and reads only when it may.

Chunks read and stops keep the account (`Accounts.reads`, `Accounts.stops`), and so do any calls
(`Accounts.play`). Main result: `play_script`. An end of the data is answered at a chunk of no bytes
as well, which no reader can tell from the end (`next_of_empty_chunk`).
-/

namespace ChatCodec

/-- From the bytes of whole frames, requests take the frames one after another. -/
theorem Deframer.parts_prefix {d : Deframer} {returned : List Frame} {rest : Bytes}
    {requests : Nat} (hbytes : d.bytes = returned.flatMap (·.bytes d.signature) ++ rest)
    (hwhole : ∀ frame ∈ returned, frame.Whole d.limit) (hle : returned.length ≤ requests) :
    returned.map Frame.parts <+:
      (frames (play (List.replicate requests .next) d).1).map Frame.parts := by
  induction returned generalizing d requests with
  | nil => exact List.nil_prefix
  | cons frame returned ih =>
    obtain ⟨requests, rfl⟩ := Nat.exists_eq_succ_of_ne_zero (Nat.ne_of_gt (Nat.lt_of_lt_of_le
      (Nat.succ_pos _) hle))
    have hframe := hwhole frame List.mem_cons_self
    rw [List.flatMap_cons, List.append_assoc] at hbytes
    obtain ⟨segments, buffer, hnext, hsegments, hbuffer⟩ :=
      next_of_whole hframe.header hframe.length_content hbytes
    have hmore := ih (d := { d with buffer }) hbuffer
      (fun other hmem => hwhole other (List.mem_cons_of_mem _ hmem)) (Nat.le_of_succ_le_succ hle)
    have hparts : Frame.parts ⟨frame.header, segments⟩ = frame.parts := by
      rw [Frame.parts, hsegments, Frame.parts]
    rw [List.replicate_succ, play, hnext]
    show frame.parts :: returned.map Frame.parts <+: Frame.parts ⟨frame.header, segments⟩ ::
      (frames (play (List.replicate requests .next) { d with buffer }).1).map Frame.parts
    rw [hparts]
    exact (List.prefix_cons_inj _).mpr hmore

/-- The source came to the end of a script, or to data of no bytes in it. -/
def ByteSource.Ended (source : ByteSource) (script : List SourceEvent) : Prop :=
  source.current = [] ∧
    (source.events = [] ∨ ∃ before, script = before ++ .data [] :: source.events)

namespace FrameStream

variable {s t s' : FrameStream} {chunks : List Bytes} {returned : List Frame} {config : Config}
variable {script : List SourceEvent} {answer : Except StreamError (Option Frame)}

/-! ## Calls one after another -/

/-- The frames among some answers. -/
def frames (answers : List (Except StreamError (Option Frame))) : List Frame :=
  answers.filterMap fun
    | .ok frame => frame
    | .error _ => none

/-- The answer is a failure of the source. -/
def isFailure : Except StreamError (Option Frame) → Bool
  | .error (.io _) => true
  | _ => false

/-- So many calls: their answers in order, and the stream after them. -/
def play : Nat → FrameStream → List (Except StreamError (Option Frame)) × FrameStream
  | 0, s => ([], s)
  | calls + 1, s => (s.next.1 :: (play calls s.next.2).1, (play calls s.next.2).2)

theorem play_congr (h : s.next = t.next) (calls : Nat) : (play calls s).1 = (play calls t).1 := by
  cases calls with
  | zero => rfl
  | succ calls => rw [play, play, h]

/-! ## What is accounted for -/

/-- The stream and the frames returned account for the script: no byte is lost or repeated, and
every frame is whole. -/
structure Accounts (s : FrameStream) (returned : List Frame) (config : Config)
    (script : List SourceEvent) : Prop where
  signature_eq : s.deframer.signature = config.signature
  limit_eq : s.deframer.limit = config.maxContentSize
  readSize_pos : 0 < s.readSize
  events : s.source.events <:+ script
  data : returned.flatMap (·.bytes config.signature) ++ (s.buffered ++ s.source.unread) =
    script.flatMap ByteSource.eventBytes
  whole : ∀ frame ∈ returned, frame.Whole config.maxContentSize

theorem accounts_ofConfig (config : Config) (script : List SourceEvent) :
    (ofConfig config { events := script }).Accounts [] config script where
  signature_eq := rfl
  limit_eq := rfl
  readSize_pos := Nat.lt_of_lt_of_le Nat.zero_lt_one (Nat.le_max_right _ _)
  events := List.suffix_refl _
  data := rfl
  whole _ hmem := by cases hmem

/-- A chunk goes over from the source to the deframer. -/
theorem Accounts.reads (h : s.Accounts returned config script) (hreads : Reads s chunks t) :
    t.Accounts returned config script := by
  induction hreads with
  | nil => exact h
  | @cons s t source chunk chunks _ hread _ _ ih =>
    have hevents := s.source.events_read s.readSize
    rw [hread] at hevents
    refine ih ⟨h.signature_eq, h.limit_eq, h.readSize_pos, hevents.trans h.events, ?_, h.whole⟩
    rw [← h.data, buffered, buffered, Deframer.bytes_push, List.append_assoc,
      ByteSource.read_unread hread]

/-- Events without data may go from the source. -/
theorem Accounts.pass (h : s.Accounts returned config script) {source : ByteSource}
    (hunread : source.unread = s.source.unread) (hevents : source.events <:+ s.source.events) :
    ({ s with source } : FrameStream).Accounts (returned ++ []) config script where
  signature_eq := h.signature_eq
  limit_eq := h.limit_eq
  readSize_pos := h.readSize_pos
  events := hevents.trans h.events
  data := by
    rw [List.append_nil, ← h.data, ← hunread]
    rfl
  whole := by
    rw [List.append_nil]
    exact h.whole

/-- A frame goes over from the deframer to the frames returned; nothing else moves. -/
theorem Accounts.stops (h : s.Accounts returned config script) (hstops : Stops s answer s') :
    s'.Accounts (returned ++ frames [answer]) config script := by
  cases hstops with
  | @frame frame deframer hnext =>
    rcases s.deframer.next_cases with ⟨e, hcase, -⟩ | hcase |
      ⟨frame', buffer, hcase, hframe, hbytes⟩
    · rw [hcase] at hnext
      cases hnext
    · rw [hcase] at hnext
      cases hnext
    · rw [hcase] at hnext
      cases hnext
      refine ⟨h.signature_eq, h.limit_eq, h.readSize_pos, h.events, ?_, fun other hmem => ?_⟩
      · rw [← h.data]
        show (returned ++ [frame]).flatMap _ ++ (buffer.toBytes ++ s.source.unread) =
          returned.flatMap _ ++ (s.deframer.bytes ++ s.source.unread)
        rw [hbytes, h.signature_eq, List.flatMap_append, List.flatMap_singleton, List.append_assoc,
          List.append_assoc]
      · rcases List.mem_append.mp hmem with hmem | hmem
        · exact h.whole other hmem
        · obtain rfl : other = frame := by simpa [frames] using hmem
          exact h.limit_eq ▸ hframe
  | header hnext => exact h.pass rfl (List.suffix_refl _)
  | failure hwait hread =>
    have hevents := s.source.events_read s.readSize
    rw [hread] at hevents
    exact h.pass (ByteSource.unread_of_error hread) hevents
  | clean hwait hread | inside hwait hread =>
    have hevents := s.source.events_read s.readSize
    rw [hread] at hevents
    exact h.pass (ByteSource.read_unread hread) hevents

theorem Accounts.next (h : s.Accounts returned config script) :
    s.next.2.Accounts (returned ++ frames [s.next.1]) config script := by
  obtain ⟨chunks, t, hreads, hstops⟩ := s.exists_reads
  exact (h.reads hreads).stops hstops

theorem Accounts.play (h : s.Accounts returned config script) (calls : Nat) :
    (play calls s).2.Accounts (returned ++ frames (play calls s).1) config script := by
  induction calls generalizing s returned with
  | zero =>
    rw [FrameStream.play, frames, List.filterMap_nil, List.append_nil]
    exact h
  | succ calls ih =>
    have hmore := ih h.next
    rw [List.append_assoc, frames, frames, ← List.filterMap_append] at hmore
    exact hmore

/-! ## When a call ends, fails and reads -/

/-- What the next call may do. -/
structure Orderly (s : FrameStream) (script : List SourceEvent) : Prop where
  /-- There is no frame only where the data end between frames. -/
  ended : s.next.1 = .ok none → s.next.2.buffered = [] ∧ s.next.2.source.Ended script
  /-- The stream ends inside a frame only where the data do, with the bytes of that frame. -/
  unexpectedEnd : ∀ count, s.next.1 = .error (.unexpectedEnd count) →
    s.next.2.buffered.length = count ∧ 0 < count ∧ s.next.2.deframer.next.1 = .ok none ∧
      s.next.2.source.Ended script
  /-- A failure of the source is the one in the script behind which the source goes on. -/
  failure : ∀ text, s.next.1 = .error (.io text) →
    ∃ before, script = before ++ .failure text :: s.next.2.source.events
  /-- An error of the protocol is that of the buffered header; every call after it answers the same
  and reads nothing. -/
  header : ∀ e, s.next.1 = .error (.codec e) → s.next.2.deframer.next.1 = .error e ∧
    ∀ calls, FrameStream.play calls s.next.2 = (List.replicate calls (.error (.codec e)), s.next.2)
  /-- Data are taken by reads of the source, of so many bytes at most, and before each read there is
  neither a frame nor an error in what is buffered. -/
  takes : ∃ chunks t, Reads s chunks t ∧ Stops t s.next.1 s.next.2 ∧
    s.source.unread = chunks.flatten ++ s.next.2.source.unread ∧
    (∀ chunk ∈ chunks, chunk ≠ [] ∧ chunk.length ≤ s.readSize) ∧
    ∀ taken chunk rest, chunks = taken ++ chunk :: rest →
      (taken.foldl Deframer.push s.deframer).next.1 = .ok none

theorem Reads.unread (h : Reads s chunks t) :
    s.source.unread = chunks.flatten ++ t.source.unread := by
  induction h with
  | nil => rfl
  | cons hwait hread _ _ ih =>
    rw [← ByteSource.read_unread hread, List.flatten_cons, List.append_assoc]
    exact congrArg _ ih

theorem Stops.unread (h : Stops s answer s') : s'.source.unread = s.source.unread := by
  cases h with
  | frame | header => rfl
  | failure hwait hread => exact ByteSource.unread_of_error hread
  | clean hwait hread | inside hwait hread => exact ByteSource.read_unread hread

/-- Each chunk is what one read brings. -/
theorem Reads.length_le (h : Reads s chunks t) :
    ∀ chunk ∈ chunks, chunk ≠ [] ∧ chunk.length ≤ s.readSize := by
  induction h with
  | nil => exact fun _ hmem => nomatch hmem
  | cons _ hread hne _ ih =>
    exact List.forall_mem_cons.mpr ⟨⟨hne, ByteSource.length_le_of_read hread⟩, ih⟩

/-- Before each chunk the deframer waits, with the chunks before it pushed. -/
theorem Reads.waits (h : Reads s chunks t) {taken : List Bytes} {chunk : Bytes}
    {rest : List Bytes} (hsplit : chunks = taken ++ chunk :: rest) :
    (taken.foldl Deframer.push s.deframer).next.1 = .ok none := by
  induction h generalizing taken with
  | nil => exact absurd hsplit.symm (List.append_ne_nil_of_right_ne_nil _ (List.cons_ne_nil _ _))
  | cons hwait _ _ _ ih =>
    cases taken with
    | nil => exact hwait
    | cons first taken =>
      rw [List.cons_append, List.cons.injEq] at hsplit
      obtain ⟨rfl, hmore⟩ := hsplit
      exact ih hmore

/-- A read without bytes takes the source to the end of the script or past data of no bytes. -/
theorem Accounts.ended (h : s.Accounts returned config script) {source : ByteSource}
    (hread : s.source.read s.readSize = (.ok [], source)) : source.Ended script := by
  obtain ⟨hcurrent, hend⟩ := ByteSource.of_read_nil h.readSize_pos hread
  refine ⟨hcurrent, hend.imp_right fun ⟨before, hevents⟩ => ?_⟩
  obtain ⟨front, hscript⟩ := h.events
  exact ⟨front ++ before, by rw [← hscript, hevents, List.append_assoc]⟩

/-- A read that fails takes the source to just behind a failure of the script. -/
theorem Accounts.failed (h : s.Accounts returned config script) {text : String}
    {source : ByteSource} (hread : s.source.read s.readSize = (.error text, source)) :
    ∃ before, script = before ++ .failure text :: source.events := by
  obtain ⟨before, hevents⟩ := ByteSource.of_read_error hread
  obtain ⟨front, hscript⟩ := h.events
  exact ⟨front ++ before, by rw [← hscript, hevents, List.append_assoc]⟩

theorem play_of_header_error {e : CodecError} (h : s.next = (.error (.codec e), s)) (calls : Nat) :
    play calls s = (List.replicate calls (.error (.codec e)), s) := by
  induction calls with
  | zero => rfl
  | succ calls ih => rw [play, h, ih, List.replicate_succ]

theorem Accounts.orderly (h : s.Accounts returned config script) : s.Orderly script := by
  obtain ⟨chunks, t, hreads, hstops⟩ := s.exists_reads
  have haccounts := h.reads hreads
  have hunread : s.source.unread = chunks.flatten ++ s.next.2.source.unread := by
    rw [hreads.unread, hstops.unread]
  refine ⟨?_, ?_, ?_, ?_, chunks, t, hreads, hstops, hunread, hreads.length_le,
      fun taken chunk rest => hreads.waits⟩ <;>
    generalize s.next.1 = answer at hstops <;> generalize s.next.2 = s' at hstops
  · rintro rfl
    cases hstops with
    | clean hwait hread hempty => exact ⟨hempty, haccounts.ended hread⟩
  · rintro count rfl
    cases hstops with
    | inside hwait hread hne =>
      exact ⟨rfl, List.length_pos_iff.mpr hne, hwait, haccounts.ended hread⟩
  · rintro text rfl
    cases hstops with
    | failure hwait hread => exact haccounts.failed hread
  · rintro e rfl
    cases hstops with
    | header hnext =>
      exact ⟨congrArg Prod.fst hnext, play_of_header_error (Stops.header hnext).next_eq⟩

/-! ## Any script -/

/-- Without the pauses of its source a stream answers the same. -/
theorem play_ready (calls : Nat) (s : FrameStream) :
    (play calls (s.only SourceEvent.isReady)).1 = (play calls s).1 := by
  induction calls generalizing s with
  | zero => rfl
  | succ calls ih => rw [play, next_ready, ih, play]

/-- On the data of its source alone a stream answers the same but for the failures. -/
theorem play_data (calls : Nat) (s : FrameStream) :
    let others := (play calls s).1.filter (!isFailure ·)
    (play others.length (s.only SourceEvent.isData)).1 = others := by
  induction calls generalizing s with
  | zero => rfl
  | succ calls ih =>
    have hmore := ih s.next.2
    dsimp only at hmore ⊢
    rw [play, List.filter_cons]
    cases hfailure : isFailure s.next.1 with
    | true =>
      -- the calls after the failure begin where it would have gone on
      obtain ⟨text, hio⟩ : ∃ text, s.next.1 = .error (.io text) := by
        unfold isFailure at hfailure
        split at hfailure
        · next text hio => exact ⟨text, hio⟩
        · cases hfailure
      rw [if_neg (by decide), play_congr (next_data_of_failure hio), hmore]
    | false =>
      have hio : ∀ text, s.next.1 ≠ .error (.io text) := by
        intro text hio
        rw [hio] at hfailure
        cases hfailure
      rw [if_pos (by decide), List.length_cons, play, next_data_of_ne hio, hmore]

/-- Over any script, however often a frame is asked for: the frames returned, the bytes buffered and
the data not taken are the data of the script, and failures and pauses make no difference to the
other answers. The frames are the first ones that a deframer takes from all data at once. The next
call ends only where the data end or at a chunk of no bytes, and says so truly if that is inside a
frame; it fails only where the script does, repeats the error of a bad header, and takes data only
while it has to wait. -/
theorem play_script (config : Config) (script : List SourceEvent) (calls : Nat) :
    let start := ofConfig config { events := script }
    let answers := (play calls start).1
    let stream := (play calls start).2
    let data := script.flatMap ByteSource.eventBytes
    let others := answers.filter (!isFailure ·)
    (frames answers).flatMap (·.bytes config.signature) ++
        (stream.buffered ++ stream.source.unread) = data ∧
      (play others.length (start.only SourceEvent.isData)).1 = others ∧
      (play calls (start.only SourceEvent.isReady)).1 = answers ∧
      (∀ requests, (frames answers).length ≤ requests → (frames answers).map Frame.parts <+:
        (Deframer.frames (Deframer.play (List.replicate requests .next)
          ((Deframer.ofConfig config).push data)).1).map Frame.parts) ∧
      stream.Orderly script := by
  intro start answers stream data others
  have haccounts := (accounts_ofConfig config script).play calls
  rw [List.nil_append] at haccounts
  refine ⟨haccounts.data, play_data calls start, play_ready calls start, fun requests hle => ?_,
    haccounts.orderly⟩
  have hpushed : ((Deframer.ofConfig config).push data).bytes =
      (frames answers).flatMap (·.bytes config.signature) ++
        (stream.buffered ++ stream.source.unread) := by
    rw [Deframer.bytes_push]
    exact haccounts.data.symm
  exact Deframer.parts_prefix hpushed haccounts.whole hle

/-- A chunk of no bytes ends a call although a whole frame is still to come. -/
theorem next_of_empty_chunk :
    let frame : Bytes := [67, 87, 4, 0, 0, 2, 8, 0, 0, 0, 1, 0, 0, 0, 0, 0, 0, 0]
    let stream := ofConfig .standard { events := [.data [], .data frame] }
    stream.next.1 = .ok none ∧ stream.next.2.source.unread = frame := by
  intro frame stream
  have hstops : stream.Stops (.ok none)
      { stream with source := { events := [.data frame] } } := .clean rfl rfl rfl
  rw [hstops.next_eq]
  exact ⟨rfl, rfl⟩

end FrameStream

end ChatCodec
