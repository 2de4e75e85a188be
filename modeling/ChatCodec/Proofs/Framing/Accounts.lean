import ChatCodec.Proofs.Framing.Delivery

/-!
# No byte of a stream is lost

What a deframer answers is decided by the bytes it holds, and these are the bytes pushed less those
it handed out in frames. An error in a header takes nothing away, and it stays.

* `Frame.bytes` — a frame on the wire, and `Frame.Whole` — its content is what its header declares;
* `Deframer.answer` — what a deframer answers to some bytes;
* `Deframer.History` — a deframer with what was pushed and returned since it was last cleared.

What one request does is said once, by `next_cases`; from it follow the step `History.accounts_step`
and the run `History.accounts_run`. Main result: `account_of_requests`, which adds that answers
depend on nothing but the bytes and that errors stay.
-/

namespace ChatCodec

open Read
open Write (output)

/-! ## Frames -/

namespace Frame

/-- The frame on the wire. -/
def bytes (frame : Frame) (signature : UInt16) : Bytes :=
  frame.header.bytes signature ++ frame.content.toBytes

/-- The header and the bytes of the content, whatever pieces these lie in. -/
def parts (frame : Frame) : Header × Bytes :=
  (frame.header, frame.content.toBytes)

/-- The header is one that can be read under the limit, and the content is what it declares. -/
structure Whole (frame : Frame) (limit : Nat) : Prop where
  header : frame.header.WellFormed limit
  length_content : frame.content.toBytes.length = frame.header.contentLength

/-- The content of a whole frame has the size in the header, which is within the limit. -/
theorem Whole.contentSize {frame : Frame} {limit : Nat} (h : frame.Whole limit) :
    (frame.content.toBytes.length : Int) = frame.header.contentSize.toInt ∧
      0 ≤ frame.header.contentSize.toInt ∧ frame.header.contentSize.toInt ≤ limit := by
  have hnonneg := h.header.nonneg
  have hlength := h.length_content
  have hle := h.header.contentLength_le
  rw [Header.contentLength] at hlength hle
  omega

end Frame

namespace Deframer

/-! ## One request -/

variable {d : Deframer} {e : CodecError}

/-- What a request comes to: an error of the header, which is no shortage and leaves the deframer as
it was; nothing yet, which leaves it as well; or a whole frame, which is taken off the bytes. -/
theorem next_cases (d : Deframer) :
    (∃ e, d.next = (.error e, d) ∧ run (Header.read d.signature d.limit) d.bytes = .error e ∧
      e.isInsufficientData = false) ∨
    d.next = (.ok none, d) ∨
    ∃ frame buffer, d.next = (.ok (some frame), { d with buffer }) ∧ frame.Whole d.limit ∧
      d.bytes = frame.bytes d.signature ++ buffer.toBytes := by
  cases hheader : run (Header.read d.signature d.limit) d.bytes with
  | error e =>
    have hnext := next_of_error hheader
    cases he : e.isInsufficientData with
    | true =>
      rw [he] at hnext
      exact .inr (.inl hnext)
    | false =>
      rw [he] at hnext
      exact .inl ⟨e, hnext, rfl, he⟩
  | ok answer =>
    obtain ⟨header, n⟩ := answer
    rcases Nat.lt_or_ge d.bytes.length header.frameLength with hlt | hle
    · exact .inr (.inl (next_of_short hheader hlt))
    · obtain ⟨content, buffer, hnext, hcontent, hbuffer⟩ := next_of_frame hheader hle
      obtain ⟨hwell, rfl, htake⟩ := Header.eq_of_run_read hheader
      rw [Header.frameLength] at hle
      have hlength : content.toBytes.length = header.contentLength := by
        rw [hcontent, List.length_take, List.length_drop]
        omega
      -- header, content and rest are the bytes from the start on, one after the other
      have hbytes : d.bytes = header.bytes d.signature ++ content.toBytes ++ buffer.toBytes := by
        rw [← htake, hcontent, hbuffer, Header.frameLength, ← List.take_add, List.take_append_drop]
      exact .inr (.inr ⟨⟨header, content⟩, buffer, hnext, ⟨hwell, hlength⟩, hbytes⟩)

theorem next_of_none (h : d.next.1 = .ok none) : d.next.2 = d := by
  rcases d.next_cases with ⟨e, hnext, -, -⟩ | hnext | ⟨frame, buffer, hnext, -, -⟩ <;>
    rw [hnext] at h ⊢
  cases h

/-- The error of a header leaves the deframer as it was, and it is found by reading the header. -/
theorem next_of_header_error (h : d.next.1 = .error e) :
    d.next.2 = d ∧ run (Header.read d.signature d.limit) d.bytes = .error e ∧
      e.isInsufficientData = false := by
  rcases d.next_cases with ⟨e', hnext, hheader, he⟩ | hnext | ⟨frame, buffer, hnext, -, -⟩ <;>
    rw [hnext] at h ⊢ <;> cases h
  exact ⟨rfl, hheader, he⟩

/-! ## Answers and bytes -/

/-- What a deframer answers to some bytes. -/
def answer (signature : UInt16) (limit : Nat) (bytes : Bytes) :
    Except CodecError (Option (Header × Bytes)) :=
  match run (Header.read signature limit) bytes with
  | .error e => if e.isInsufficientData then .ok none else .error e
  | .ok (header, _) =>
    if bytes.length < header.frameLength then
      .ok none
    else
      .ok (some (header, (bytes.drop header.length).take header.contentLength))

theorem next_answer (d : Deframer) :
    d.next.1.map (Option.map Frame.parts) = answer d.signature d.limit d.bytes := by
  unfold answer
  cases hheader : run (Header.read d.signature d.limit) d.bytes with
  | error e =>
    rw [next_of_error hheader]
    cases he : e.isInsufficientData <;> simp [he, Except.map]
  | ok result =>
    obtain ⟨header, n⟩ := result
    rcases Nat.lt_or_ge d.bytes.length header.frameLength with hlt | hle
    · rw [next_of_short hheader hlt]
      simp [hlt, Except.map]
    · obtain ⟨content, buffer, hnext, hcontent, -⟩ := next_of_frame hheader hle
      rw [hnext]
      simp [Nat.not_lt.mpr hle, Except.map, Frame.parts, hcontent]

/-- The bytes handed out with an answer. -/
def answerBytes (signature : UInt16) : Except CodecError (Option (Header × Bytes)) → Bytes
  | .ok (some (header, content)) => header.bytes signature ++ content
  | _ => []

/-- A request takes from the bytes just those it hands out. -/
theorem next_bytes (d : Deframer) :
    answerBytes d.signature (answer d.signature d.limit d.bytes) ++ d.next.2.bytes = d.bytes := by
  rw [← next_answer]
  rcases d.next_cases with ⟨e, hnext, -, -⟩ | hnext | ⟨frame, buffer, hnext, -, hbytes⟩ <;>
    rw [hnext]
  · rfl
  · rfl
  · exact hbytes.symm

/-- Deframers that hold the same bytes keep the same bytes after a request. -/
theorem bytes_next_congr {d d' : Deframer} (hsignature : d.signature = d'.signature)
    (hlimit : d.limit = d'.limit) (hbytes : d.bytes = d'.bytes) :
    d.next.2.bytes = d'.next.2.bytes := by
  have hanswer : answer d.signature d.limit d.bytes = answer d'.signature d'.limit d'.bytes := by
    rw [hsignature, hlimit, hbytes]
  -- both hand out the same bytes, so they keep the same ones
  have htaken := d.next_bytes
  rw [hanswer, hsignature, hbytes] at htaken
  exact List.append_cancel_left (htaken.trans d'.next_bytes.symm)

/-! ## Errors stay -/

/-- Bytes that arrive after a bad header change nothing about it. -/
theorem push_of_header_error (h : d.next.1 = .error e) (chunk : Bytes) :
    (d.push chunk).next = (.error e, d.push chunk) := by
  obtain ⟨-, hheader, he⟩ := next_of_header_error h
  have hpushed : run (Header.read (d.push chunk).signature (d.push chunk).limit)
      (d.push chunk).bytes = .error e := by
    rw [bytes_push]
    exact (Header.final_read _ _).error chunk hheader he
  rw [next_of_error hpushed, he]
  rfl

/-- Whatever is pushed and however often a frame is asked for, the error is the only answer. -/
theorem play_of_header_error (calls : List Call) (h : d.next.1 = .error e) :
    (∀ answer ∈ (play calls d).1, answer = .error e) ∧
      (play calls d).2.bytes = d.bytes ++ calls.flatMap Call.pushed := by
  induction calls generalizing d with
  | nil =>
    refine ⟨fun answer hmem => ?_, ?_⟩
    · cases hmem
    · rw [play, List.flatMap_nil, List.append_nil]
  | cons call calls ih =>
    cases call with
    | push chunk =>
      have hpushed := push_of_header_error h chunk
      obtain ⟨hanswers, hbytes⟩ := ih (congrArg Prod.fst hpushed)
      refine ⟨hanswers, ?_⟩
      rw [play, hbytes, bytes_push, List.flatMap_cons, List.append_assoc]
      rfl
    | next =>
      obtain ⟨hsame, -, -⟩ := next_of_header_error h
      obtain ⟨hanswers, hbytes⟩ := ih h
      rw [play, hsame]
      refine ⟨fun answer hmem => ?_, hbytes⟩
      rcases List.mem_cons.mp hmem with rfl | hmem
      · exact h
      · exact hanswers answer hmem

/-! ## Histories -/

/-- What a deframer may be asked to do. -/
inductive Request where
  | push (chunk : Bytes)
  | next
  | clear

/-- A deframer, and what happened since it was last cleared. -/
structure History where
  deframer : Deframer
  /-- The bytes pushed, in order. -/
  pushed : Bytes := []
  /-- The frames returned, in order. -/
  returned : List Frame := []

namespace History

/-- Nothing happened yet. -/
def start (signature : UInt16) (limit : Nat) : History where
  deframer := { signature, limit }

/-- One request. -/
def step (h : History) : Request → History
  | .push chunk =>
    { h with deframer := h.deframer.push chunk, pushed := h.pushed ++ chunk }
  | .next =>
    { h with deframer := h.deframer.next.2, returned := h.returned ++ frames [h.deframer.next.1] }
  | .clear => { deframer := h.deframer.clear }

/-- Some requests, one after another. -/
def run (h : History) (requests : List Request) : History :=
  requests.foldl step h

/-- The bytes pushed are those of the frames returned and then those still held, and every frame is
whole. -/
structure Accounts (h : History) (signature : UInt16) (limit : Nat) : Prop where
  signature_eq : h.deframer.signature = signature
  limit_eq : h.deframer.limit = limit
  pushed : h.pushed = h.returned.flatMap (·.bytes signature) ++ h.deframer.bytes
  whole : ∀ frame ∈ h.returned, frame.Whole limit

variable {signature : UInt16} {limit : Nat}

theorem accounts_start (signature : UInt16) (limit : Nat) :
    (start signature limit).Accounts signature limit where
  signature_eq := rfl
  limit_eq := rfl
  pushed := rfl
  whole _ hmem := by cases hmem

/-- No request loses or repeats a byte. -/
theorem accounts_step {h : History} (hacc : h.Accounts signature limit) (request : Request) :
    (h.step request).Accounts signature limit := by
  obtain ⟨rfl, rfl, hpushed, hwhole⟩ := hacc
  cases request with
  | push chunk =>
    refine ⟨rfl, rfl, ?_, hwhole⟩
    rw [step, bytes_push, hpushed, List.append_assoc]
  | clear => exact accounts_start _ _
  | next =>
    rcases h.deframer.next_cases with ⟨e, hnext, -, -⟩ | hnext |
      ⟨frame, buffer, hnext, hframe, hbytes⟩ <;> rw [step, hnext]
    · exact ⟨rfl, rfl, by simpa [frames] using hpushed, by simpa [frames] using hwhole⟩
    · exact ⟨rfl, rfl, by simpa [frames] using hpushed, by simpa [frames] using hwhole⟩
    · -- the frame goes over from the bytes held to the frames returned
      refine ⟨rfl, rfl, ?_, fun other hmem => ?_⟩
      · rw [hpushed, hbytes]
        simp [frames, bytes]
      · rcases List.mem_append.mp hmem with hmem | hmem
        · exact hwhole other hmem
        · obtain rfl : other = frame := by simpa [frames] using hmem
          exact hframe

theorem accounts_run {h : History} (hacc : h.Accounts signature limit) (requests : List Request) :
    (h.run requests).Accounts signature limit := by
  induction requests generalizing h with
  | nil => exact hacc
  | cons request requests ih => exact ih (accounts_step hacc request)

end History

/-- After any requests, the bytes pushed since the deframer was last cleared are those of the frames
returned since then, each the header as it is written and then the content, and the bytes held. The
content of each frame has the size its header declares, which is within the limit. The bytes held,
in whatever pieces they arrived, decide what the deframer answers next and which bytes that leaves.
If it answers an error, it keeps all bytes and answers the same error until it is cleared. -/
theorem account_of_requests (signature : UInt16) (limit : Nat) (requests : List Request) :
    let h := (History.start signature limit).run requests
    h.pushed = h.returned.flatMap (·.bytes signature) ++ h.deframer.bytes ∧
    (∀ frame ∈ h.returned,
      output (frame.header.write signature) = .ok ((), frame.header.bytes signature) ∧
      (frame.content.toBytes.length : Int) = frame.header.contentSize.toInt ∧
      0 ≤ frame.header.contentSize.toInt ∧ frame.header.contentSize.toInt ≤ limit) ∧
    (∀ d : Deframer, d.signature = signature → d.limit = limit → d.bytes = h.deframer.bytes →
      d.next.1.map (Option.map Frame.parts) = answer signature limit h.deframer.bytes ∧
      d.next.2.bytes = h.deframer.next.2.bytes) ∧
    ∀ e, h.deframer.next.1 = .error e → h.deframer.next.2 = h.deframer ∧
      ∀ later, (∀ reply ∈ (play later h.deframer).1, reply = .error e) ∧
        (play later h.deframer).2.bytes = h.deframer.bytes ++ later.flatMap Call.pushed := by
  intro h
  obtain ⟨hsignature, hlimit, hpushed, hwhole⟩ :=
    History.accounts_run (History.accounts_start signature limit) requests
  refine ⟨hpushed, fun frame hmem => ?_, fun d hs hl hb => ?_, fun e he => ?_⟩
  · exact ⟨frame.header.output_write signature, (hwhole frame hmem).contentSize⟩
  · have hanswer := d.next_answer
    rw [hs, hl, hb] at hanswer
    exact ⟨hanswer, bytes_next_congr (hs.trans hsignature.symm) (hl.trans hlimit.symm) hb⟩
  · exact ⟨(next_of_header_error he).1, fun later => play_of_header_error later he⟩

end Deframer

end ChatCodec
