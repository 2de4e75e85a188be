import ChatCodec.Proofs.Reading.Layouts
import ChatCodec.Reader.Program

/-!
# Reading from segments is reading from their bytes

A program of reads cannot tell a segmented buffer from the byte string it stands for: every step
answers the same, errors and their numbers included, and leaves the cursor at the same place.

The proof is a simulation. Two cursors are `Alike` when they stand at the same place over the same
bytes, however these lie and whatever follows beyond the capacity; a read is `Blind` when it answers
the same to cursors alike and moves them to the same place. Single reads are blind because they are
local, and blocks of reads by induction on the program.

Main results: `ReadProgram.blind_run`, `ReadProgram.trace_eq`, and from them
`ReadProgram.segmented_eq_contiguous`.
-/

namespace ChatCodec

variable {α β : Type}

/-! ## Cursors alike -/

/-- Two cursors at one place, over bytes that are the same as far as the capacity goes. -/
structure Reader.Alike (r r' : Reader) : Prop where
  valid : r.Valid
  valid' : r'.Valid
  offset_eq : r.offset = r'.offset
  capacity_eq : r.capacity = r'.capacity
  bytes_eq : r.source.bytes.take r.capacity = r'.source.bytes.take r'.capacity

namespace Reader.Alike

variable {r r' : Reader}

theorem refl (hr : r.Valid) : r.Alike r :=
  ⟨hr, hr, rfl, rfl, rfl⟩

theorem remaining_eq (h : r.Alike r') : r.remaining = r'.remaining := by
  rw [remaining, remaining, h.offset_eq, h.capacity_eq]

theorem rest_eq (h : r.Alike r') : r.rest = r'.rest := by
  -- the bytes ahead are those up to the capacity without those passed
  rw [rest, rest, Bytes.window, Bytes.window, remaining, remaining, ← List.drop_take,
    ← List.drop_take, h.bytes_eq, h.offset_eq]

theorem position_eq (h : r.Alike r') : r.position = r'.position := by
  rw [position, position, h.offset_eq, h.capacity_eq, h.remaining_eq]

/-- Moved to one place, cursors stay alike. -/
theorem move {offset : Nat} (h : r.Alike r') (hle : offset ≤ r.capacity) :
    ({ r with offset } : Reader).Alike { r' with offset } where
  valid := ⟨hle, h.valid.capacity_le⟩
  valid' := ⟨h.capacity_eq ▸ hle, h.valid'.capacity_le⟩
  offset_eq := rfl
  capacity_eq := h.capacity_eq
  bytes_eq := h.bytes_eq

/-- Limited to the next few bytes, cursors stay alike. -/
theorem limit {len : Nat} (h : r.Alike r') (hlen : len ≤ r.remaining) :
    ({ r with capacity := r.offset + len } : Reader).Alike
      { r' with capacity := r'.offset + len } where
  valid := h.valid.limit hlen
  valid' := h.valid'.limit (h.remaining_eq ▸ hlen)
  offset_eq := h.offset_eq
  capacity_eq := congrArg (· + len) h.offset_eq
  bytes_eq := by
    have hle := h.valid.limit_le hlen
    have hle' := h.valid'.limit_le (h.remaining_eq ▸ hlen)
    have htake := congrArg (List.take (r.offset + len)) h.bytes_eq
    rw [List.take_take, List.take_take, Nat.min_eq_left hle, h.offset_eq, Nat.min_eq_left hle']
      at htake
    rw [h.offset_eq]
    exact htake

end Reader.Alike

theorem Reader.alike_ofSegments (s : Segments) : (ofSegments s).Alike (ofBytes s.toBytes) where
  valid := valid_ofSegments s
  valid' := valid_ofBytes _
  offset_eq := offset_ofSegments s
  capacity_eq := capacity_ofSegments s
  bytes_eq := by rw [bytes_ofSegments, capacity_ofSegments]; rfl

/-! ## Blind reads -/

namespace Read

/-- To cursors alike the read answers the same, and it moves them to the same place. -/
def Blind (read : ReadM α) : Prop :=
  ∀ {r r' : Reader}, r.Alike r' → ∃ answer offset, offset ≤ r.capacity ∧
    outcome read r = (answer, { r with offset }) ∧ outcome read r' = (answer, { r' with offset })

theorem Clean.blind {read : ReadM α} (h : Clean read) : Blind read := by
  intro r r' halike
  have hoffset := halike.valid.offset_le
  unfold outcome
  rw [h.eq halike.valid, h.eq halike.valid', ← halike.rest_eq]
  -- both cursors have the same bytes ahead, and the run on these decides
  cases hrun : run read r.rest with
  | ok answer =>
    have hle := h.consumed_le hrun
    rw [Reader.length_rest halike.valid, Reader.remaining] at hle
    have hlast : r.offset + answer.2 ≤ r.capacity := by omega
    exact ⟨.ok answer.1, r.offset + answer.2, hlast, rfl, by rw [halike.offset_eq]; rfl⟩
  | error e => exact ⟨.error e, r.offset, hoffset, rfl, by rw [halike.offset_eq]; rfl⟩

theorem blind_seek (offset : Nat) : Blind (seek offset) := by
  intro r r' halike
  unfold outcome
  rw [seek_apply, seek_apply, ← halike.capacity_eq]
  by_cases hlt : r.capacity < offset
  · simp only [if_pos hlt]
    exact ⟨_, r.offset, halike.valid.offset_le, rfl, by rw [halike.offset_eq, halike.capacity_eq]⟩
  · simp only [if_neg hlt]
    exact ⟨_, offset, Nat.le_of_not_lt hlt, rfl, by rw [halike.capacity_eq]⟩

theorem blind_tryValue (layout : Layout α) : Blind (tryValue layout) := by
  intro r r' halike
  have htry (r : Reader) : outcome (tryValue layout) r =
      (.ok (outcome (value layout) r).1.toOption, (outcome (value layout) r).2) := by
    rw [outcome, outcome, tryValue]
    cases value layout r <;> rfl
  obtain ⟨answer, offset, hle, h, h'⟩ := Clean.blind layout.clean_read.local halike
  refine ⟨.ok answer.toOption, offset, hle, ?_, ?_⟩
  · rw [htry, value, h]
  · rw [htry, value, h']

theorem blind_position : Blind (Reader.position <$> get) := by
  intro r r' halike
  exact ⟨.ok r.position, r.offset, halike.valid.offset_le, rfl, by
    rw [halike.position_eq, halike.offset_eq]
    rfl⟩

theorem outcome_atomic (read : ReadM α) (r : Reader) :
    outcome (atomic read) r = match outcome read r with
      | (.ok a, r') => (.ok a, r')
      | (.error e, r') => (.error e, { r' with offset := r.offset }) := by
  rw [outcome, outcome, atomic]
  cases read r <;> rfl

theorem Blind.atomic {read : ReadM α} (h : Blind read) : Blind (atomic read) := by
  intro r r' halike
  obtain ⟨answer, offset, hle, hr, hr'⟩ := h halike
  rw [outcome_atomic, outcome_atomic, hr, hr']
  cases answer with
  | ok a => exact ⟨.ok a, offset, hle, rfl, rfl⟩
  | error e =>
    -- put back, both stand where they stood
    exact ⟨.error e, r.offset, halike.valid.offset_le, rfl, by rw [halike.offset_eq]⟩

theorem outcome_within (len : Nat) (read : ReadM α) (r : Reader) :
    outcome (within len read) r =
      if r.remaining < len then (.error (.insufficientData len r.remaining), r)
      else
        let after := outcome (Read.atomic read) { r with capacity := r.offset + len }
        (after.1, { after.2 with capacity := r.capacity }) := by
  rw [outcome, within_apply]
  by_cases hlt : r.remaining < len
  · rw [if_pos hlt, if_pos hlt]
  · rw [if_neg hlt, if_neg hlt]
    simp only [outcome]
    cases Read.atomic read { r with capacity := r.offset + len } <;> rfl

theorem Blind.within {read : ReadM α} (h : Blind read) (len : Nat) : Blind (within len read) := by
  intro r r' halike
  have hoffset := halike.valid.offset_le
  rw [outcome_within, outcome_within, ← halike.remaining_eq]
  by_cases hlt : r.remaining < len
  · rw [if_pos hlt, if_pos hlt]
    exact ⟨_, r.offset, hoffset, rfl, by rw [halike.offset_eq]⟩
  · obtain ⟨answer, offset, hle, hr, hr'⟩ := h.atomic (halike.limit (Nat.le_of_not_lt hlt))
    rw [if_neg hlt, if_neg hlt, hr, hr']
    have hcapacity := halike.valid.limit_le (Nat.le_of_not_lt hlt)
    exact ⟨answer, offset, Nat.le_trans hle hcapacity, rfl, rfl⟩

end Read

theorem Reading.blind_run (reading : Reading α) : Read.Blind reading.run := by
  cases reading with
  | primitive p => exact (Read.parses_primitive p).clean.blind
  | text => exact Read.clean_text.blind
  | requiredText => exact Read.clean_requiredText.blind
  | bytes len => exact (Read.parses_bytes len).clean.blind
  | count minSize => exact (Read.clean_count minSize).blind
  | seek offset => exact Read.blind_seek offset
  | skip n => exact (Read.parses_skip n).clean.blind
  | value layout => exact Read.Clean.blind layout.clean_read.local
  | tryValue layout => exact Read.blind_tryValue layout
  | header signature limit => exact (Header.clean_read signature limit).blind
  | position => exact Read.blind_position

/-! ## Programs -/

namespace ReadProgram

/-- A program goes on alike after a blind step. -/
theorem blind_step {read : ReadM β} {next : Except CodecError β → ReadM α}
    (hread : Read.Blind read) (hnext : ∀ answer, Read.Blind (next answer)) :
    Read.Blind fun r =>
      let (answer, r) := Read.outcome read r
      next answer r := by
  intro r r' halike
  have hseq (r : Reader) : Read.outcome (fun r =>
      let (answer, r) := Read.outcome read r
      next answer r) r = Read.outcome (next (Read.outcome read r).1) (Read.outcome read r).2 := rfl
  obtain ⟨answer, offset, hle, hr, hr'⟩ := hread halike
  obtain ⟨result, last, hlast, hs, hs'⟩ := hnext answer (halike.move hle)
  refine ⟨result, last, hlast, ?_, ?_⟩
  · rw [hseq, hr]
    exact hs
  · rw [hseq, hr']
    exact hs'

theorem blind_run (program : ReadProgram α) : Read.Blind program.run := by
  induction program with
  | done result =>
    cases result with
    | ok a => exact (Read.parses_pure a).clean.blind
    | error e => exact (Read.parses_throw e).clean.blind
  | read reading next ih => exact blind_step reading.blind_run ih
  | within len body next ihBody ih => exact blind_step (ihBody.within len) ih
  | atomic body next ihBody ih => exact blind_step ihBody.atomic ih

/-- Step by step, cursors alike answer the same and come to stand at the same places. -/
theorem trace_eq (program : ReadProgram α) {r r' : Reader} (halike : r.Alike r') :
    program.trace r = program.trace r' := by
  -- on the program, for any two cursors alike: each entry is the same, and the step that wrote it
  -- leaves cursors that are alike again
  induction program generalizing r r' with
  | done result => rfl
  | read reading next ih =>
    obtain ⟨answer, offset, hle, hr, hr'⟩ := reading.blind_run halike
    have hmove := halike.move hle
    simp only [trace, hr, hr', hmove.position_eq, ih answer hmove]
  | within len body next ihBody ih =>
    obtain ⟨answer, offset, hle, hr, hr'⟩ := Read.Blind.within (blind_run body) len halike
    have hmove := halike.move hle
    simp only [trace, hr, hr', hmove.position_eq, ih answer hmove, halike.remaining_eq]
    by_cases hlt : r'.remaining < len
    · -- the block is not entered
      rw [if_pos hlt, if_pos hlt]
    · -- inside the block both see the same limited bytes
      have hlen : len ≤ r.remaining := halike.remaining_eq ▸ Nat.le_of_not_lt hlt
      rw [if_neg hlt, if_neg hlt, ihBody (halike.limit hlen)]
  | atomic body next ihBody ih =>
    obtain ⟨answer, offset, hle, hr, hr'⟩ := Read.Blind.atomic (blind_run body) halike
    have hmove := halike.move hle
    simp only [trace, hr, hr', hmove.position_eq, ih answer hmove, ihBody halike]

/-- Chunked reading equals contiguous reading. Whatever pieces a buffer has come to, a program run
on it answers, step by step and in the end, what it answers on the joined bytes, and its cursor
stands at the same offset with the same remaining bytes and capacity all the way. -/
theorem segmented_eq_contiguous (s : Segments) (program : ReadProgram α) :
    let segmented := Reader.ofSegments s
    let contiguous := Reader.ofBytes s.toBytes
    segmented.position = contiguous.position ∧
      program.trace segmented = program.trace contiguous ∧
      (Read.outcome program.run segmented).1 = (Read.outcome program.run contiguous).1 ∧
      (Read.outcome program.run segmented).2.position =
        (Read.outcome program.run contiguous).2.position := by
  have halike := Reader.alike_ofSegments s
  obtain ⟨answer, offset, hle, hr, hr'⟩ := blind_run program halike
  refine ⟨halike.position_eq, program.trace_eq halike, ?_, ?_⟩
  · rw [hr, hr']
  · rw [hr, hr']
    exact (halike.move hle).position_eq

end ReadProgram

end ChatCodec
