import ChatCodec.Proofs.Reading.Honest
import ChatCodec.Proofs.Reading.Rollback
import ChatCodec.Proofs.Reading.Segmented

/-!
# What a step may do to a cursor

A program moves its cursor by single reads, by limited parts and by parts with rollback, nested in
any way, and goes on after failures. Capacities are lowered and given back, and offsets moved and
put back, in the midst of each other. Through all of this the cursor stays inside its capacity and
the capacity inside the source; a step that fails leaves no trace; and no step sees or reaches
beyond the end of a limited part that it is in.

* `ReadStep` — a step of a program: a single read, a limited part, a part with rollback, a failure;
* `ReadProgram.Taken` — a step as it was taken, on some cursor and inside some limited parts;
* `ReadProgram.steps` — all steps of a run, those inside of parts included;
* `ReadProgram.Taken.Sound` — the step did what a step may do.

One lemma says what a single step does (`ReadProgram.Taken.sound`), an induction over programs
what a run does. Main result: `ReadProgram.sound_steps`.
-/

namespace ChatCodec

variable {α β : Type}

/-! ## Moves -/

namespace Read

variable {read : ReadM α} {r : Reader}

/-- A blind read moves its cursor inside the capacity. -/
theorem Blind.moves (h : Blind read) : Moves read := by
  have hmoved {r : Reader} (hr : r.Valid) : r.Moved (outcome read r).2 := by
    obtain ⟨answer, offset, hle, heq, -⟩ := h (.refl hr)
    exact ⟨offset, hle, by rw [heq]⟩
  constructor
  · intro r a r' hr hok
    have h := hmoved hr
    rwa [outcome, hok] at h
  · intro r e r' hr herror
    have h := hmoved hr
    rwa [outcome, herror] at h

/-- A limited part gives back the capacity, and puts the cursor back where it fails. -/
theorem Moves.within (h : Moves read) (len : Nat) : Stays (within len read) := by
  -- a part that is too long is refused before it begins; inside any other the cursor is valid
  have hlimit {r : Reader} (hr : r.Valid) (hlt : ¬ r.remaining < len) :
      ({ r with capacity := r.offset + len } : Reader).Valid :=
    hr.limit (Nat.le_of_not_lt hlt)
  constructor
  · intro r a r' hr hok
    rw [within_apply] at hok
    split at hok
    · cases hok
    · next hlt =>
      split at hok <;> cases hok
      next r'' hread =>
      obtain ⟨offset, hle, rfl⟩ := h.atomic.ok (hlimit hr hlt) hread
      exact ⟨offset, Nat.le_trans hle (hr.limit_le (Nat.le_of_not_lt hlt)), rfl⟩
  · intro r e r' hr herror
    rw [within_apply] at herror
    split at herror
    · cases herror
      rfl
    · next hlt =>
      split at herror <;> cases herror
      next r'' hread =>
      rw [h.atomic.error (hlimit hr hlt) hread]

/-- What a read that stays does, in terms of its outcome. -/
theorem Stays.outcome (h : Stays read) (hr : r.Valid) : r.Moved (outcome read r).2 ∧
    ∀ e, (outcome read r).1 = .error e → (outcome read r).2 = r := by
  unfold Read.outcome
  cases hread : read r with
  | ok a r' => exact ⟨h.ok hr hread, fun e he => nomatch he⟩
  | error e r' =>
    obtain rfl := h.error hr hread
    exact ⟨.refl hr, fun _ _ => rfl⟩

end Read

/-! ## Single reads -/

namespace Reading

/-- A single read that fails leaves the cursor where it was. -/
theorem stays_run (reading : Reading α) : Read.Stays reading.run := by
  refine ⟨(Read.Blind.moves reading.blind_run).ok, fun {r e r'} hr herror => ?_⟩
  cases reading with
  | primitive p => exact (Read.parses_primitive p).clean.stays.error hr herror
  | text => exact Read.clean_text.stays.error hr herror
  | requiredText => exact Read.clean_requiredText.stays.error hr herror
  | bytes len => exact (Read.parses_bytes len).clean.stays.error hr herror
  | count minSize => exact (Read.clean_count minSize).stays.error hr herror
  | skip n => exact (Read.parses_skip n).clean.stays.error hr herror
  | value layout => exact (Read.Clean.stays layout.clean_read.local).error hr herror
  | header signature limit => exact (Header.clean_read signature limit).stays.error hr herror
  | seek offset =>
    rw [run, Read.seek_apply] at herror
    split at herror <;> cases herror
    rfl
  | tryValue layout =>
    rw [run, Read.tryValue] at herror
    split at herror <;> cases herror
  | position => cases herror

/-- The errors of a single read are true of the bytes it may look at. -/
theorem isTrue_of_error (reading : Reading α) {r r' : Reader} {e : CodecError} (hr : r.Valid)
    (herror : reading.run r = .error e r') : e.IsTrue r.remaining := by
  have honest := Read.hereditary_honest
  cases reading with
  | primitive p => exact (honest.primitive p).isTrue hr herror
  | text => exact honest.text.isTrue hr herror
  | requiredText => exact honest.requiredText.isTrue hr herror
  | bytes len => exact (honest.bytes len).isTrue hr herror
  | count minSize => exact (honest.count minSize).isTrue hr herror
  | skip n => exact (Read.honest_skip n).isTrue hr herror
  | value layout => exact (honest.atomic (layout.hereditary_read honest)).isTrue hr herror
  | header signature limit => exact (Header.hereditary_read honest signature limit).isTrue hr herror
  | seek offset =>
    rw [run, Read.seek_apply] at herror
    split at herror <;> cases herror
    exact .inl trivial
  | tryValue layout =>
    rw [run, Read.tryValue] at herror
    split at herror <;> cases herror
  | position => cases herror

end Reading

/-! ## Steps -/

/-- A step of a program; the index is the type of what it answers. -/
inductive ReadStep : Type → Type 1
  | read {α : Type} (reading : Reading α) : ReadStep α
  | within {α : Type} (len : Nat) (body : ReadProgram α) : ReadStep α
  | atomic {α : Type} (body : ReadProgram α) : ReadStep α
  /-- A failure the program decides on. -/
  | fail {α : Type} (e : CodecError) : ReadStep α

namespace ReadStep

def run : ReadStep α → ReadM α
  | read reading => reading.run
  | within len body => Read.within len body.run
  | atomic body => Read.atomic body.run
  | fail e => throw e

/-- The step is a single read. -/
def IsRead : ReadStep α → Prop
  | read _ => True
  | _ => False

theorem blind_run (step : ReadStep α) : Read.Blind step.run := by
  cases step with
  | read reading => exact reading.blind_run
  | within len body => exact Read.Blind.within body.blind_run len
  | atomic body => exact Read.Blind.atomic body.blind_run
  | fail e => exact (Read.parses_throw e).clean.blind

/-- Every step that fails leaves the cursor where it was. -/
theorem stays_run (step : ReadStep α) : Read.Stays step.run := by
  cases step with
  | read reading => exact reading.stays_run
  | within len body => exact (Read.Blind.moves body.blind_run).within len
  | atomic body => exact (Read.Blind.moves body.blind_run).atomic
  | fail e => exact Read.stays_throw e

/-- The errors of a single read are true of the bytes it may look at. -/
theorem isTrue_of_error {step : ReadStep α} {r : Reader} {e : CodecError} (hread : step.IsRead)
    (hr : r.Valid) (herror : (Read.outcome step.run r).1 = .error e) : e.IsTrue r.remaining := by
  cases step with
  | read reading =>
    change (Read.outcome reading.run r).1 = _ at herror
    unfold Read.outcome at herror
    split at herror <;> cases herror
    next hrun => exact reading.isTrue_of_error hr hrun
  | within | atomic | fail => exact False.elim hread

end ReadStep

namespace ReadProgram

/-- A step as it was taken. -/
structure Taken : Type 1 where
  {β : Type}
  step : ReadStep β
  before : Reader
  /-- Where the limited parts end that the step is in. -/
  limits : List Nat

namespace Taken

def answer (t : Taken) : Except CodecError t.β :=
  (Read.outcome t.step.run t.before).1

def after (t : Taken) : Reader :=
  (Read.outcome t.step.run t.before).2

/-- What a trace tells of the step. It tells nothing of failures that a program decides on, which
end the part they are in. -/
def record? (t : Taken) : Option ReadRecord :=
  match t.step with
  | .fail _ => none
  | _ => some ⟨t.answer, t.after.position⟩

end Taken

/-- The steps of a run in the order in which they come to their end, each with the cursor it was
taken on. -/
def steps {α : Type} : ReadProgram α → Reader → List Nat → List Taken
  | done (.ok _), _, _ => []
  | done (.error e), r, limits => [⟨(.fail e : ReadStep α), r, limits⟩]
  | read reading next, r, limits =>
    let t : Taken := ⟨.read reading, r, limits⟩
    t :: (next t.answer).steps t.after limits
  | within len body next, r, limits =>
    let t : Taken := ⟨.within len body, r, limits⟩
    let inner := if r.remaining < len then []
      else body.steps { r with capacity := r.offset + len } ((r.offset + len) :: limits)
    inner ++ t :: (next t.answer).steps t.after limits
  | atomic body next, r, limits =>
    let t : Taken := ⟨.atomic body, r, limits⟩
    body.steps r limits ++ t :: (next t.answer).steps t.after limits

/-- The steps are those a trace tells of, and failures that programs decide on. -/
theorem filterMap_steps (program : ReadProgram α) (r : Reader) (limits : List Nat) :
    (program.steps r limits).filterMap Taken.record? = program.trace r := by
  induction program generalizing r limits with
  | done result => cases result <;> rfl
  | read reading next ih =>
    simp only [steps, List.filterMap_cons, ih]
    rfl
  | within len body next ihBody ih =>
    simp only [steps, trace, List.filterMap_append, List.filterMap_cons, ih]
    by_cases hlt : r.remaining < len
    · rw [if_pos hlt, if_pos hlt]
      rfl
    · rw [if_neg hlt, if_neg hlt, ihBody]
      rfl
  | atomic body next ihBody ih =>
    simp only [steps, List.filterMap_append, List.filterMap_cons, ih, ihBody]
    rfl

/-! ## Sound steps -/

/-- The step did what a step may do. -/
structure Taken.Sound (t : Taken) : Prop where
  /-- The cursor stands inside its capacity, and that lies inside the source. -/
  valid : t.after.Valid
  source_eq : t.after.source = t.before.source
  /-- A limited part gave back the capacity that it lowered, whether it succeeded or not. -/
  capacity_eq : t.after.capacity = t.before.capacity
  /-- A failure left the cursor where it was. -/
  failed : ∀ e, t.answer = .error e → t.after = t.before
  /-- A single read failed for what the bytes say, or for a shortage, and then fewer bytes remained
  than it wanted. So it never went for bytes outside the source: that would have been answered by a
  shortage of bytes that do remain. -/
  isTrue : t.step.IsRead → ∀ e, t.answer = .error e → e.IsTrue t.before.remaining
  /-- The cursor did not go beyond the end of a limited part that the step is in. -/
  offset_le : ∀ limit ∈ t.limits, t.after.offset ≤ limit
  /-- The capacity, beyond which nothing is observed, lies inside each of these parts. -/
  capacity_le : ∀ limit ∈ t.limits, t.before.capacity ≤ limit
  /-- On a source with the same bytes up to the capacity, and with any or none behind it, the step
  answers the same and moves the cursor to the same place. -/
  unseen : ∀ {other : Reader}, t.before.Alike other →
    (Read.outcome t.step.run other).1 = t.answer ∧
      (Read.outcome t.step.run other).2.position = t.after.position

/-- A step on a valid cursor inside its limits is sound. -/
theorem Taken.sound (t : Taken) (hvalid : t.before.Valid)
    (hlimits : ∀ limit ∈ t.limits, t.before.capacity ≤ limit) : t.Sound := by
  obtain ⟨hmoved, hfailed⟩ := t.step.stays_run.outcome hvalid
  obtain ⟨offset, hle, hafter⟩ := hmoved
  change t.after = _ at hafter
  refine ⟨?_, ?_, ?_, hfailed, fun hread e => ReadStep.isTrue_of_error hread hvalid,
    fun limit hmem => ?_, hlimits, fun {other} halike => ?_⟩
  · rw [hafter]
    exact ⟨hle, hvalid.capacity_le⟩
  · rw [hafter]
  · rw [hafter]
  · rw [hafter]
    exact Nat.le_trans hle (hlimits limit hmem)
  · obtain ⟨result, offset', hle', heq, heq'⟩ := t.step.blind_run halike
    rw [Taken.answer, Taken.after, heq, heq']
    exact ⟨rfl, (halike.move hle').position_eq.symm⟩

/-- On a valid cursor inside its limits a program takes sound steps only. -/
theorem sound_of_mem_steps (program : ReadProgram α) {r : Reader} {limits : List Nat}
    (hr : r.Valid) (hlimits : ∀ limit ∈ limits, r.capacity ≤ limit) :
    ∀ t ∈ program.steps r limits, t.Sound := by
  -- on the program, for any cursor: a sound step leaves a valid cursor of the same capacity to the
  -- steps behind it, and those inside a limited part see one whose capacity is the end of the part
  induction program generalizing r limits with
  | done result =>
    cases result with
    | ok a => exact fun t ht => nomatch ht
    | error e =>
      intro t ht
      obtain rfl := List.mem_singleton.mp ht
      exact Taken.sound _ hr hlimits
  | read reading next ih =>
    have hsound : Taken.Sound ⟨.read reading, r, limits⟩ := Taken.sound _ hr hlimits
    intro t ht
    rcases List.mem_cons.mp ht with rfl | ht
    · exact hsound
    · exact ih _ hsound.valid (hsound.capacity_eq ▸ hlimits) t ht
  | within len body next ihBody ih =>
    have hsound : Taken.Sound ⟨.within len body, r, limits⟩ := Taken.sound _ hr hlimits
    intro t ht
    rcases List.mem_append.mp ht with ht | ht
    · split at ht
      · cases ht
      · next hlt =>
        have hinner : ({ r with capacity := r.offset + len } : Reader).Valid :=
          hr.limit (Nat.le_of_not_lt hlt)
        -- the part ends inside the capacity, so inside the parts around it
        have hle := hr.limit_le (Nat.le_of_not_lt hlt)
        refine ihBody hinner (List.forall_mem_cons.mpr ⟨Nat.le_refl _, ?_⟩) t ht
        exact fun limit hmem => Nat.le_trans hle (hlimits limit hmem)
    · rcases List.mem_cons.mp ht with rfl | ht
      · exact hsound
      · exact ih _ hsound.valid (hsound.capacity_eq ▸ hlimits) t ht
  | atomic body next ihBody ih =>
    have hsound : Taken.Sound ⟨.atomic body, r, limits⟩ := Taken.sound _ hr hlimits
    intro t ht
    rcases List.mem_append.mp ht with ht | ht
    · exact ihBody hr hlimits t ht
    · rcases List.mem_cons.mp ht with rfl | ht
      · exact hsound
      · exact ih _ hsound.valid (hsound.capacity_eq ▸ hlimits) t ht

/-- Every step of every program keeps the cursor in order, on bytes in one string or in pieces. The
steps meant are those that a trace records, and the failures that programs decide on. After each of
them the cursor is inside its capacity and the capacity inside the source, no bytes outside the
source were asked for, a limited part has given back the capacity, and a failure has left everything
as it was. A step inside limited parts neither goes beyond the end of one of them nor depends on
what is there. -/
theorem sound_steps (program : ReadProgram α) :
    ((∀ bytes, (Reader.ofBytes bytes).Valid) ∧ ∀ s, (Reader.ofSegments s).Valid) ∧
    ∀ {r : Reader}, r.Valid →
      (program.steps r []).filterMap Taken.record? = program.trace r ∧
        ∀ t ∈ program.steps r [], t.Sound :=
  ⟨⟨Reader.valid_ofBytes, Reader.valid_ofSegments⟩, fun {r} hr =>
    ⟨program.filterMap_steps r [], program.sound_of_mem_steps hr fun _ h => nomatch h⟩⟩

/-- A string of five bytes, with its length, in a part of eight. The last byte of the string is
there, but not in the part, so the string is not read. A byte is, then the part is given up, and the
same byte is read again behind it. -/
theorem sound_steps_limited :
    let segments := Segments.ofPieces [[5, 0, 0], [0, 97, 98, 99], [100, 101, 7]]
    let part : ReadProgram UInt8 := .read .text fun _ => .read (.primitive .u8) fun _ =>
      .done (.error .unexpectedNull)
    let program : ReadProgram UInt8 := .within 8 part fun _ => .read (.primitive .u8) .done
    let r := Reader.ofSegments segments
    r.Valid ∧
      (program.trace r).map (·.position) = [⟨0, 8, 8⟩, ⟨1, 7, 8⟩, ⟨0, 10, 10⟩, ⟨1, 9, 10⟩] ∧
      ∀ t ∈ program.steps r [], t.Sound := by
  intro segments part program r
  obtain ⟨⟨-, hvalid⟩, hsteps⟩ := sound_steps program
  exact ⟨hvalid segments, by decide +kernel, (hsteps (hvalid segments)).2⟩

end ReadProgram

end ChatCodec
