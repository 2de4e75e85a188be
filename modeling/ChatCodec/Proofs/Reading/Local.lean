import ChatCodec.Packet.Body
import ChatCodec.Proofs.Reading.Cursor

/-!
# Reads look at nothing but the bytes ahead

A read is *local* when it does not matter to it where its cursor stands, how far the source goes on
beyond the capacity, and in which pieces the source lies: what it answers is decided by the bytes
ahead, and the cursor moves on by what was consumed, or not at all. `Read.run`, which runs a read on
a byte string from its start, then says all there is to say about the read.

* `Read.Clean` — the read is local and leaves the cursor where it was when it fails;
* `Read.Local` — the read is local, once a failure has put the cursor back;
* `Read.Parses` — the read answers what a function on byte strings answers for the bytes ahead.

Main results: the reads all others are made of parse (`parses_primitive`, `parses_bytes`, …), and
locality is kept by sequence, repetition, rollback and limit (`Local.bind`, `Local.times`,
`parses_within`).
-/

namespace ChatCodec.Read

variable {α β σ : Type}

/-- The read answers what `parse` answers for the bytes ahead, and moves the cursor accordingly. -/
structure Parses (read : ReadM α) (parse : Bytes → Except CodecError (α × Nat)) : Prop where
  consumed_le : ∀ {bytes a n}, parse bytes = .ok (a, n) → n ≤ bytes.length
  eq : ∀ {r : Reader}, r.Valid → read r = r.replay (parse r.rest)

/-- The answer of a read, and the move of its cursor, are decided by the bytes ahead. -/
def Clean (read : ReadM α) : Prop :=
  Parses read (run read)

/-- As `Clean`, but a failure may leave the cursor anywhere. -/
def Local (read : ReadM α) : Prop :=
  Clean (atomic read)

/-! ## Answers -/

section Answers

variable {read : ReadM α} {parse : Bytes → Except CodecError (α × Nat)}
variable {r : Reader} {a : α} {n : Nat} {e : CodecError}

theorem Parses.run_eq (h : Parses read parse) (bytes : Bytes) : run read bytes = parse bytes := by
  rw [run, h.eq (Reader.valid_ofBytes bytes), Reader.rest_ofBytes]
  cases parse bytes with
  | ok answer => exact congrArg Except.ok (Prod.ext rfl (Nat.zero_add _))
  | error e => rfl

theorem Parses.clean (h : Parses read parse) : Clean read := by
  have hrun : run read = parse := funext h.run_eq
  rw [Clean, hrun]
  exact h

@[simp] theorem run_atomic (read : ReadM α) (bytes : Bytes) :
    run (atomic read) bytes = run read bytes := by
  rw [run, run, atomic]
  cases read (Reader.ofBytes bytes) <;> rfl

theorem Clean.local (h : Clean read) : Local read := by
  refine ⟨fun hrun => h.consumed_le (run_atomic read _ ▸ hrun), fun {r} hr => ?_⟩
  rw [run_atomic, atomic, h.eq hr]
  cases run read r.rest <;> rfl

theorem Parses.local (h : Parses read parse) : Local read :=
  h.clean.local

theorem Local.consumed_le {bytes : Bytes} (h : Local read) (hrun : run read bytes = .ok (a, n)) :
    n ≤ bytes.length :=
  Parses.consumed_le h (run_atomic read _ ▸ hrun)

theorem Local.ok_eq (h : Local read) (hr : r.Valid) (hrun : run read r.rest = .ok (a, n)) :
    read r = .ok a (r.advance n) := by
  have heq := Parses.eq h hr
  rw [run_atomic, hrun, atomic] at heq
  split at heq
  · next hread => exact hread.trans heq
  · cases heq

theorem Local.error_eq (h : Local read) (hr : r.Valid) (hrun : run read r.rest = .error e) :
    ∃ offset, read r = .error e { r with offset } := by
  have heq := Parses.eq h hr
  rw [run_atomic, hrun, atomic] at heq
  split at heq
  · cases heq
  · next e' r' hread =>
      -- put back to where it was, the cursor is the one before
      simp only [Reader.replay, EStateM.Result.error.injEq] at heq
      obtain ⟨rfl, hback⟩ := heq
      exact ⟨r'.offset, by rw [hread, ← hback]⟩

/-- A read is local if it does in either case what its run on the bytes ahead does. -/
theorem Local.intro
    (hle : ∀ {bytes a n}, run read bytes = .ok (a, n) → n ≤ bytes.length)
    (hok : ∀ {r : Reader} {a n}, r.Valid → run read r.rest = .ok (a, n) →
      read r = .ok a (r.advance n))
    (herror : ∀ {r : Reader} {e}, r.Valid → run read r.rest = .error e →
      ∃ offset, read r = .error e { r with offset }) : Local read := by
  refine ⟨fun hrun => hle (run_atomic read _ ▸ hrun), fun {r} hr => ?_⟩
  rw [run_atomic, atomic]
  cases hrun : run read r.rest with
  | ok answer => rw [hok hr hrun]; rfl
  | error e =>
    obtain ⟨offset, hread⟩ := herror hr hrun
    rw [hread]
    rfl

end Answers

/-! ## Sequences -/

section Sequences

variable {read : ReadM α} {next : α → ReadM β} {bytes : Bytes}

theorem bind_apply (read : ReadM α) (next : α → ReadM β) (r : Reader) :
    (read >>= next) r = match read r with
      | .ok a r' => next a r'
      | .error e r' => .error e r' := by
  simp only [Bind.bind, EStateM.bind]
  cases read r <;> rfl

theorem bind_of_ok {r r' : Reader} {a : α} (h : read r = .ok a r') :
    (read >>= next) r = next a r' := by
  rw [bind_apply, h]

theorem bind_of_error {r r' : Reader} {e : CodecError} (h : read r = .error e r') :
    (read >>= next) r = .error e r' := by
  rw [bind_apply, h]

theorem get_bind_apply (next : Reader → ReadM β) (r : Reader) :
    ((get : ReadM Reader) >>= next) r = next r r := rfl

@[simp] theorem throw_bind (e : CodecError) (next : α → ReadM β) :
    ((throw e : ReadM α) >>= next) = throw e := rfl

theorem parses_pure (a : α) : Parses (pure a) fun _ => .ok (a, 0) :=
  ⟨fun h => by cases h; exact Nat.zero_le _, fun _ => rfl⟩

theorem parses_throw (e : CodecError) : Parses (throw e : ReadM α) fun _ => .error e :=
  ⟨fun h => (nomatch h), fun _ => rfl⟩

theorem parses_ofExcept (result : Except CodecError α) :
    Parses (ofExcept result : ReadM α) fun _ => result.map (·, 0) := by
  cases result with
  | ok a => exact parses_pure a
  | error e => exact parses_throw e

theorem run_bind_of_error {e : CodecError} (hread : Local read)
    (h : run read bytes = .error e) : run (read >>= next) bytes = .error e := by
  obtain ⟨offset, heq⟩ := hread.error_eq (Reader.valid_ofBytes bytes)
    ((Reader.rest_ofBytes bytes).symm ▸ h)
  rw [run, bind_apply, heq]

/-- After a read, the next one goes on with the bytes that are left. -/
theorem run_bind_of_ok {a : α} {n : Nat} (hread : Local read) (hnext : Local (next a))
    (h : run read bytes = .ok (a, n)) :
    run (read >>= next) bytes =
      (run (next a) (bytes.drop n)).map fun answer => (answer.1, n + answer.2) := by
  have hvalid := (Reader.valid_ofBytes bytes).advance
    ((Reader.rest_ofBytes bytes).symm ▸ hread.consumed_le h)
  have hrest : ((Reader.ofBytes bytes).advance n).rest = bytes.drop n := by
    rw [Reader.rest_advance, Reader.rest_ofBytes]
  rw [run, bind_apply, hread.ok_eq (Reader.valid_ofBytes bytes)
    ((Reader.rest_ofBytes bytes).symm ▸ h)]
  dsimp only
  -- the second read stands `n` bytes on, so what it consumes is counted from there
  cases hrun : run (next a) (bytes.drop n) with
  | ok answer =>
    rw [hnext.ok_eq hvalid (hrest ▸ hrun), Reader.advance_advance]
    exact congrArg Except.ok (Prod.ext rfl (Nat.zero_add _))
  | error e =>
    obtain ⟨offset, heq⟩ := hnext.error_eq hvalid (hrest ▸ hrun)
    rw [heq]
    rfl

/-- What the second of two reads consumes comes after what the first one consumed. -/
theorem run_bind_eq_ok {b : β} {n : Nat} (hread : Local read) (hnext : ∀ a, Local (next a)) :
    run (read >>= next) bytes = .ok (b, n) ↔
      ∃ a m k, run read bytes = .ok (a, m) ∧ run (next a) (bytes.drop m) = .ok (b, k) ∧
        n = m + k := by
  constructor
  · intro h
    cases hrun : run read bytes with
    | error e => rw [run_bind_of_error hread hrun] at h; cases h
    | ok answer =>
      rw [run_bind_of_ok hread (hnext _) hrun] at h
      obtain ⟨second, hk, hanswer⟩ := ok_of_map h
      cases hanswer
      exact ⟨answer.1, answer.2, second.2, rfl, hk, rfl⟩
  · rintro ⟨a, m, k, hm, hk, rfl⟩
    rw [run_bind_of_ok hread (hnext a) hm, hk]
    rfl

theorem run_bind_eq_error {e : CodecError} (hread : Local read) (hnext : ∀ a, Local (next a)) :
    run (read >>= next) bytes = .error e ↔
      run read bytes = .error e ∨
        ∃ a m, run read bytes = .ok (a, m) ∧ run (next a) (bytes.drop m) = .error e := by
  cases hrun : run read bytes with
  | error e' => simp [run_bind_of_error hread hrun]
  | ok answer =>
    rw [run_bind_of_ok hread (hnext _) hrun]
    constructor
    · intro h
      exact .inr ⟨answer.1, answer.2, rfl, error_of_map h⟩
    · rintro (h | ⟨a, m, h, hk⟩) <;> cases h
      rw [hk]
      rfl

theorem Local.bind (hread : Local read) (hnext : ∀ a, Local (next a)) : Local (read >>= next) := by
  apply Local.intro
  · -- no more is consumed than there is
    intro bytes b n h
    obtain ⟨a, m, k, hm, hk, rfl⟩ := (run_bind_eq_ok hread hnext).mp h
    have h₁ := hread.consumed_le hm
    have h₂ := (hnext a).consumed_le hk
    rw [List.length_drop] at h₂
    omega
  · -- both succeed: the cursor moves on twice
    intro r b n hr h
    obtain ⟨a, m, k, hm, hk, rfl⟩ := (run_bind_eq_ok hread hnext).mp h
    rw [bind_of_ok (hread.ok_eq hr hm), ← Reader.advance_advance]
    exact (hnext a).ok_eq (hr.advance (hread.consumed_le hm)) (Reader.rest_advance r m ▸ hk)
  · -- one of the two fails, the second one perhaps after the first has moved the cursor
    intro r e hr h
    rcases (run_bind_eq_error hread hnext).mp h with h | ⟨a, m, hm, h⟩
    · obtain ⟨offset, heq⟩ := hread.error_eq hr h
      exact ⟨offset, bind_of_error heq⟩
    · rw [← Reader.rest_advance] at h
      obtain ⟨offset, heq⟩ := (hnext a).error_eq (hr.advance (hread.consumed_le hm)) h
      exact ⟨offset, (bind_of_ok (hread.ok_eq hr hm)).trans heq⟩

/-- A last step that only makes a value of what was read. -/
theorem Local.bind_pure (f : α → β) (hread : Local read) :
    Local (read >>= fun a => pure (f a)) :=
  hread.bind fun a => (parses_pure (f a)).local

theorem Local.map (f : α → β) (hread : Local read) : Local (f <$> read) :=
  hread.bind_pure f

theorem run_map (f : α → β) (hread : Local read) (bytes : Bytes) :
    run (f <$> read) bytes = (run read bytes).map fun answer => (f answer.1, answer.2) := by
  have hpure (a : α) : Local (pure (f a)) := (parses_pure (f a)).local
  show run (read >>= fun a => pure (f a)) bytes = _
  cases hrun : run read bytes with
  | ok answer => rw [run_bind_of_ok hread (hpure _) hrun]; rfl
  | error e => rw [run_bind_of_error hread hrun]; rfl

/-- A last step that only makes a value of what was read consumes nothing. -/
theorem run_bind_pure_eq_ok {f : α → β} {b : β} {n : Nat} (hread : Local read)
    (h : run (read >>= fun a => pure (f a)) bytes = .ok (b, n)) :
    ∃ a, run read bytes = .ok (a, n) ∧ b = f a := by
  obtain ⟨answer, hrun, hanswer⟩ := ok_of_map (run_map f hread bytes ▸ h)
  cases hanswer
  exact ⟨answer.1, hrun, rfl⟩

theorem Clean.map (f : α → β) (hread : Clean read) : Clean (f <$> read) := by
  refine ⟨fun {bytes b n} h => hread.local.map f |>.consumed_le h, fun {r} hr => ?_⟩
  rw [run_map f hread.local]
  show (read >>= fun a => pure (f a)) r = _
  rw [bind_apply, hread.eq hr]
  cases run read r.rest <;> rfl

theorem Local.times (hread : Local read) (n : Nat) : Local (times read n) := by
  induction n with
  | zero => exact (parses_pure []).local
  | succ n ih => exact hread.bind fun a => ih.bind_pure _

theorem Local.iterate {step : σ → ReadM σ} (hstep : ∀ s, Local (step s)) (n : Nat) (s : σ) :
    Local (iterate step n s) := by
  induction n generalizing s with
  | zero => exact (parses_pure s).local
  | succ n ih => exact (hstep s).bind ih

end Sequences

/-! ## The reads all others are made of -/

section Values

theorem ensure_apply (need : Nat) (r : Reader) :
    ensure need r = if r.remaining < need then
      .error (.insufficientData need r.remaining) r else .ok () r := by
  rw [ensure, get_bind_apply]
  split <;> rfl

theorem parses_ensure (need : Nat) : Parses (ensure need) fun bytes =>
    if bytes.length < need then .error (.insufficientData need bytes.length) else .ok ((), 0) := by
  refine ⟨fun h => ?_, fun {r} hr => ?_⟩
  · split at h <;> cases h
    exact Nat.zero_le _
  · rw [ensure_apply, Reader.length_rest hr]
    split <;> rfl

theorem seek_apply (offset : Nat) (r : Reader) :
    seek offset r = if r.capacity < offset then .error (.invalidSeek offset r.capacity) r
      else .ok () { r with offset } := by
  rw [seek, get_bind_apply]
  split <;> rfl

theorem parses_skip (count : Nat) : Parses (skip count) fun bytes =>
    if bytes.length < count then .error (.insufficientData count bytes.length)
    else .ok ((), count) := by
  refine ⟨fun h => ?_, fun {r} hr => ?_⟩
  · split at h <;> cases h
    omega
  · rw [skip, bind_apply, ensure_apply, Reader.length_rest hr]
    by_cases hlt : r.remaining < count
    · rw [if_pos hlt, if_pos hlt]
      rfl
    · rw [if_neg hlt, if_neg hlt]
      rfl

theorem take_apply {fetch : Source → Nat → Nat → Option Bytes} {r : Reader}
    (hfetch : ∀ source offset len, fetch source offset len =
      if offset + len ≤ source.size then some (source.bytes.window offset len) else none)
    (len : Nat) (hr : r.Valid) :
    take fetch len r = if r.rest.length < len then
      .error (.insufficientData len r.rest.length) r else .ok (r.rest.take len) r := by
  -- what is left of the capacity is also there in the source, so the fetch cannot fail
  rw [take, bind_apply, ensure_apply, Reader.length_rest hr]
  by_cases hlt : r.remaining < len
  · rw [if_pos hlt, if_pos hlt]
  · have hfits : r.offset + len ≤ r.source.size :=
      Nat.le_trans (hr.limit_le (Nat.le_of_not_lt hlt)) hr.capacity_le
    have hwindow : r.source.bytes.window r.offset len = r.rest.take len := by
      rw [Reader.rest, Bytes.window, Bytes.window, List.take_take]
      congr 1
      omega
    rw [if_neg hlt, if_neg hlt]
    dsimp only
    rw [get_bind_apply, hfetch, if_pos hfits, hwindow]
    rfl

theorem parses_primitive (p : Primitive α) : Parses (primitive p) fun bytes =>
    if bytes.length < p.size then .error (.insufficientData p.size bytes.length)
    else (p.decode (bytes.take p.size)).map (·, p.size) := by
  refine ⟨fun {bytes a n} h => ?_, fun {r} hr => ?_⟩
  · split at h
    · cases h
    · obtain ⟨value, -, hanswer⟩ := ok_of_map h
      cases hanswer
      omega
  · rw [primitive, bind_apply, take_apply Source.copy?_eq _ hr]
    by_cases hlt : r.rest.length < p.size
    · rw [if_pos hlt, if_pos hlt]
      rfl
    · rw [if_neg hlt, if_neg hlt]
      dsimp only
      cases p.decode (r.rest.take p.size) <;> rfl

theorem parses_bytes (len : Nat) : Parses (bytes len) fun bytes =>
    if bytes.length < len then .error (.insufficientData len bytes.length)
    else .ok (bytes.take len, len) := by
  refine ⟨fun h => ?_, fun {r} hr => ?_⟩
  · split at h <;> cases h
    omega
  · rw [bytes, bind_apply, take_apply Source.slice?_eq _ hr]
    by_cases hlt : r.rest.length < len
    · rw [if_pos hlt, if_pos hlt]
      rfl
    · rw [if_neg hlt, if_neg hlt]
      rfl

theorem within_apply (len : Nat) (read : ReadM α) (r : Reader) :
    within len read r = if r.remaining < len then .error (.insufficientData len r.remaining) r
      else match atomic read { r with capacity := r.offset + len } with
        | .ok a r' => .ok a { r' with capacity := r.capacity }
        | .error e r' => .error e { r' with capacity := r.capacity } := by
  have hensure := ensure_apply len r
  by_cases hlt : r.remaining < len
  · rw [if_pos hlt] at hensure ⊢
    exact bind_of_error hensure
  · rw [if_neg hlt] at hensure ⊢
    exact bind_of_ok hensure

/-- Under a limit a read is run on the bytes up to the limit, wherever the cursor stands. -/
theorem parses_within {read : ReadM α} (hread : Local read) (len : Nat) :
    Parses (within len read) fun bytes =>
      if bytes.length < len then .error (.insufficientData len bytes.length)
      else run read (bytes.take len) := by
  refine ⟨fun {bytes a n} h => ?_, fun {r} hr => ?_⟩
  · split at h
    · cases h
    · have hle := hread.consumed_le h
      rw [List.length_take] at hle
      omega
  · rw [within_apply, Reader.length_rest hr]
    by_cases hlt : r.remaining < len
    · rw [if_pos hlt, if_pos hlt]
      rfl
    · have hlen := Nat.le_of_not_lt hlt
      rw [if_neg hlt, if_neg hlt]
      -- under the limit the bytes ahead are the first `len` of those ahead before
      rw [Parses.eq hread (hr.limit hlen), run_atomic, Reader.rest_limit hlen]
      cases run read (r.rest.take len) <;> rfl

theorem Parses.mapError {read : ReadM α} {parse : Bytes → Except CodecError (α × Nat)}
    (h : Parses read parse) (f : CodecError → CodecError) :
    Parses (mapError f read) fun bytes => (parse bytes).mapError f := by
  refine ⟨fun {bytes a n} hparse => ?_, fun {r} hr => ?_⟩
  · cases hp : parse bytes <;> rw [hp] at hparse <;> cases hparse
    exact h.consumed_le hp
  · rw [Read.mapError, h.eq hr]
    cases parse r.rest <;> rfl

end Values

/-! ## Strings and counts -/

theorem local_textOfLength (length : Int32) : Local (textOfLength length) := by
  unfold textOfLength
  simp only [throw_bind]
  split
  · exact (parses_pure none).local
  split
  · exact (parses_throw _).local
  refine (parses_bytes _).local.bind fun content => ?_
  split
  · exact (parses_pure _).local
  · exact (parses_throw _).local

theorem clean_text : Clean text :=
  Local.bind (parses_primitive .i32).local local_textOfLength

theorem clean_requiredText : Clean requiredText := by
  refine Local.bind clean_text.local fun s => ?_
  split
  · exact (parses_pure _).local
  · exact (parses_throw _).local

theorem local_countOfPrefix (minSize : Nat) (prefixed : Int32) :
    Local (countOfPrefix minSize prefixed) := by
  unfold countOfPrefix
  simp only [throw_bind]
  split
  · exact (parses_throw _).local
  split
  · exact (parses_throw _).local
  split
  · exact (parses_throw _).local
  exact (parses_ensure _).local.bind_pure _

theorem clean_count (minSize : Nat) : Clean (count minSize) :=
  Local.bind (parses_primitive .i32).local (local_countOfPrefix minSize)

end ChatCodec.Read
