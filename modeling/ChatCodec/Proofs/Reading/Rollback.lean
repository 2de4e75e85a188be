import ChatCodec.Proofs.RoundTrip.Takes

/-!
# Reads that fail stay where they are

A read that fails in the middle has moved on already; a block with rollback puts the cursor back.
This is shown of reads about which nothing is known but that they move their cursor inside its
capacity and do nothing else to it. What they answer may depend on where they stand.

* `Reader.Moved` — one cursor is another at a different place;
* `Read.Moves` — a read that moves its cursor, whether it succeeds or not;
* `Read.Stays` — one that leaves it where it was when it fails;
* `Read.TakesAnywhere` — wherever the bytes lie ahead, the read takes just them.

Main results: `Read.Moves.atomic`, and the laws by which values are taken one after another.
-/

namespace ChatCodec

variable {α β : Type}

/-! ## Cursors -/

namespace Reader

/-- The cursor `r'` is `r` at another place inside its capacity. -/
def Moved (r r' : Reader) : Prop :=
  ∃ offset, offset ≤ r.capacity ∧ r' = { r with offset }

variable {r r' r'' : Reader}

theorem Moved.refl (hr : r.Valid) : r.Moved r :=
  ⟨r.offset, hr.offset_le, rfl⟩

theorem Moved.trans (h : r.Moved r') (h' : r'.Moved r'') : r.Moved r'' := by
  obtain ⟨offset, -, rfl⟩ := h
  obtain ⟨offset', hle, rfl⟩ := h'
  exact ⟨offset', hle, rfl⟩

theorem Moved.valid (h : r.Moved r') (hr : r.Valid) : r'.Valid := by
  obtain ⟨offset, hle, rfl⟩ := h
  exact ⟨hle, hr.capacity_le⟩

theorem moved_advance {n : Nat} (hr : r.Valid) (h : n ≤ r.rest.length) : r.Moved (r.advance n) :=
  ⟨r.offset + n, (hr.advance h).offset_le, rfl⟩

end Reader

namespace Read

variable {read : ReadM α} {next : α → ReadM β} {a : α} {b : β} {src more : Bytes}

/-! ## Where the cursor goes -/

/-- The read moves its cursor inside the capacity, whether it succeeds or not. -/
structure Moves (read : ReadM α) : Prop where
  ok : ∀ {r a r'}, r.Valid → read r = .ok a r' → r.Moved r'
  error : ∀ {r e r'}, r.Valid → read r = .error e r' → r.Moved r'

/-- The read moves its cursor inside the capacity, and leaves it as it was where it fails. -/
structure Stays (read : ReadM α) : Prop where
  ok : ∀ {r a r'}, r.Valid → read r = .ok a r' → r.Moved r'
  error : ∀ {r e r'}, r.Valid → read r = .error e r' → r' = r

theorem Stays.moves (h : Stays read) : Moves read where
  ok := h.ok
  error hr herror := by
    rw [h.error hr herror]
    exact .refl hr

theorem Clean.stays (h : Clean read) : Stays read where
  ok {r a r'} hr hok := by
    rw [h.eq hr] at hok
    cases hrun : run read r.rest with
    | ok answer =>
      rw [hrun] at hok
      cases hok
      exact Reader.moved_advance hr (h.consumed_le hrun)
    | error e =>
      rw [hrun] at hok
      cases hok
  error {r e r'} hr herror := by
    rw [h.eq hr] at herror
    cases hrun : run read r.rest <;> rw [hrun] at herror <;> cases herror
    rfl

theorem stays_pure (a : α) : Stays (pure a : ReadM α) :=
  (parses_pure a).clean.stays

theorem stays_throw (e : CodecError) : Stays (throw e : ReadM α) :=
  (parses_throw e).clean.stays

theorem Moves.bind (h : Moves read) (hnext : ∀ a, Moves (next a)) : Moves (read >>= next) := by
  constructor
  · intro r b r' hr hok
    rw [bind_apply] at hok
    cases hread : read r with
    | ok a v =>
      rw [hread] at hok
      have hmoved := h.ok hr hread
      exact hmoved.trans ((hnext a).ok (hmoved.valid hr) hok)
    | error e v =>
      rw [hread] at hok
      cases hok
  · intro r e r' hr herror
    rw [bind_apply] at herror
    cases hread : read r with
    | ok a v =>
      rw [hread] at herror
      have hmoved := h.ok hr hread
      exact hmoved.trans ((hnext a).error (hmoved.valid hr) herror)
    | error e' v =>
      rw [hread] at herror
      cases herror
      exact h.error hr hread

/-- A block with rollback puts the cursor back to where it was before the failure. -/
theorem Moves.atomic (h : Moves read) : Stays (atomic read) := by
  constructor
  · intro r a r' hr hok
    rw [Read.atomic] at hok
    split at hok
    · next hread =>
      cases hok
      exact h.ok hr hread
    · cases hok
  · intro r e r' hr herror
    rw [Read.atomic] at herror
    split at herror
    · cases herror
    · next hread =>
      cases herror
      -- only the offset was changed, and that is restored
      obtain ⟨offset, -, rfl⟩ := h.error hr hread
      rfl

/-- What is made of the value does not matter to the cursor. -/
theorem Stays.map (h : Stays read) (f : α → β) : Stays (f <$> read) := by
  have hbind : (f <$> read) = read >>= fun a => pure (f a) := rfl
  rw [hbind]
  constructor
  · intro r b r' hr hok
    rw [bind_apply] at hok
    split at hok <;> cases hok
    next hread => exact h.ok hr hread
  · intro r e r' hr herror
    rw [bind_apply] at herror
    split at herror <;> cases herror
    next hread => exact h.error hr hread

theorem Moves.times (h : Moves read) (n : Nat) : Moves (times read n) := by
  induction n with
  | zero => exact (stays_pure []).moves
  | succ n ih => exact h.bind fun a => ih.bind fun rest => (stays_pure (a :: rest)).moves

/-! ## What is taken -/

/-- Wherever a reader meets the bytes, in front of whatever else, the read takes just them and
answers `a`. A reader has fewer bytes ahead than there are 64-bit numbers. -/
def TakesAnywhere (read : ReadM α) (src : Bytes) (a : α) : Prop :=
  ∀ r rest, r.Valid → r.rest = src ++ rest → r.rest.length < UInt64.size →
    read r = .ok a (r.advance src.length)

theorem Local.takesAnywhere (hread : Local read)
    (h : src.length < UInt64.size → Takes read src a) : TakesAnywhere read src a := by
  intro r rest hr hrest hsmall
  have hlen : src.length < UInt64.size := by
    rw [hrest, List.length_append] at hsmall
    omega
  exact hread.ok_eq hr (hrest ▸ h hlen rest)

theorem takesAnywhere_pure (a : α) : TakesAnywhere (pure a) [] a :=
  fun _ _ _ _ _ => rfl

/-- Behind the bytes that were taken, the next ones are met. -/
theorem bind_of_taken {r : Reader} {rest : Bytes} (hr : r.Valid)
    (hrest : r.rest = src ++ (more ++ rest)) (hsmall : r.rest.length < UInt64.size)
    (hread : read r = .ok a (r.advance src.length)) (hnext : TakesAnywhere (next a) more b) :
    (read >>= next) r = .ok b (r.advance (src ++ more).length) := by
  have hle : src.length ≤ r.rest.length := by
    rw [hrest, List.length_append]
    exact Nat.le_add_right _ _
  have hbehind : (r.advance src.length).rest = more ++ rest := by
    rw [Reader.rest_advance, hrest, List.drop_left]
  have hfew : (r.advance src.length).rest.length < UInt64.size := by
    rw [Reader.rest_advance, List.length_drop]
    omega
  rw [bind_of_ok hread, hnext _ rest (hr.advance hle) hbehind hfew, Reader.advance_advance,
    List.length_append]

theorem TakesAnywhere.bind (h : TakesAnywhere read src a) (hnext : TakesAnywhere (next a) more b) :
    TakesAnywhere (read >>= next) (src ++ more) b := by
  intro r rest hr hrest hsmall
  rw [List.append_assoc] at hrest
  exact bind_of_taken hr hrest hsmall (h r (more ++ rest) hr hrest hsmall) hnext

theorem TakesAnywhere.bind_pure (h : TakesAnywhere read src a) (f : α → β) :
    TakesAnywhere (read >>= fun a => pure (f a)) src (f a) := by
  intro r rest hr hrest hsmall
  rw [bind_apply, h r rest hr hrest hsmall]
  rfl

theorem TakesAnywhere.map (h : TakesAnywhere read src a) (f : α → β) :
    TakesAnywhere (f <$> read) src (f a) :=
  h.bind_pure f

theorem TakesAnywhere.atomic (h : TakesAnywhere read src a) :
    TakesAnywhere (atomic read) src a := by
  intro r rest hr hrest hsmall
  rw [Read.atomic, h r rest hr hrest hsmall]

/-- A count is taken in front of elements that have the least size they must have. -/
theorem takesAnywhere_counted {body : Nat → ReadM β} {n minSize : Nat} {length : Int32}
    (hprefixed : Write.prefix32 n = .ok length) (hsize : n * minSize ≤ more.length)
    (hempty : minSize = 0 → n ≤ maxEmptyElements) (hmore : TakesAnywhere (body n) more b) :
    TakesAnywhere (count minSize >>= body) (Primitive.i32.encode length ++ more) b := by
  intro r rest hr hrest hsmall
  rw [List.append_assoc] at hrest
  have hmany : more.length < UInt64.size := by
    rw [hrest, List.length_append, List.length_append] at hsmall
    omega
  -- the count asks for all the elements, which are ahead of it already
  have hcount : count minSize r = .ok n (r.advance (Primitive.i32.encode length).length) := by
    refine (clean_count minSize).local.ok_eq hr ?_
    rw [hrest]
    exact run_count hprefixed hsize hempty hmany rest
  exact bind_of_taken hr hrest hsmall hcount hmore

end Read

end ChatCodec
