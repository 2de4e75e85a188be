import ChatCodec.Proofs.Reading.Hereditary

/-!
# Shortages that are real

An error that tells of a shortage gives two numbers, of the bytes wanted and of those there are. The
reads that packets are made of tell the truth: there are fewer than wanted, and no more than the
input has. None of them tells that a whole body has the wrong size, since none knows about bodies.

* `CodecError.IsTrue` — what an error may tell of an input of so many bytes;
* `Read.Honest` — a local read whose errors are true of the bytes it is run on.

Main results: `Read.hereditary_honest` and `Serializer.Composed.honest`.
-/

namespace ChatCodec

open Read

/-- The error is a refusal, or tells of a shortage of bytes in an input of `n`. -/
def CodecError.IsTrue (n : Nat) (e : CodecError) : Prop :=
  e.IsRefusal ∨ ∃ need available, e = .insufficientData need available ∧ available < need ∧
    available ≤ n

/-- A primitive is refused for what its bytes say. -/
theorem Primitive.isRefusal_of_decode {α : Type} {p : Primitive α} {bytes : Bytes} {e : CodecError}
    (h : p.decode bytes = .error e) : e.IsRefusal := by
  cases p with
  | bool =>
    rw [decode] at h
    split at h <;> cases h
    trivial
  | _ => cases h

namespace Read

/-- The read is local, and its errors are true of the bytes ahead. -/
structure Honest {α : Type} (read : ReadM α) : Prop where
  toLocal : Local read
  error : ∀ {bytes e}, run read bytes = .error e → e.IsTrue bytes.length

/-- A read is honest that is short until so many bytes are ahead, and then refuses what they say. -/
theorem Parses.honest {α : Type} {read : ReadM α} {size : Nat}
    {answer : Bytes → Except CodecError (α × Nat)}
    (h : Parses read fun bytes =>
      if bytes.length < size then .error (.insufficientData size bytes.length) else answer bytes)
    (hanswer : ∀ {bytes e}, answer bytes = .error e → e.IsRefusal) : Honest read := by
  refine ⟨h.local, fun {bytes e} hrun => ?_⟩
  rw [h.run_eq] at hrun
  split at hrun
  · next hlt =>
    cases hrun
    exact .inr ⟨_, _, rfl, hlt, Nat.le_refl _⟩
  · exact .inl (hanswer hrun)

theorem honest_skip (count : Nat) : Honest (skip count) :=
  (parses_skip count).honest fun h => nomatch h

/-- What an honest read tells is true of what a cursor has before it. -/
theorem Honest.isTrue {α : Type} {read : ReadM α} {r r' : Reader} {e : CodecError}
    (h : Honest read) (hr : r.Valid) (herror : read r = .error e r') : e.IsTrue r.remaining := by
  rw [← Reader.length_rest hr]
  cases hrun : run read r.rest with
  | ok answer =>
    rw [h.toLocal.ok_eq hr hrun] at herror
    cases herror
  | error e' =>
    obtain ⟨offset, heq⟩ := h.toLocal.error_eq hr hrun
    rw [heq] at herror
    cases herror
    exact h.error hrun

/-- What is made of honest reads is honest: a shortage met behind some bytes is a shortage of the
whole input. -/
theorem hereditary_honest : Hereditary @Honest where
  pure a := ⟨(parses_pure a).local, fun h => nomatch h⟩
  throw {α e} he := ⟨(parses_throw e).local, fun h => by
    cases (parses_throw (α := α) e).run_eq _ ▸ h
    exact .inl he⟩
  primitive p := (parses_primitive p).honest fun h =>
    Primitive.isRefusal_of_decode (error_of_map h)
  bytes len := (parses_bytes len).honest fun h => nomatch h
  ensure need := (parses_ensure need).honest fun h => nomatch h
  bind {α β read next} hread hnext := by
    have hlocal (a : α) : Local (next a) := (hnext a).toLocal
    refine ⟨hread.toLocal.bind hlocal, fun {bytes e} h => ?_⟩
    rcases (run_bind_eq_error hread.toLocal hlocal).mp h with h | ⟨a, n, -, h⟩
    · exact hread.error h
    · -- what is left after the first read is no more than there was
      refine ((hnext a).error h).imp_right fun ⟨need, available, he, hlt, hle⟩ =>
        ⟨need, available, he, hlt, ?_⟩
      rw [List.length_drop] at hle
      omega
  atomic {α read} hread := by
    refine ⟨Clean.local hread.toLocal, fun h => ?_⟩
    rw [run_atomic] at h
    exact hread.error h

end Read

namespace Serializer

variable {α : Type} {s : Serializer α}

/-- The serializer reads honestly. -/
def Honest (s : Serializer α) : Prop :=
  Read.Honest s.deserialize

/-- A serializer made of honest ones is honest. -/
theorem Composed.honest (h : s.Composed @Serializer.Honest) : s.Honest :=
  h.deserialize hereditary_honest

end Serializer

end ChatCodec
