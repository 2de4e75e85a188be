import ChatCodec.Proofs.Reading.Hereditary
import ChatCodec.Proofs.Reading.Layouts

/-!
# Answers that more input does not change

Only a shortage of input is worth waiting on. A local read is final when any other answer of it, a
value or an error, stays the same however many bytes follow those it was run on.

* `Read.IsShort` — an answer says that bytes are missing;
* `Read.Final` — more bytes change no answer that is not short.

Main results: `Final.isShort_part`, and by `hereditary_final` that headers and values of every
layout are final (`Header.final_read`, `Layout.final_read`).
-/

namespace ChatCodec

open Read

variable {α β : Type}

namespace Read

/-! ## Shortages -/

/-- The answer says that bytes are missing. -/
def IsShort (answer : Except CodecError α) : Prop :=
  ∃ need available, answer = .error (.insufficientData need available)

theorem isShort_error {e : CodecError} :
    IsShort (.error e : Except CodecError α) ↔ e.isInsufficientData = true := by
  cases e <;> simp [IsShort, CodecError.isInsufficientData]

@[simp] theorem not_isShort_ok (a : α) : ¬ IsShort (.ok a : Except CodecError α) := by
  simp [IsShort]

@[simp] theorem isShort_map {answer : Except CodecError α} {f : α → β} :
    IsShort (answer.map f) ↔ IsShort answer := by
  cases answer with
  | ok a => exact iff_of_false (not_isShort_ok (f a)) (not_isShort_ok a)
  | error e => exact isShort_error.trans isShort_error.symm

/-! ## Final reads -/

/-- The read is local, and bytes that follow change none of its answers but a shortage. -/
structure Final (read : ReadM α) : Prop where
  toLocal : Local read
  ok : ∀ {bytes answer} (more : Bytes), run read bytes = .ok answer →
    run read (bytes ++ more) = .ok answer
  error : ∀ {bytes e} (more : Bytes), run read bytes = .error e → e.isInsufficientData = false →
    run read (bytes ++ more) = .error e

variable {read : ReadM α} {next : α → ReadM β} {src part : Bytes} {a : α}

/-- Any answer of a final read but a shortage is the answer for good. -/
theorem Final.append (h : Final read) (hshort : ¬ IsShort (run read src)) (more : Bytes) :
    run read (src ++ more) = run read src := by
  cases hrun : run read src with
  | ok answer => exact h.ok more hrun
  | error e =>
    rw [hrun, isShort_error, Bool.not_eq_true] at hshort
    exact h.error more hrun hshort

/-- A part of some bytes that are all consumed is short. -/
theorem Final.isShort_part (h : Final read) (hrun : run read src = .ok (a, src.length))
    (hpart : part <+: src) (hne : part ≠ src) : IsShort (run read part) := by
  apply Classical.byContradiction
  intro hnot
  -- it would be read as the whole is, of which it has too few bytes
  obtain ⟨more, rfl⟩ := hpart
  have hwhole := h.append hnot more
  rw [hrun] at hwhole
  have hle := h.toLocal.consumed_le hwhole.symm
  rw [List.length_append] at hle
  have hmore : more = [] := List.length_eq_zero_iff.mp (by omega)
  exact hne (by rw [hmore, List.append_nil])

theorem final_pure (a : α) : Final (pure a : ReadM α) where
  toLocal := (parses_pure a).local
  ok _ h := h
  error _ h := by cases h

theorem final_throw (e : CodecError) : Final (throw e : ReadM α) where
  toLocal := (parses_throw e).local
  ok _ h := by cases h
  error _ h _ := h

/-- A read is final that is short until so many bytes are ahead, and looks at none behind them. -/
theorem Parses.final {size : Nat} (answer : Bytes → Except CodecError (α × Nat))
    (h : Parses read fun bytes =>
      if bytes.length < size then .error (.insufficientData size bytes.length)
      else answer (bytes.take size)) : Final read := by
  have hrun {bytes : Bytes} (more : Bytes) (hnot : ¬ IsShort (run read bytes)) :
      run read (bytes ++ more) = run read bytes := by
    -- an answer that is not short was given by the first bytes, which are first in both inputs
    have hle : size ≤ bytes.length := Nat.le_of_not_lt fun hlt => hnot (by
      rw [h.run_eq, if_pos hlt]
      exact ⟨_, _, rfl⟩)
    have hle' : size ≤ (bytes ++ more).length := by
      rw [List.length_append]
      omega
    rw [h.run_eq, h.run_eq, if_neg (Nat.not_lt.mpr hle), if_neg (Nat.not_lt.mpr hle'),
      List.take_append_of_le_length hle]
  refine ⟨h.local, fun more hok => ?_, fun {bytes e} more herror he => ?_⟩
  · rw [hrun more (hok ▸ not_isShort_ok _), hok]
  · have hnot : ¬ IsShort (run read bytes) := by
      rw [herror, isShort_error, he]
      exact Bool.false_ne_true
    rw [hrun more hnot, herror]

theorem final_primitive (p : Primitive α) : Final (primitive p) :=
  (parses_primitive p).final fun content => (p.decode content).map (·, p.size)

theorem final_bytes (len : Nat) : Final (bytes len) :=
  (parses_bytes len).final fun content => .ok (content, len)

theorem final_ensure (need : Nat) : Final (ensure need) :=
  (parses_ensure need).final fun _ => .ok ((), 0)

/-- After a final read, the next one goes on with the bytes left and those that follow. -/
theorem Final.bind (h : Final read) (hnext : ∀ a, Final (next a)) : Final (read >>= next) := by
  have hlocal (a : α) : Local (next a) := (hnext a).toLocal
  refine ⟨h.toLocal.bind hlocal, fun {bytes answer} more hrun => ?_,
    fun {bytes e} more hrun he => ?_⟩
  · -- the bytes that follow the input also follow what the first read leaves of it
    obtain ⟨a, m, k, h₁, h₂, hn⟩ := (run_bind_eq_ok h.toLocal hlocal).mp hrun
    refine (run_bind_eq_ok h.toLocal hlocal).mpr ⟨a, m, k, h.ok more h₁, ?_, hn⟩
    rw [List.drop_append_of_le_length (h.toLocal.consumed_le h₁)]
    exact (hnext a).ok more h₂
  · rcases (run_bind_eq_error h.toLocal hlocal).mp hrun with h₁ | ⟨a, m, h₁, h₂⟩
    · exact (run_bind_eq_error h.toLocal hlocal).mpr (.inl (h.error more h₁ he))
    · refine (run_bind_eq_error h.toLocal hlocal).mpr (.inr ⟨a, m, h.ok more h₁, ?_⟩)
      rw [List.drop_append_of_le_length (h.toLocal.consumed_le h₁)]
      exact (hnext a).error more h₂ he

theorem Final.map (h : Final read) (f : α → β) : Final (f <$> read) :=
  h.bind fun a => final_pure (f a)

theorem Final.atomic (h : Final read) : Final (atomic read) where
  toLocal := Clean.local h.toLocal
  ok more hrun := by
    rw [run_atomic] at hrun ⊢
    exact h.ok more hrun
  error more hrun he := by
    rw [run_atomic] at hrun ⊢
    exact h.error more hrun he

/-- What is made of final reads is final. -/
theorem hereditary_final : Hereditary @Final where
  pure := final_pure
  throw _ := final_throw _
  primitive := final_primitive
  bytes := final_bytes
  ensure := final_ensure
  bind := Final.bind
  atomic := Final.atomic

end Read

/-- Whatever a header is found to be, more bytes do not change it. -/
theorem Header.final_read (signature : UInt16) (limit : Nat) : Final (read signature limit) :=
  hereditary_read hereditary_final signature limit

theorem Layout.final_read (layout : Layout α) : Final layout.read :=
  layout.hereditary_read hereditary_final

end ChatCodec
