import ChatCodec.Proofs.Segments.Contents
import ChatCodec.Reader

/-!
# Cursors and the bytes ahead of them

A cursor has a position in a source, and the source may lie in pieces. Of all this a read needs the
bytes ahead only, `Reader.rest`:

* `Reader.Valid` — the cursor stands inside its capacity and the capacity inside the source;
* `Reader.advance`, `Reader.replay` — the cursor after some bytes were consumed, and after an
  answer.

Main results: `Source.copy?_eq` and `Source.slice?_eq`, by which a source is its bytes, and
`rest_advance`, `rest_limit` and `rest_ofSegments`, which say what lies ahead.
-/

namespace ChatCodec

/-! ## Sources -/

theorem Source.size_eq (source : Source) : source.size = source.bytes.length := by
  cases source with
  | contiguous bytes => rfl
  | segmented segments => exact segments.size_eq_length

theorem Source.copy?_eq (source : Source) (offset len : Nat) :
    source.copy? offset len =
      if offset + len ≤ source.size then some (source.bytes.window offset len) else none := by
  cases source with
  | contiguous bytes => rfl
  | segmented segments => exact segments.copy?_eq offset len

/-- Whether the bytes are taken from one segment or gathered makes no difference. -/
theorem Source.slice?_eq (source : Source) (offset len : Nat) :
    source.slice? offset len =
      if offset + len ≤ source.size then some (source.bytes.window offset len) else none := by
  cases source with
  | contiguous bytes => rfl
  | segmented segments =>
    rw [slice?]
    split
    · next bytes h =>
        obtain ⟨hle, rfl⟩ := Segments.sliceWithin?_eq_some h
        exact (if_pos hle).symm
    · exact segments.copy?_eq offset len

/-! ## Cursors -/

namespace Reader

/-- The cursor stands inside its capacity, and the capacity inside the source. -/
structure Valid (r : Reader) : Prop where
  offset_le : r.offset ≤ r.capacity
  capacity_le : r.capacity ≤ r.source.size

/-- The cursor moved on by `n` bytes. -/
def advance (r : Reader) (n : Nat) : Reader :=
  { r with offset := r.offset + n }

/-- What a cursor becomes by an answer: it moves on by the bytes consumed, or stays. -/
def replay {α : Type} (r : Reader) :
    Except CodecError (α × Nat) → EStateM.Result CodecError Reader α
  | .ok (a, n) => .ok a (r.advance n)
  | .error e => .error e r

theorem length_rest {r : Reader} (h : r.Valid) : r.rest.length = r.remaining := by
  have hoffset := h.offset_le
  have hcapacity := h.capacity_le
  rw [Source.size_eq] at hcapacity
  exact Bytes.length_window (by rw [remaining]; omega)

theorem Valid.advance {r : Reader} {n : Nat} (h : r.Valid) (hn : n ≤ r.rest.length) :
    (r.advance n).Valid := by
  have hoffset := h.offset_le
  rw [length_rest h, remaining] at hn
  exact ⟨by rw [Reader.advance]; dsimp only; omega, h.capacity_le⟩

theorem rest_advance (r : Reader) (n : Nat) : (r.advance n).rest = r.rest.drop n := by
  rw [rest, rest, Bytes.window, Bytes.window, List.drop_take, List.drop_drop]
  congr 1
  rw [remaining, remaining, advance]
  dsimp only
  omega

theorem advance_advance (r : Reader) (m n : Nat) : (r.advance m).advance n = r.advance (m + n) := by
  simp only [advance, Nat.add_assoc]

theorem valid_ofBytes (bytes : Bytes) : (ofBytes bytes).Valid :=
  ⟨Nat.zero_le _, Nat.le_refl _⟩

@[simp] theorem rest_ofBytes (bytes : Bytes) : (ofBytes bytes).rest = bytes := by
  show (bytes.drop 0).take (bytes.length - 0) = bytes
  rw [List.drop_zero, Nat.sub_zero, List.take_length]

/-- A limit lies inside the capacity. -/
theorem Valid.limit_le {r : Reader} {len : Nat} (h : r.Valid) (hlen : len ≤ r.remaining) :
    r.offset + len ≤ r.capacity := by
  have hoffset := h.offset_le
  rw [remaining] at hlen
  omega

/-- A cursor that sees only the next `len` bytes. -/
theorem Valid.limit {r : Reader} {len : Nat} (h : r.Valid) (hlen : len ≤ r.remaining) :
    ({ r with capacity := r.offset + len } : Reader).Valid :=
  ⟨Nat.le_add_right _ _, Nat.le_trans (h.limit_le hlen) h.capacity_le⟩

theorem rest_limit {r : Reader} {len : Nat} (hlen : len ≤ r.remaining) :
    ({ r with capacity := r.offset + len } : Reader).rest = r.rest.take len := by
  rw [remaining] at hlen
  rw [rest, rest, Bytes.window, Bytes.window, List.take_take, remaining, remaining]
  congr 1
  dsimp only
  omega

end Reader

/-! ## Segmented buffers -/

namespace Reader

theorem first_eq_toBytes {s : Segments} (h : s.isContiguous = true) : s.first = s.toBytes := by
  -- one piece or none: an empty buffer has no first piece, and no bytes either
  have hlen : s.pieces.length ≤ 1 := by simpa [Segments.isContiguous] using h
  rw [Segments.first, Segments.toBytes]
  cases hp : s.pieces with
  | nil => rfl
  | cons piece rest =>
    cases rest with
    | nil => simp
    | cons => simp [hp] at hlen

theorem valid_ofSegments (s : Segments) : (ofSegments s).Valid := by
  unfold ofSegments
  split
  · exact valid_ofBytes _
  · exact ⟨Nat.zero_le _, Nat.le_refl _⟩

theorem offset_ofSegments (s : Segments) : (ofSegments s).offset = 0 := by
  unfold ofSegments
  split <;> rfl

theorem capacity_ofSegments (s : Segments) : (ofSegments s).capacity = s.toBytes.length := by
  unfold ofSegments
  split
  · next h => rw [← first_eq_toBytes h]; rfl
  · exact s.size_eq_length

theorem bytes_ofSegments (s : Segments) : (ofSegments s).source.bytes = s.toBytes := by
  unfold ofSegments
  split
  · next h => exact first_eq_toBytes h
  · rfl

@[simp] theorem rest_ofSegments (s : Segments) : (ofSegments s).rest = s.toBytes := by
  rw [rest, bytes_ofSegments, remaining, offset_ofSegments, capacity_ofSegments, Bytes.window,
    List.drop_zero, Nat.sub_zero, List.take_length]

end Reader

end ChatCodec
