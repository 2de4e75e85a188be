import ChatCodec.Segments
import Mathlib.Data.List.GetD

/-!
# The contents of a segmented buffer

What each operation on `Segments` does to the bytes it stands for. Nothing else about a buffer
depends on how the bytes were cut into pieces.

Main results:

* `toBytes_push`, `toBytes_ofPieces` — pushing appends;
* `toBytes_split_fst`, `toBytes_split_snd`, `toBytes_drop` — the first bytes and the rest;
* `copy?_eq` — a copy is the range of the bytes, wherever the cuts lie;
* `sliceWithin?_eq_some` — a slice inside one piece is the same range.
-/

namespace ChatCodec.Segments

theorem size_eq_length (s : Segments) : s.size = s.toBytes.length :=
  s.size_eq

@[simp] theorem toBytes_empty : empty.toBytes = [] := rfl

/-! ## Appending -/

@[simp] theorem toBytes_push (s : Segments) (piece : Bytes) :
    (s.push piece).toBytes = s.toBytes ++ piece := by
  unfold push
  split
  · next h => rw [h, List.append_nil]
  · simp [toBytes]

theorem toBytes_foldl_push (s : Segments) (pieces : List Bytes) :
    (pieces.foldl push s).toBytes = s.toBytes ++ pieces.flatten := by
  induction pieces generalizing s with
  | nil => simp
  | cons piece rest ih =>
    rw [List.foldl_cons, ih, toBytes_push, List.flatten_cons, List.append_assoc]

@[simp] theorem toBytes_ofPieces (pieces : List Bytes) :
    (ofPieces pieces).toBytes = pieces.flatten := by
  rw [ofPieces, toBytes_foldl_push, toBytes_empty, List.nil_append]

/-! ## Taking bytes off the front -/

theorem splitPieces_flatten (pieces : List Bytes) (ends : List Nat) (n : Nat) :
    (splitPieces pieces ends n).1.flatten = pieces.flatten.take n := by
  induction pieces generalizing ends n with
  | nil => cases n <;> simp [splitPieces]
  | cons piece rest ih =>
    cases n with
    | zero => simp [splitPieces]
    | succ n =>
      rw [splitPieces]
      split
      · -- the piece goes whole, and the rest of the pieces give what is missing
        next hle =>
          rw [List.flatten_cons, List.flatten_cons, ih, List.take_append,
            List.take_of_length_le hle]
      · -- the cut lies inside the piece
        next hgt =>
          have hcut : n + 1 - piece.length = 0 := by omega
          rw [List.flatten_cons, List.flatten_cons, List.take_append, hcut, List.take_zero,
            List.flatten_nil]

@[simp] theorem toBytes_split_fst (s : Segments) (n : Nat) :
    (s.split n).1.toBytes = s.toBytes.take n := by
  rw [split, toBytes_ofPieces, splitPieces_flatten, toBytes]

@[simp] theorem toBytes_split_snd (s : Segments) (n : Nat) :
    (s.split n).2.toBytes = s.toBytes.drop n :=
  (s.ends_eq ▸ splitPieces_rest s.ne_nil s.taken n).2.2

@[simp] theorem toBytes_drop (s : Segments) (n : Nat) : (s.drop n).toBytes = s.toBytes.drop n :=
  toBytes_split_snd s n

/-! ## Finding an offset -/

/-- The piece that holds an offset: it is the piece after those that end at or before the offset,
and the rest of the bytes begin inside it. -/
theorem takeWhile_endsFrom {pieces : List Bytes} (start : Nat) {offset : Nat}
    (h : offset < pieces.flatten.length) :
    let index := ((endsFrom start pieces).takeWhile (· ≤ start + offset)).length
    let before := (pieces.take index).flatten.length
    before ≤ offset ∧ offset < before + (pieces.getD index []).length ∧
      (endsFrom start pieces).getD index 0 = start + before + (pieces.getD index []).length := by
  induction pieces generalizing start offset with
  | nil => simp at h
  | cons piece rest ih =>
    rw [List.flatten_cons, List.length_append] at h
    rw [endsFrom, List.takeWhile_cons]
    by_cases hin : piece.length ≤ offset
    · -- the piece ends before the offset: it is passed, and the search goes on from its end
      have hlt : offset - piece.length < rest.flatten.length := by omega
      obtain ⟨h₁, h₂, h₃⟩ := ih (start + piece.length) hlt
      have hpos : start + piece.length + (offset - piece.length) = start + offset := by omega
      rw [hpos] at h₁ h₂ h₃
      have hle : decide (start + piece.length ≤ start + offset) = true := by
        rw [decide_eq_true_eq]
        omega
      simp only [hle, if_true, List.length_cons, List.take_succ_cons, List.flatten_cons,
        List.length_append, List.getD_cons_succ]
      refine ⟨by omega, by omega, ?_⟩
      rw [h₃]
      omega
    · -- the offset lies inside the piece, where the search stops
      have hnle : ¬ start + piece.length ≤ start + offset := by omega
      simp only [hnle, decide_false, Bool.false_eq_true, if_false, List.length_nil, List.take_zero,
        List.flatten_nil, List.getD_cons_zero]
      omega

/-- An offset inside the buffer lies in one of the pieces. -/
theorem locate?_eq {s : Segments} {offset : Nat} (h : offset < s.size) :
    ∃ index inner, s.locate? offset = some (index, inner) ∧
      (s.pieces.take index).flatten.length + inner = offset ∧
      inner < (s.pieces.getD index []).length := by
  have hlen : offset < s.pieces.flatten.length := by rwa [← s.size_eq]
  obtain ⟨h₁, h₂, h₃⟩ := takeWhile_endsFrom s.taken hlen
  refine ⟨_, _, by rw [locate?, if_neg (by omega)], ?_, ?_⟩
  · rw [s.ends_eq, h₃]
    omega
  · rw [s.ends_eq, h₃]
    omega

/-- The piece an offset lies in is the first of the pieces from there on. -/
theorem drop_pieces_of_locate {s : Segments} {index inner : Nat}
    (h : inner < (s.pieces.getD index []).length) :
    s.pieces.drop index = s.pieces.getD index [] :: s.pieces.drop (index + 1) := by
  rcases Nat.lt_or_ge index s.pieces.length with hlt | hge
  · rw [List.drop_eq_getElem_cons hlt, List.getD_eq_getElem _ _ hlt]
  · rw [List.getD_eq_default _ _ hge] at h
    exact absurd h (Nat.not_lt_zero _)

/-- From the piece an offset lies in, the bytes go on as in the whole buffer. -/
theorem drop_eq_of_locate {s : Segments} {offset index inner : Nat}
    (h : (s.pieces.take index).flatten.length + inner = offset) :
    s.toBytes.drop offset = (s.pieces.drop index).flatten.drop inner := by
  have hsplit : s.toBytes = (s.pieces.take index).flatten ++ (s.pieces.drop index).flatten := by
    rw [← List.flatten_append, List.take_append_drop, toBytes]
  rw [hsplit, ← h, List.drop_append, List.drop_of_length_le (by omega), List.nil_append,
    Nat.add_sub_cancel_left]

/-! ## Ranges -/

theorem gather_eq (pieces : List Bytes) (inner len : Nat) (h : inner ≤ (pieces.headD []).length) :
    gather pieces inner len = (pieces.flatten.drop inner).take len := by
  induction pieces generalizing inner len with
  | nil => simp [gather]
  | cons piece rest ih =>
    rw [List.headD_cons] at h
    have hpart : piece.window inner len = (piece.drop inner).take len := rfl
    rw [gather, List.flatten_cons, List.drop_append, Nat.sub_eq_zero_of_le h, List.drop_zero,
      List.take_append, hpart, List.length_take, List.length_drop]
    split
    · -- the piece is used up, and the next one is taken from its start
      next hlt =>
        have hpart : min len (piece.length - inner) = piece.length - inner :=
          Nat.min_eq_right (by omega)
        rw [ih 0 _ (Nat.zero_le _), List.drop_zero, hpart]
    · -- the range ends in this piece
      next hge =>
        have hleft : len - (piece.length - inner) = 0 := by omega
        rw [hleft, List.take_zero, List.append_nil]

/-- A copy is the range of the bytes. -/
theorem copy?_eq (s : Segments) (offset len : Nat) :
    s.copy? offset len =
      if offset + len ≤ s.size then some (s.toBytes.window offset len) else none := by
  unfold copy?
  split
  · next hle =>
      split
      · next hzero => rw [hzero, Bytes.window, List.take_zero]
      · next hne =>
          have hlt : offset < s.size := by omega
          obtain ⟨index, inner, hloc, hbefore, hin⟩ := locate?_eq hlt
          have hhead : inner ≤ ((s.pieces.drop index).headD []).length := by
            rw [drop_pieces_of_locate hin]
            exact Nat.le_of_lt hin
          rw [hloc]
          dsimp only
          rw [gather_eq _ _ _ hhead, ← drop_eq_of_locate hbefore, Bytes.window]
  · rfl

/-- A slice inside one piece is the range of the bytes. -/
theorem sliceWithin?_eq_some {s : Segments} {offset len : Nat} {bytes : Bytes}
    (h : s.sliceWithin? offset len = some bytes) :
    offset + len ≤ s.size ∧ bytes = s.toBytes.window offset len := by
  unfold sliceWithin? at h
  split at h
  · next hzero =>
      split at h
      · cases h
        exact ⟨by omega, by rw [hzero, Bytes.window, List.take_zero]⟩
      · cases h
  · next hne =>
      split at h
      · next hle =>
          have hlt : offset < s.size := by omega
          obtain ⟨index, inner, hloc, hbefore, hin⟩ := locate?_eq hlt
          rw [hloc] at h
          dsimp only at h
          split at h
          · next hfit =>
              cases h
              -- the range lies inside the piece, which is the first of those left
              have hinner : inner - (s.pieces.getD index []).length = 0 := by omega
              have hrange : len ≤ ((s.pieces.getD index []).drop inner).length := by
                rw [List.length_drop]
                omega
              refine ⟨hle, ?_⟩
              rw [Bytes.window, Bytes.window, drop_eq_of_locate hbefore, drop_pieces_of_locate hin,
                List.flatten_cons, List.drop_append, hinner, List.drop_zero,
                List.take_append_of_le_length hrange]
          · cases h
      · cases h

end ChatCodec.Segments
