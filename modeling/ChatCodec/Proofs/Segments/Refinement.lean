import ChatCodec.Proofs.Segments.Contents
import Mathlib.Algebra.GroupWithZero.Nat
import Mathlib.Data.List.Infix

/-!
# A segmented buffer is a byte string

Whatever a buffer has gone through, it answers as the plain byte string would that went through the
same. The pieces show in two places only: a split says where they were cut, and a slice is there
just if one piece holds it.

* `Segments.CutOnce` — pieces dealt out to a head and a rest, at most one of them cut;
* `Segments.Encloses` — a range lies inside one piece;
* `Segments.Represents` — every operation on a buffer as one on a byte string;
* `Segments.Request`, `Segments.step`, `Segments.run` — what a buffer may be asked to do.

Every buffer represents its bytes (`represents`), one request does to the buffer what it does to the
bytes (`toBytes_step`), and so do any requests (`toBytes_run`). Main result: `represents_run`.
-/

namespace ChatCodec.Segments

variable {s : Segments} {pieces : List Bytes} {offset len : Nat}

/-! ## The ends of the pieces -/

theorem mem_endsFrom {start position : Nat} (hne : ∀ piece ∈ pieces, piece ≠ [])
    (h : position ∈ endsFrom start pieces) :
    start < position ∧ position ≤ start + pieces.flatten.length := by
  induction pieces generalizing start with
  | nil => cases h
  | cons piece rest ih =>
    have hpos : 0 < piece.length := List.length_pos_iff.mpr (hne piece List.mem_cons_self)
    rw [List.flatten_cons, List.length_append]
    rcases List.mem_cons.mp h with rfl | hmem
    · omega
    · have hrest := ih (fun p hp => hne p (List.mem_cons_of_mem _ hp)) hmem
      omega

/-- The ends are in order, so that a search by halves finds the place of a position among them. -/
theorem increasing_endsFrom (start : Nat) (hne : ∀ piece ∈ pieces, piece ≠ []) :
    (endsFrom start pieces).Pairwise (· < ·) := by
  induction pieces generalizing start with
  | nil => exact List.Pairwise.nil
  | cons piece rest ih =>
    have hrest : ∀ p ∈ rest, p ≠ [] := fun p hp => hne p (List.mem_cons_of_mem _ hp)
    exact List.pairwise_cons.mpr
      ⟨fun position hmem => (mem_endsFrom hrest hmem).1, ih _ hrest⟩

/-! ## Where a split cuts -/

/-- Pieces are dealt out in order to a head and a rest, and at most one of them is cut in two. -/
def CutOnce (pieces head rest : List Bytes) : Prop :=
  pieces = head ++ rest ∨ ∃ before front back after, pieces = before ++ (front ++ back) :: after ∧
    head = before ++ [front] ∧ rest = back :: after

theorem CutOnce.cons {head rest : List Bytes} (piece : Bytes) (h : CutOnce pieces head rest) :
    CutOnce (piece :: pieces) (piece :: head) rest := by
  rcases h with rfl | ⟨before, front, back, after, rfl, rfl, rfl⟩
  · exact .inl rfl
  · exact .inr ⟨piece :: before, front, back, after, rfl, rfl, rfl⟩

/-- The pieces split off are as full as those they come from, of which at most one is cut. -/
theorem splitPieces_cutOnce (hne : ∀ piece ∈ pieces, piece ≠ []) (ends : List Nat) (n : Nat) :
    (∀ piece ∈ (splitPieces pieces ends n).1, piece ≠ []) ∧
      CutOnce pieces (splitPieces pieces ends n).1 (splitPieces pieces ends n).2.1 := by
  induction pieces generalizing ends n with
  | nil => cases n <;> exact ⟨(fun _ hmem => nomatch hmem), .inl rfl⟩
  | cons piece rest ih =>
    cases n with
    | zero => exact ⟨(fun _ hmem => nomatch hmem), .inl rfl⟩
    | succ n =>
      have hpiece := hne piece List.mem_cons_self
      rw [splitPieces]
      split
      · -- the piece goes over to the head as it is
        obtain ⟨hhead, hcut⟩ := ih (fun p hp => hne p (List.mem_cons_of_mem _ hp)) ends.tail
          (n + 1 - piece.length)
        exact ⟨List.forall_mem_cons.mpr ⟨hpiece, hhead⟩, hcut.cons piece⟩
      · -- the piece is cut, and all others stay
        refine ⟨List.forall_mem_singleton.mpr fun hnil => ?_,
          .inr ⟨[], piece.take (n + 1), piece.drop (n + 1), rest, ?_, rfl, rfl⟩⟩
        · rcases List.take_eq_nil_iff.mp hnil with hzero | hnil
          · cases hzero
          · exact hpiece hnil
        · rw [List.take_append_drop, List.nil_append]

theorem pieces_push (s : Segments) {piece : Bytes} (h : piece ≠ []) :
    (s.push piece).pieces = s.pieces ++ [piece] := by
  rw [push, dif_neg h]

theorem pieces_foldl_push (s : Segments) (hne : ∀ piece ∈ pieces, piece ≠ []) :
    (pieces.foldl push s).pieces = s.pieces ++ pieces := by
  induction pieces generalizing s with
  | nil => rw [List.foldl_nil, List.append_nil]
  | cons piece rest ih =>
    rw [List.foldl_cons, ih _ fun p hp => hne p (List.mem_cons_of_mem _ hp),
      pieces_push s (hne piece List.mem_cons_self), List.append_assoc]
    rfl

theorem cutOnce_split (s : Segments) (n : Nat) :
    CutOnce s.pieces (s.split n).1.pieces (s.split n).2.pieces := by
  obtain ⟨hhead, hcut⟩ := splitPieces_cutOnce s.ne_nil s.ends n
  have hpieces : (s.split n).1.pieces = (splitPieces s.pieces s.ends n).1 :=
    pieces_foldl_push empty hhead
  rw [hpieces]
  exact hcut

/-! ## What a slice needs -/

/-- The `len` bytes from `offset` on lie inside one piece. -/
def Encloses (s : Segments) (offset len : Nat) : Prop :=
  ∃ before piece after, s.pieces = before ++ piece :: after ∧ before.flatten.length ≤ offset ∧
    offset + len ≤ before.flatten.length + piece.length

theorem length_flatten_take_le (pieces : List Bytes) {i j : Nat} (h : i ≤ j) :
    (pieces.take i).flatten.length ≤ (pieces.take j).flatten.length :=
  (List.IsPrefix.flatten (List.take_prefix_take_left h)).length_le

theorem length_flatten_take_succ {index inner : Nat}
    (h : inner < (s.pieces.getD index []).length) :
    (s.pieces.take (index + 1)).flatten.length =
      (s.pieces.take index).flatten.length + (s.pieces.getD index []).length := by
  rw [List.take_add, drop_pieces_of_locate h, List.take_succ_cons, List.take_zero,
    List.flatten_append, List.length_append, List.flatten_singleton]

/-- The piece of an offset is the only one that holds it. -/
theorem locate?_of_pieces {before after : List Bytes} {piece : Bytes}
    (hpieces : s.pieces = before ++ piece :: after) (hle : before.flatten.length ≤ offset)
    (hlt : offset < before.flatten.length + piece.length) :
    s.locate? offset = some (before.length, offset - before.flatten.length) := by
  have hsize : offset < s.size := by
    rw [s.size_eq, hpieces, List.flatten_append, List.length_append, List.flatten_cons,
      List.length_append]
    omega
  obtain ⟨index, inner, hlocate, hbefore, hinner⟩ := locate?_eq hsize
  have hsucc := length_flatten_take_succ hinner
  have htake : s.pieces.take before.length = before := by rw [hpieces, List.take_left]
  have hpiece : s.pieces.getD before.length [] = piece := by
    rw [hpieces, List.getD_append_right _ _ _ _ (Nat.le_refl _), Nat.sub_self, List.getD_cons_zero]
  -- a piece further left ends before the offset, and one further right begins behind it
  obtain rfl : index = before.length := by
    rcases Nat.lt_trichotomy index before.length with hleft | hsame | hright
    · have hends := length_flatten_take_le s.pieces (Nat.succ_le_of_lt hleft)
      rw [Nat.succ_eq_add_one, hsucc, htake] at hends
      omega
    · exact hsame
    · have hbegins := length_flatten_take_le s.pieces (Nat.succ_le_of_lt hright)
      have hpos : offset - before.flatten.length < (s.pieces.getD before.length []).length := by
        rw [hpiece]
        omega
      rw [Nat.succ_eq_add_one, length_flatten_take_succ hpos, htake, hpiece] at hbegins
      omega
  rw [htake] at hbefore
  rw [hlocate, show inner = offset - before.flatten.length by omega]

/-- A slice is there just if its range is, in one piece unless it is empty. -/
theorem sliceWithin?_eq_some_iff {bytes : Bytes} :
    s.sliceWithin? offset len = some bytes ↔
      offset + len ≤ s.size ∧ (len = 0 ∨ s.Encloses offset len) ∧
        bytes = s.toBytes.window offset len := by
  constructor
  · intro h
    obtain ⟨hle, hbytes⟩ := sliceWithin?_eq_some h
    refine ⟨hle, ?_, hbytes⟩
    rcases Nat.eq_zero_or_pos len with hzero | hpos
    · exact .inl hzero
    · -- the piece the offset was found in holds the whole range
      have hlt : offset < s.size := by omega
      obtain ⟨index, inner, hlocate, hbefore, hinner⟩ := locate?_eq hlt
      rw [sliceWithin?, if_neg (by omega), if_pos hle, hlocate] at h
      dsimp only at h
      split at h
      · next hfit =>
        refine .inr ⟨s.pieces.take index, s.pieces.getD index [], s.pieces.drop (index + 1), ?_,
          by omega, by omega⟩
        rw [← drop_pieces_of_locate hinner, List.take_append_drop]
      · cases h
  · rintro ⟨hle, hwhere, rfl⟩
    rcases Nat.eq_zero_or_pos len with hzero | hpos
    · rw [sliceWithin?, if_pos hzero, if_pos (by omega), hzero, Bytes.window, List.take_zero]
    · rcases hwhere with hzero | ⟨before, piece, after, hpieces, hbegin, hend⟩
      · exact absurd hzero (Nat.ne_of_gt hpos)
      · have hlocate := locate?_of_pieces hpieces hbegin (by omega)
        have hpiece : s.pieces.getD before.length [] = piece := by
          rw [hpieces, List.getD_append_right _ _ _ _ (Nat.le_refl _), Nat.sub_self,
            List.getD_cons_zero]
        have hslice : s.sliceWithin? offset len =
            some (piece.window (offset - before.flatten.length) len) := by
          rw [sliceWithin?, if_neg (by omega), if_pos hle, hlocate]
          dsimp only
          rw [hpiece, if_pos (by omega)]
        rw [hslice, (sliceWithin?_eq_some hslice).2]

/-- Across a boundary there is no slice, but there is a copy. -/
example : (ofPieces [[97, 98, 99], [], [100, 101]]).sliceWithin? 2 2 = none ∧
    (ofPieces [[97, 98, 99], [], [100, 101]]).fill 2 [0, 0] = (true, [99, 100]) := by
  decide

/-! ## Every operation -/

theorem fill_eq (s : Segments) (offset : Nat) (dst : Bytes) : s.fill offset dst =
    if offset + dst.length ≤ s.size then (true, s.toBytes.window offset dst.length)
    else (false, dst) := by
  rw [fill, copy?_eq]
  by_cases hle : offset + dst.length ≤ s.size
  · rw [if_pos hle, if_pos hle]
  · rw [if_neg hle, if_neg hle]

/-- The buffer does everything as the byte string does it. -/
structure Represents (s : Segments) (bytes : Bytes) : Prop where
  toBytes : s.toBytes = bytes
  size : s.size = bytes.length
  size_eq_sum : s.size = (s.pieces.map List.length).sum
  ne_nil : ∀ piece ∈ s.pieces, piece ≠ []
  push : ∀ piece, (s.push piece).toBytes = bytes ++ piece
  advance : ∀ n ≤ bytes.length, ∃ rest, s.advance n = .ok rest ∧ rest.toBytes = bytes.drop n
  splitTo : ∀ n ≤ bytes.length, ∃ head rest, s.splitTo n = .ok (head, rest) ∧
    head.toBytes = bytes.take n ∧ rest.toBytes = bytes.drop n ∧
      CutOnce s.pieces head.pieces rest.pieces
  fill : ∀ offset dst, s.fill offset dst =
    if offset + dst.length ≤ bytes.length then (true, bytes.window offset dst.length)
    else (false, dst)
  slice : ∀ offset len slice, s.sliceWithin? offset len = some slice ↔
    offset + len ≤ bytes.length ∧ (len = 0 ∨ s.Encloses offset len) ∧
      slice = bytes.window offset len

theorem represents (s : Segments) : s.Represents s.toBytes where
  toBytes := rfl
  size := s.size_eq_length
  size_eq_sum := by rw [s.size_eq, List.length_flatten]
  ne_nil := s.ne_nil
  push := s.toBytes_push
  advance n hle := ⟨s.drop n, if_pos (s.size_eq_length ▸ hle), s.toBytes_drop n⟩
  splitTo n hle := ⟨(s.split n).1, (s.split n).2, if_pos (s.size_eq_length ▸ hle),
    s.toBytes_split_fst n, s.toBytes_split_snd n, s.cutOnce_split n⟩
  fill offset dst := by rw [fill_eq, s.size_eq_length]
  slice offset len slice := by rw [sliceWithin?_eq_some_iff, s.size_eq_length]

/-! ## Requests -/

/-- What a buffer may be asked to do. -/
inductive Request where
  | push (piece : Bytes)
  | advance (n : Nat)
  /-- Splits bytes off the front and goes on with the rest. -/
  | splitTo (n : Nat)
  /-- Splits bytes off the front and goes on with them. -/
  | keepHead (n : Nat)
  | clear

namespace Request

/-- The bytes a request brings. -/
def pushed : Request → Bytes
  | push piece => piece
  | _ => []

/-- What a request makes of a byte string. Where it asks for more bytes than there are, nothing. -/
def onBytes (bytes : Bytes) : Request → Bytes
  | push piece => bytes ++ piece
  | advance n => if n ≤ bytes.length then bytes.drop n else bytes
  | splitTo n => if n ≤ bytes.length then bytes.drop n else bytes
  | keepHead n => if n ≤ bytes.length then bytes.take n else bytes
  | clear => []

end Request

/-- What a request makes of a buffer. One that is refused leaves it as it was. -/
def step (s : Segments) : Request → Segments
  | .push piece => s.push piece
  | .advance n => (s.advance n).toOption.getD s
  | .splitTo n => ((s.splitTo n).toOption.map Prod.snd).getD s
  | .keepHead n => ((s.splitTo n).toOption.map Prod.fst).getD s
  | .clear => .empty

/-- Some requests, one after another. -/
def run (s : Segments) (requests : List Request) : Segments :=
  requests.foldl step s

theorem toBytes_step (s : Segments) (request : Request) :
    (s.step request).toBytes = request.onBytes s.toBytes := by
  cases request with
  | push piece => exact s.toBytes_push piece
  | clear => rfl
  | advance n | splitTo n | keepHead n =>
    simp only [step, Request.onBytes, advance, splitTo, s.size_eq_length]
    split
    · simp [Except.toOption]
    · rfl

theorem toBytes_run (s : Segments) (requests : List Request) :
    (s.run requests).toBytes = requests.foldl Request.onBytes s.toBytes := by
  induction requests generalizing s with
  | nil => rfl
  | cons request requests ih =>
    rw [run, List.foldl_cons, List.foldl_cons, ← toBytes_step, ← ih, run]

/-! ## Positions -/

@[simp] theorem taken_push (s : Segments) (piece : Bytes) : (s.push piece).taken = s.taken := by
  unfold push
  split <;> rfl

theorem taken_foldl_push (s : Segments) (pieces : List Bytes) :
    (pieces.foldl push s).taken = s.taken := by
  induction pieces generalizing s with
  | nil => rfl
  | cons piece rest ih => rw [List.foldl_cons, ih, taken_push]

theorem taken_ofPieces (pieces : List Bytes) : (ofPieces pieces).taken = 0 :=
  taken_foldl_push empty pieces

/-- Positions move on only by the bytes that a request brings. -/
theorem end_step (s : Segments) (request : Request) :
    (s.step request).taken + (s.step request).size ≤
      s.taken + s.size + request.pushed.length := by
  cases request with
  | push piece =>
    rw [step, taken_push, size_eq_length, toBytes_push, List.length_append, ← size_eq_length,
      Request.pushed, Nat.add_assoc]
  | clear => exact Nat.zero_le _
  | advance n | splitTo n =>
    -- what is taken off the front is counted as taken
    have hdrop : n ≤ s.size → s.taken + n + (s.size - n) ≤ s.taken + s.size := by omega
    simp only [step, advance, splitTo]
    split
    · next hle => exact hdrop hle
    · exact Nat.le_refl _
  | keepHead n =>
    simp only [step, splitTo]
    split
    · have hsize : (s.split n).1.size ≤ s.size := by
        rw [size_eq_length, size_eq_length, toBytes_split_fst, List.length_take]
        exact Nat.min_le_right _ _
      have htaken : (s.split n).1.taken = 0 := taken_ofPieces _
      show (s.split n).1.taken + (s.split n).1.size ≤ s.taken + s.size
      omega
    · exact Nat.le_refl _

theorem end_run (s : Segments) (requests : List Request) :
    (s.run requests).taken + (s.run requests).size ≤
      s.taken + s.size + (requests.flatMap Request.pushed).length := by
  induction requests generalizing s with
  | nil => exact Nat.le_refl _
  | cons request requests ih =>
    have hstep := s.end_step request
    have hrun := ih (s.step request)
    rw [List.flatMap_cons, List.length_append]
    show ((s.step request).run requests).taken + ((s.step request).run requests).size ≤ _
    omega

/-- After any requests a buffer does everything as the byte string that went through the same. The
positions it keeps are in order and never pass the number of bytes pushed, so they are words of the
machine as long as that number is one. -/
theorem represents_run (pieces : List Bytes) (requests : List Request) :
    let s := (ofPieces pieces).run requests
    let pushed := (pieces.flatten ++ requests.flatMap Request.pushed).length
    s.Represents (requests.foldl Request.onBytes pieces.flatten) ∧
      s.ends.Pairwise (· < ·) ∧ (∀ position ∈ s.ends, position ≤ pushed) ∧
        s.taken + s.size ≤ pushed := by
  intro s pushed
  have hbytes : s.toBytes = requests.foldl Request.onBytes pieces.flatten := by
    rw [toBytes_run, toBytes_ofPieces]
  have hend : s.taken + s.size ≤ pushed := by
    have hrun := (ofPieces pieces).end_run requests
    rwa [taken_ofPieces, size_eq_length (ofPieces pieces), toBytes_ofPieces, Nat.zero_add,
      ← List.length_append] at hrun
  refine ⟨hbytes ▸ s.represents, ?_, fun position hmem => ?_, hend⟩
  · rw [s.ends_eq]
    exact increasing_endsFrom s.taken s.ne_nil
  · rw [s.ends_eq] at hmem
    have hle := (mem_endsFrom s.ne_nil hmem).2
    rw [← s.size_eq] at hle
    exact Nat.le_trans hle hend

end ChatCodec.Segments
