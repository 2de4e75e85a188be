import ChatCodec.Bytes

/-!
# Segmented buffers

Data from a network arrives in pieces of any size. `Segments` keeps the pieces as they came and
offers them as one byte string, addressed by offset:

* `push` appends a piece, `drop` and `split` take bytes off the front;
* `sliceWithin?` answers a range that lies inside one piece, `copy?` any range, and `fill` puts one
  into a destination;
* `toBytes` joins the pieces.

Next to the pieces stand their ends, counted from the first byte ever pushed, so that taking bytes
off the front changes none of the ends that stay. `locate?` finds the piece of an offset by them.

`splitTo` and `advance` are `split` and `drop` for callers that name a length; they refuse one
beyond the end.
-/

namespace ChatCodec

namespace Segments

/-- The end of each piece, where the first begins at `start`. -/
def endsFrom : Nat → List Bytes → List Nat
  | _, [] => []
  | start, piece :: rest => (start + piece.length) :: endsFrom (start + piece.length) rest

theorem endsFrom_concat (start : Nat) (pieces : List Bytes) (piece : Bytes) :
    endsFrom start (pieces ++ [piece]) =
      endsFrom start pieces ++ [start + (pieces.flatten.length + piece.length)] := by
  induction pieces generalizing start with
  | nil => simp [endsFrom]
  | cons first rest ih =>
    rw [List.cons_append, endsFrom, ih, endsFrom, List.cons_append, List.flatten_cons,
      List.length_append]
    simp only [Nat.add_assoc]

end Segments

/-- A byte string in pieces, none of them empty. -/
structure Segments where
  pieces : List Bytes := []
  /-- The end of each piece, counted from the first byte ever pushed. -/
  ends : List Nat := []
  /-- The bytes taken off the front so far. -/
  taken : Nat := 0
  size : Nat := 0
  ne_nil : ∀ piece ∈ pieces, piece ≠ [] := by simp
  ends_eq : ends = Segments.endsFrom taken pieces := by rfl
  size_eq : size = pieces.flatten.length := by rfl
  deriving DecidableEq, Repr

namespace Segments

/-- A request to take more bytes off a buffer than it holds. -/
inductive RangeError where
  | splitTo (wanted size : Nat)
  | advance (wanted size : Nat)
  deriving DecidableEq, Repr

/-- The text that explains a refused request. -/
def RangeError.message : RangeError → String
  | splitTo wanted size => s!"split_to out of bounds: {wanted} > {size}"
  | advance wanted size => s!"advance out of bounds: {wanted} > {size}"

/-- The buffer without any bytes. -/
def empty : Segments := {}

/-- Appends a piece; an empty one is not kept. -/
def push (s : Segments) (piece : Bytes) : Segments :=
  if h : piece = [] then
    s
  else
    { pieces := s.pieces ++ [piece]
      ends := s.ends ++ [s.taken + (s.size + piece.length)]
      taken := s.taken
      size := s.size + piece.length
      ne_nil := by
        intro p hp
        rcases List.mem_append.mp hp with hp | hp
        · exact s.ne_nil p hp
        · exact List.mem_singleton.mp hp ▸ h
      ends_eq := by rw [endsFrom_concat, s.ends_eq, s.size_eq]
      size_eq := by simp [s.size_eq] }

/-- The buffer of the given pieces in order. -/
def ofPieces (pieces : List Bytes) : Segments :=
  pieces.foldl push empty

def isEmpty (s : Segments) : Bool :=
  s.size == 0

/-- All bytes lie in one piece, or there are none. -/
def isContiguous (s : Segments) : Bool :=
  s.pieces.length ≤ 1

/-- The first piece, or no bytes. -/
def first (s : Segments) : Bytes :=
  s.pieces.headD []

/-- The bytes in order. -/
def toBytes (s : Segments) : Bytes :=
  s.pieces.flatten

/-! ## Reading by offset -/

/-- The index of the piece that holds `offset`, which is the first to end beyond it, and the
position inside that piece. -/
def locate? (s : Segments) (offset : Nat) : Option (Nat × Nat) :=
  if s.size ≤ offset then
    none
  else
    let position := s.taken + offset
    -- as many pieces end at or before the position as stand before its own
    let index := (s.ends.takeWhile (· ≤ position)).length
    let start := s.ends.getD index 0 - (s.pieces.getD index []).length
    some (index, position - start)

/-- The `len` bytes from `offset` on, if they lie inside one piece. -/
def sliceWithin? (s : Segments) (offset len : Nat) : Option Bytes :=
  -- no bytes can be asked for at the end as well, where there is no piece
  if len = 0 then
    if offset ≤ s.size then some [] else none
  else if offset + len ≤ s.size then
    match s.locate? offset with
    | none => none
    | some (index, inner) =>
      let piece := s.pieces.getD index []
      if inner + len ≤ piece.length then some (piece.window inner len) else none
  else
    none

/-- The first `len` bytes of the pieces after `inner` bytes of the first one. -/
def gather : List Bytes → Nat → Nat → Bytes
  | [], _, _ => []
  | piece :: rest, inner, len =>
    let part := piece.window inner len
    if part.length < len then part ++ gather rest 0 (len - part.length) else part

/-- The `len` bytes from `offset` on, if the buffer holds them all. -/
def copy? (s : Segments) (offset len : Nat) : Option Bytes :=
  if offset + len ≤ s.size then
    if len = 0 then
      some []
    else
      match s.locate? offset with
      | none => none
      | some (index, inner) => some (gather (s.pieces.drop index) inner len)
  else
    none

/-- Fills a destination with the bytes from `offset` on. Unless the buffer holds as many as that
takes, the answer is `false` and the destination stays as it is. -/
def fill (s : Segments) (offset : Nat) (dst : Bytes) : Bool × Bytes :=
  match s.copy? offset dst.length with
  | some bytes => (true, bytes)
  | none => (false, dst)

/-! ## Taking bytes off the front -/

/-- The pieces of the first `n` bytes, those of the rest, and of the ends those that stay; at most
one piece is cut. -/
def splitPieces : List Bytes → List Nat → Nat → List Bytes × List Bytes × List Nat
  | pieces, ends, 0 => ([], pieces, ends)
  | [], ends, _ + 1 => ([], [], ends)
  | piece :: rest, ends, n + 1 =>
    -- a piece that goes as a whole is not cut
    if piece.length ≤ n + 1 then
      let (head, tail, ends) := splitPieces rest ends.tail (n + 1 - piece.length)
      (piece :: head, tail, ends)
    else
      ([piece.take (n + 1)], piece.drop (n + 1) :: rest, ends)

/-- What a split leaves is the buffer of the rest: its pieces, its ends and its bytes. -/
theorem splitPieces_rest {pieces : List Bytes} (hne : ∀ piece ∈ pieces, piece ≠ [])
    (start n : Nat) :
    let rest := (splitPieces pieces (endsFrom start pieces) n).2
    (∀ piece ∈ rest.1, piece ≠ []) ∧ rest.2 = endsFrom (start + n) rest.1 ∧
      rest.1.flatten = pieces.flatten.drop n := by
  induction pieces generalizing start n with
  | nil => cases n <;> simp [splitPieces, endsFrom]
  | cons piece rest ih =>
    cases n with
    | zero => exact ⟨hne, rfl, rfl⟩
    | succ n =>
      rw [splitPieces]
      split
      · -- the first piece goes as a whole
        next hle =>
          obtain ⟨h₁, h₂, h₃⟩ := ih (fun p hp => hne p (List.mem_cons_of_mem _ hp))
            (start + piece.length) (n + 1 - piece.length)
          have hdrop : (piece :: rest).flatten.drop (n + 1) =
              rest.flatten.drop (n + 1 - piece.length) := by
            rw [List.flatten_cons, List.drop_append, List.drop_of_length_le hle, List.nil_append]
          refine ⟨h₁, ?_, h₃.trans hdrop.symm⟩
          rw [show start + (n + 1) = start + piece.length + (n + 1 - piece.length) by omega]
          exact h₂
      · -- the first piece is cut
        next hgt =>
          have hcut : n + 1 - piece.length = 0 := by omega
          refine ⟨?_, ?_, ?_⟩
          · intro p hp
            rcases List.mem_cons.mp hp with rfl | hp
            · intro hnil
              have := congrArg List.length hnil
              rw [List.length_drop, List.length_nil] at this
              omega
            · exact hne p (List.mem_cons_of_mem _ hp)
          · have hend : start + (n + 1) + (piece.drop (n + 1)).length = start + piece.length := by
              rw [List.length_drop]
              omega
            show endsFrom start (piece :: rest) = endsFrom _ (piece.drop (n + 1) :: rest)
            rw [endsFrom, endsFrom, hend]
          · rw [List.flatten_cons, List.flatten_cons, List.drop_append, hcut, List.drop_zero]

/-- The buffer of the first `n` bytes and the buffer of the rest. -/
def split (s : Segments) (n : Nat) : Segments × Segments :=
  let parts := splitPieces s.pieces s.ends n
  have hrest := s.ends_eq ▸ splitPieces_rest s.ne_nil s.taken n
  (ofPieces parts.1,
    { pieces := parts.2.1
      ends := parts.2.2
      taken := s.taken + n
      size := s.size - n
      ne_nil := hrest.1
      ends_eq := hrest.2.1
      size_eq := by rw [hrest.2.2, List.length_drop, s.size_eq] })

/-- The buffer without its first `n` bytes. -/
def drop (s : Segments) (n : Nat) : Segments :=
  (s.split n).2

/-- `split`, refused beyond the end. -/
def splitTo (s : Segments) (n : Nat) : Except RangeError (Segments × Segments) :=
  if n ≤ s.size then .ok (s.split n) else .error (.splitTo n s.size)

/-- `drop`, refused beyond the end. -/
def advance (s : Segments) (n : Nat) : Except RangeError Segments :=
  if n ≤ s.size then .ok (s.drop n) else .error (.advance n s.size)

end Segments

end ChatCodec
