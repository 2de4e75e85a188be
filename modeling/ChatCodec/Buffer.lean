import ChatCodec.Bytes

/-!
# Buffers

A `Buffer` is a byte string that grows in place: besides its bytes it has a capacity, the most
bytes it ever had to hold. Appending raises the capacity when needed; taking bytes away keeps it.
-/

namespace ChatCodec

/-- Bytes and the capacity allotted to them. -/
structure Buffer where
  bytes : Bytes := []
  capacity : Nat := bytes.length
  length_le : bytes.length ≤ capacity := by
    first | exact Nat.le_refl _ | exact Nat.zero_le _
  deriving DecidableEq, Repr

namespace Buffer

/-- A buffer without bytes, and without space for any. -/
def empty : Buffer where

/-- An empty buffer of some capacity. -/
def ofCapacity (capacity : Nat) : Buffer where
  capacity := capacity

/-- A buffer just large enough for some bytes. -/
def ofBytes (bytes : Bytes) : Buffer where
  bytes := bytes

def length (b : Buffer) : Nat :=
  b.bytes.length

def isEmpty (b : Buffer) : Bool :=
  b.bytes.isEmpty

/-- The buffer with bytes added at its end. -/
def append (b : Buffer) (src : Bytes) : Buffer where
  bytes := b.bytes ++ src
  capacity := max b.capacity (b.bytes.length + src.length)
  length_le := by rw [List.length_append]; omega

/-- The buffer cut to its first `n` bytes. -/
def truncate (b : Buffer) (n : Nat) : Buffer where
  bytes := b.bytes.take n
  capacity := b.capacity
  length_le := Nat.le_trans (List.length_take_le' n b.bytes) b.length_le

/-- The buffer without bytes. -/
def clear (b : Buffer) : Buffer :=
  b.truncate 0

/-- The buffer with bytes written over those from `start` on, as far as it reaches. -/
def overwrite (b : Buffer) (start : Nat) (src : Bytes) : Buffer :=
  if h : start + src.length ≤ b.bytes.length then
    ⟨b.bytes.overwrite start src, b.capacity,
      Nat.le_trans (Nat.le_of_eq (Bytes.length_overwrite h)) b.length_le⟩
  else
    b

end Buffer

end ChatCodec
