import ChatCodec.Buffer

/-!
# Buffer pools

A `BufferPool` keeps idle buffers for reuse. A buffer is acquired, filled, and afterwards either
released to the pool or frozen, which takes its bytes away for good.

* `BufferPool.acquire` — hands out an idle buffer, or a fresh one;
* `BufferPool.release` — takes a buffer back, unless it grew too large or enough are idle.

A `Lease` is a pool together with the buffers handed out under names, each of which goes back at
most once.
-/

namespace ChatCodec

/-- Idle buffers, the last returned first, and the bounds on them. An idle buffer has no bytes. -/
structure BufferPool where
  /-- The capacity of a fresh buffer. -/
  bufferCapacity : Nat
  /-- The number of idle buffers kept. -/
  maxPooled : Nat
  /-- A buffer with a larger capacity is not kept. -/
  maxRetained : Nat
  idle : List Buffer := []
  idle_empty : ∀ buffer ∈ idle, buffer.bytes = [] := by simp
  deriving DecidableEq, Repr

namespace BufferPool

/-- The number of idle buffers. -/
def available (pool : BufferPool) : Nat :=
  pool.idle.length

/-- Hands out the idle buffer returned last, or a fresh one. -/
def acquire (pool : BufferPool) : Buffer × BufferPool :=
  match h : pool.idle with
  | buffer :: idle =>
    (buffer, { pool with
      idle
      idle_empty := fun b hb => pool.idle_empty b (h ▸ List.mem_cons_of_mem buffer hb) })
  | [] => (.ofCapacity pool.bufferCapacity, pool)

/-- Takes a buffer back and empties it. A buffer that holds no memory, one that grew too large and
one too many are let go. -/
def release (pool : BufferPool) (buffer : Buffer) : BufferPool :=
  if 0 < buffer.capacity ∧ buffer.capacity ≤ pool.maxRetained ∧ pool.available < pool.maxPooled then
    { pool with
      idle := buffer.clear :: pool.idle
      idle_empty := List.forall_mem_cons.mpr ⟨rfl, pool.idle_empty⟩ }
  else
    pool

/-- Whatever is handed out has no bytes. -/
theorem bytes_acquire (pool : BufferPool) : pool.acquire.1.bytes = [] := by
  unfold acquire
  split
  · next buffer idle h => exact pool.idle_empty buffer (h ▸ List.mem_cons_self)
  · rfl

end BufferPool

/-- A pool and the buffers handed out, each under a name. -/
structure Lease (ι : Type) where
  pool : BufferPool
  held : List (ι × Buffer) := []

namespace Lease

variable {ι : Type} [DecidableEq ι]

/-- The buffer held under a name. -/
def find? (lease : Lease ι) (id : ι) : Option Buffer :=
  lease.held.lookup id

/-- Forgets the buffer under a name without returning it. -/
def forget (lease : Lease ι) (id : ι) : Lease ι :=
  { lease with held := lease.held.filter (·.1 ≠ id) }

/-- Returns the buffer under a name to the pool, if one is held. -/
def drop (lease : Lease ι) (id : ι) : Lease ι :=
  match lease.find? id with
  | some buffer => { lease.forget id with pool := lease.pool.release buffer }
  | none => lease

/-- Holds a buffer under a name; one held there before is returned. -/
def hold (lease : Lease ι) (id : ι) (buffer : Buffer) : Lease ι :=
  -- the one held before goes back first
  let lease := lease.drop id
  { lease with held := (id, buffer) :: lease.held }

/-- Acquires a buffer and holds it under a name. -/
def acquire (lease : Lease ι) (id : ι) : Lease ι :=
  let (buffer, pool) := lease.pool.acquire
  { lease with pool }.hold id buffer

/-- Appends bytes to the buffer under a name. -/
def extend (lease : Lease ι) (id : ι) (src : Bytes) : Lease ι :=
  match lease.find? id with
  | some buffer =>
    let lease := lease.forget id
    { lease with held := (id, buffer.append src) :: lease.held }
  | none => lease

/-- Takes the bytes of the buffer under a name; the buffer does not return to the pool. -/
def freeze (lease : Lease ι) (id : ι) : Option Bytes × Lease ι :=
  ((lease.find? id).map (·.bytes), lease.forget id)

end Lease

end ChatCodec
