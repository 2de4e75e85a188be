import ChatCodec.Proofs.Framing.Sinks

/-!
# Pools over any history

Buffers are acquired from a pool, filled and grown at will, dropped, frozen, or used to encode a
packet, many of them at a time and in any order. Whatever happened, the pool stays within its
bounds, its idle buffers are empty, and a packet is encoded into them as into a fresh one.

* `BufferPool.Keeps`, `BufferPool.WithinBounds` — when a buffer is kept, and what all idle ones are;
* `Lease.assign` — anything done to a buffer that is held;
* `Ledger` — a lease whose guards are numbered in the order of their acquisition, with notes of
  those that returned their buffer and of those that were frozen;
* `Ledger.run` — what is left after any number of calls.

Each call is made of three primitive ones, `acquire`, `assign` and `drop`, which keep
`Ledger.Sound`. Main result: `Ledger.run_pool`.
-/

namespace ChatCodec

/-! ## Idle buffers -/

namespace BufferPool

variable {pool : BufferPool} {buffer : Buffer}

/-- Where no buffer is idle, all are empty. -/
theorem empty_of_none : ∀ buffer ∈ ([] : List Buffer), buffer.bytes = [] :=
  List.forall_mem_nil _

/-- The pool keeps a buffer that is released to it. -/
def Keeps (pool : BufferPool) (buffer : Buffer) : Prop :=
  0 < buffer.capacity ∧ buffer.capacity ≤ pool.maxRetained ∧ pool.available < pool.maxPooled

instance (pool : BufferPool) (buffer : Buffer) : Decidable (pool.Keeps buffer) :=
  inferInstanceAs (Decidable (_ ∧ _ ∧ _))

/-- The capacity of a fresh buffer, and the bounds. -/
def sizes (pool : BufferPool) : Nat × Nat × Nat :=
  (pool.bufferCapacity, pool.maxPooled, pool.maxRetained)

theorem idle_release_of_keeps (h : pool.Keeps buffer) :
    (pool.release buffer).idle = buffer.clear :: pool.idle :=
  congrArg BufferPool.idle (if_pos h)

theorem release_of_not_keeps (h : ¬ pool.Keeps buffer) : pool.release buffer = pool :=
  if_neg h

theorem sizes_release (pool : BufferPool) (buffer : Buffer) :
    (pool.release buffer).sizes = pool.sizes := by
  unfold release
  split <;> rfl

/-- A buffer that holds no memory is not kept. -/
theorem release_empty (pool : BufferPool) : pool.release .empty = pool :=
  release_of_not_keeps fun h => Nat.lt_irrefl 0 h.1

/-- A buffer that is kept adds to the idle ones, and one that is not does not. -/
theorem available_release (pool : BufferPool) (buffer : Buffer) :
    (pool.release buffer).available = pool.available + if pool.Keeps buffer then 1 else 0 := by
  split
  · next h => rw [available, idle_release_of_keeps h, List.length_cons, available]
  · next h => rw [release_of_not_keeps h, Nat.add_zero]

/-- An idle buffer is handed out and no longer idle, or a fresh one if there is none. -/
theorem acquire_cases (pool : BufferPool) : pool.idle = pool.acquire.1 :: pool.acquire.2.idle ∨
    pool.idle = [] ∧ pool.acquire = (.ofCapacity pool.bufferCapacity, pool) := by
  unfold acquire
  split
  · next buffer idle h => exact .inl h
  · next h => exact .inr ⟨h, rfl⟩

theorem sizes_acquire (pool : BufferPool) : pool.acquire.2.sizes = pool.sizes := by
  unfold acquire
  split <;> rfl

/-- No more buffers are idle than allowed, and each has memory, but not too much. -/
structure WithinBounds (pool : BufferPool) : Prop where
  available_le : pool.available ≤ pool.maxPooled
  capacity : ∀ buffer ∈ pool.idle, 0 < buffer.capacity ∧ buffer.capacity ≤ pool.maxRetained

theorem WithinBounds.release (h : pool.WithinBounds) (buffer : Buffer) :
    (pool.release buffer).WithinBounds := by
  by_cases hkeeps : pool.Keeps buffer
  · have hsizes := pool.sizes_release buffer
    have hpooled : (pool.release buffer).maxPooled = pool.maxPooled := congrArg (·.2.1) hsizes
    have hretained : (pool.release buffer).maxRetained = pool.maxRetained :=
      congrArg (·.2.2) hsizes
    refine ⟨?_, ?_⟩
    · rw [available_release, if_pos hkeeps, hpooled]
      exact hkeeps.2.2
    · rw [idle_release_of_keeps hkeeps, hretained]
      exact List.forall_mem_cons.mpr ⟨⟨hkeeps.1, hkeeps.2.1⟩, h.capacity⟩
  · rwa [release_of_not_keeps hkeeps]

theorem WithinBounds.acquire (h : pool.WithinBounds) : pool.acquire.2.WithinBounds := by
  rcases pool.acquire_cases with hidle | ⟨-, hfresh⟩
  · have hpooled : pool.acquire.2.maxPooled = pool.maxPooled := congrArg (·.2.1) pool.sizes_acquire
    have hretained : pool.acquire.2.maxRetained = pool.maxRetained :=
      congrArg (·.2.2) pool.sizes_acquire
    have hle := h.available_le
    have hcapacity := h.capacity
    rw [available, hidle, List.length_cons] at hle
    rw [hidle] at hcapacity
    refine ⟨?_, ?_⟩
    · rw [available, hpooled]
      omega
    · rw [hretained]
      exact (List.forall_mem_cons.mp hcapacity).2
  · rwa [hfresh]

end BufferPool

/-- The buffer with as much more capacity. -/
def Buffer.reserve (b : Buffer) (spare : Nat) : Buffer where
  bytes := b.bytes
  capacity := b.capacity + spare
  length_le := Nat.le_add_right_of_le b.length_le

/-! ## Buffers held -/

namespace Lease

variable {ι : Type} [DecidableEq ι] {lease : Lease ι} {id : ι} {buffer : Buffer}

/-- Puts any buffer in the place of one that is held. -/
def assign (lease : Lease ι) (id : ι) (buffer : Buffer) : Lease ι :=
  match lease.find? id with
  | some _ =>
    let lease := lease.forget id
    { lease with held := (id, buffer) :: lease.held }
  | none => lease

theorem find?_cons (lease : Lease ι) (pool : BufferPool) (id : ι) (buffer : Buffer) (other : ι) :
    Lease.find? ⟨pool, (id, buffer) :: lease.held⟩ other =
      if other = id then some buffer else lease.find? other := by
  unfold find?
  rw [List.lookup_cons]
  by_cases hother : other = id
  · rw [if_pos hother, beq_iff_eq.mpr hother]
  · rw [if_neg hother, beq_eq_false_iff_ne.mpr hother]

theorem forget_cons (lease : Lease ι) (id : ι) (buffer : Buffer) (other : ι) :
    Lease.forget ⟨lease.pool, (id, buffer) :: lease.held⟩ other =
      if id = other then lease.forget other
      else ⟨lease.pool, (id, buffer) :: (lease.forget other).held⟩ := by
  unfold forget
  dsimp only
  split
  · next h => rw [List.filter_cons_of_neg (by simpa using h)]
  · next h => rw [List.filter_cons_of_pos (by simpa using h)]

theorem find?_forget (lease : Lease ι) (id other : ι) :
    (lease.forget id).find? other = if other = id then none else lease.find? other := by
  obtain ⟨pool, held⟩ := lease
  induction held with
  | nil => simp [forget, find?]
  | cons entry rest ih =>
    obtain ⟨name, buffer⟩ := entry
    rw [forget_cons ⟨pool, rest⟩, find?_cons ⟨pool, rest⟩]
    by_cases hname : name = id
    · -- the entry under the name is gone
      rw [if_pos hname, ih]
      by_cases hother : other = id
      · rw [if_pos hother, if_pos hother]
      · rw [if_neg hother, if_neg hother, if_neg (hname ▸ hother)]
    · rw [if_neg hname, find?_cons, ih]
      by_cases hother : other = name
      · rw [if_pos hother, if_pos hother, if_neg (hother ▸ hname)]
      · rw [if_neg hother, if_neg hother]

/-- Forgetting a name under which nothing is held changes nothing. -/
theorem forget_of_none (h : lease.find? id = none) : lease.forget id = lease := by
  have hfilter : lease.held.filter (·.1 ≠ id) = lease.held := by
    refine List.filter_eq_self.mpr fun entry hentry => ?_
    have hne := List.lookup_eq_none_iff.mp h entry hentry
    exact decide_eq_true (Ne.symm (bne_iff_ne.mp hne))
  rw [forget, hfilter]

theorem find?_assign (lease : Lease ι) (id : ι) (buffer : Buffer) (other : ι) :
    (lease.assign id buffer).find? other =
      if other = id then (lease.find? id).map fun _ => buffer else lease.find? other := by
  unfold assign
  cases hfind : lease.find? id with
  | none =>
    by_cases hother : other = id
    · rw [if_pos hother, hother, hfind]
      rfl
    · rw [if_neg hother]
  | some held =>
    refine (find?_cons (lease.forget id) _ id buffer other).trans ?_
    by_cases hother : other = id
    · rw [if_pos hother, if_pos hother]
      rfl
    · rw [if_neg hother, if_neg hother]
      exact (lease.find?_forget id other).trans (if_neg hother)

theorem pool_assign (lease : Lease ι) (id : ι) (buffer : Buffer) :
    (lease.assign id buffer).pool = lease.pool := by
  unfold assign
  split <;> rfl

theorem drop_of_some (h : lease.find? id = some buffer) :
    lease.drop id = { lease.forget id with pool := lease.pool.release buffer } := by
  rw [drop, h]

theorem drop_of_none (h : lease.find? id = none) : lease.drop id = lease := by
  rw [drop, h]

theorem find?_drop (lease : Lease ι) (id other : ι) :
    (lease.drop id).find? other = if other = id then none else lease.find? other := by
  rw [← find?_forget]
  cases h : lease.find? id with
  | none => rw [drop_of_none h, forget_of_none h]
  | some buffer =>
    rw [drop_of_some h]
    rfl

/-- Under a new name the buffer that the pool hands out is held. -/
theorem acquire_of_none (h : lease.find? id = none) : lease.acquire id =
    ⟨lease.pool.acquire.2, (id, lease.pool.acquire.1) :: lease.held⟩ := by
  -- taking a buffer from the pool leaves the guards as they are
  have hnone : Lease.find? { lease with pool := lease.pool.acquire.2 } id = none := h
  unfold acquire hold
  dsimp only
  rw [drop_of_none hnone]

/-- Appending is one of the things done to a buffer that is held. -/
theorem extend_of_some (h : lease.find? id = some buffer) (src : Bytes) :
    lease.extend id src = lease.assign id (buffer.append src) := by
  rw [extend, assign, h]

theorem extend_of_none (h : lease.find? id = none) (src : Bytes) : lease.extend id src = lease := by
  rw [extend, h]

/-- A buffer is frozen by taking it out of its guard. What is left there holds no memory, so that
nothing returns when the guard is dropped. -/
theorem forget_eq_drop (lease : Lease ι) (id : ι) :
    lease.forget id = (lease.assign id .empty).drop id := by
  cases h : lease.find? id with
  | none =>
    have hassign : lease.assign id .empty = lease := by rw [assign, h]
    rw [hassign, drop_of_none h, forget_of_none h]
  | some buffer =>
    have hassign : (lease.assign id .empty).find? id = some .empty := by
      rw [find?_assign, if_pos rfl, h]
      rfl
    have hforget : (lease.assign id .empty).forget id = lease.forget id := by
      have hnone : (lease.forget id).find? id = none := by rw [find?_forget, if_pos rfl]
      rw [assign, h]
      exact (forget_cons _ id .empty id).trans ((if_pos rfl).trans (forget_of_none hnone))
    rw [drop_of_some hassign, hforget, pool_assign, BufferPool.release_empty]
    rfl

end Lease

/-! ## Guards -/

/-- A lease whose guards are numbered in the order of their acquisition. -/
structure Ledger where
  lease : Lease Nat
  /-- The number of guards acquired so far, which is the name of the next one. -/
  acquired : Nat := 0
  /-- The guards whose buffer went back to the pool. -/
  returned : List Nat := []
  /-- The guards whose bytes were taken for good. -/
  frozen : List Nat := []
  /-- How many guards were handed a buffer that had been idle. -/
  reused : Nat := 0

/-- A call on a pool, on a guard, or on a codec that has the pool. -/
inductive PoolCall where
  | acquire
  /-- Anything else done to the buffer of a guard. -/
  | assign (guard : Nat) (buffer : Buffer)
  | extend (guard : Nat) (src : Bytes)
  | drop (guard : Nat)
  | freeze (guard : Nat)
  /-- Encodes a packet into a buffer that grows by more than is needed. -/
  | encode (codec : Codec) (p : Packet) (body : p.Body) (spare : Nat)

namespace Ledger

/-- Nothing is acquired yet, and nothing is idle. -/
def ofSizes (bufferCapacity maxPooled maxRetained : Nat) : Ledger where
  lease.pool := { bufferCapacity, maxPooled, maxRetained, idle_empty := BufferPool.empty_of_none }

def acquire (ledger : Ledger) : Ledger :=
  { ledger with
    lease := ledger.lease.acquire ledger.acquired
    acquired := ledger.acquired + 1
    reused := ledger.reused + if ledger.lease.pool.idle = [] then 0 else 1 }

def assign (ledger : Ledger) (guard : Nat) (buffer : Buffer) : Ledger :=
  { ledger with lease := ledger.lease.assign guard buffer }

def extend (ledger : Ledger) (guard : Nat) (src : Bytes) : Ledger :=
  { ledger with lease := ledger.lease.extend guard src }

/-- Drops a guard. One more idle buffer tells that it returned its own. -/
def drop (ledger : Ledger) (guard : Nat) : Ledger :=
  let lease := ledger.lease.drop guard
  { ledger with
    lease
    returned :=
      if ledger.lease.pool.available < lease.pool.available then guard :: ledger.returned
      else ledger.returned }

/-- Takes the buffer out of a guard, which is dropped then like any other. -/
def freeze (ledger : Ledger) (guard : Nat) : Ledger :=
  { (ledger.assign guard .empty).drop guard with
    frozen :=
      if (ledger.lease.find? guard).isSome then guard :: ledger.frozen else ledger.frozen }

/-- Encodes a packet into the buffer of a new guard, which is dropped if that fails. -/
def encode (ledger : Ledger) (codec : Codec) (p : Packet) (body : p.Body) (spare : Nat) : Ledger :=
  let buffer := ledger.lease.pool.acquire.1.reserve spare
  match codec.encodeInto p body (.growable buffer) with
  | .ok _ w => ledger.acquire.assign ledger.acquired w.toBuffer
  | .error _ w => (ledger.acquire.assign ledger.acquired w.toBuffer).drop ledger.acquired

def apply (ledger : Ledger) : PoolCall → Ledger
  | .acquire => ledger.acquire
  | .assign guard buffer => ledger.assign guard buffer
  | .extend guard src => ledger.extend guard src
  | .drop guard => ledger.drop guard
  | .freeze guard => ledger.freeze guard
  | .encode codec p body spare => ledger.encode codec p body spare

/-- What is left after some calls. -/
def run (ledger : Ledger) (history : List PoolCall) : Ledger :=
  history.foldl apply ledger

/-- The pool has its sizes and is within its bounds; a guard that is held neither returned its
buffer nor was frozen, nor did a frozen one return it; no guard returned it twice; and all idle
buffers, with those handed out again, are from guards that returned them. -/
structure Sound (sizes : Nat × Nat × Nat) (ledger : Ledger) : Prop where
  sizes : ledger.lease.pool.sizes = sizes
  bounds : ledger.lease.pool.WithinBounds
  held : ∀ guard, ledger.lease.find? guard ≠ none →
    guard < ledger.acquired ∧ guard ∉ ledger.returned ∧ guard ∉ ledger.frozen
  returned : ∀ guard ∈ ledger.returned, guard < ledger.acquired
  frozen : ∀ guard ∈ ledger.frozen, guard < ledger.acquired ∧ guard ∉ ledger.returned
  nodup : ledger.returned.Nodup
  balance : ledger.returned.length = ledger.lease.pool.available + ledger.reused

variable {sizes : Nat × Nat × Nat} {ledger : Ledger} {guard : Nat} {buffer : Buffer}

theorem sound_ofSizes (bufferCapacity maxPooled maxRetained : Nat) :
    Sound (bufferCapacity, maxPooled, maxRetained)
      (ofSizes bufferCapacity maxPooled maxRetained) where
  sizes := rfl
  bounds := ⟨Nat.zero_le _, List.forall_mem_nil _⟩
  held _ h := absurd rfl h
  returned := List.forall_mem_nil _
  frozen := List.forall_mem_nil _
  nodup := List.nodup_nil
  balance := rfl

/-- The next guard has a name of its own. -/
theorem Sound.find?_acquired (h : Sound sizes ledger) :
    ledger.lease.find? ledger.acquired = none :=
  Decidable.byContradiction fun hheld => Nat.lt_irrefl _ (h.held _ hheld).1

theorem Sound.lease_acquire (h : Sound sizes ledger) : ledger.acquire.lease =
    ⟨ledger.lease.pool.acquire.2,
      (ledger.acquired, ledger.lease.pool.acquire.1) :: ledger.lease.held⟩ :=
  Lease.acquire_of_none h.find?_acquired

theorem Sound.find?_acquire (h : Sound sizes ledger) (guard : Nat) :
    ledger.acquire.lease.find? guard =
      if guard = ledger.acquired then some ledger.lease.pool.acquire.1
      else ledger.lease.find? guard := by
  rw [h.lease_acquire, Lease.find?_cons]

theorem Sound.acquire (h : Sound sizes ledger) : Sound sizes ledger.acquire := by
  have hpool : ledger.acquire.lease.pool = ledger.lease.pool.acquire.2 := by rw [h.lease_acquire]
  refine ⟨?_, ?_, fun guard hguard => ?_, fun guard hguard => ?_, fun guard hguard => ?_,
    h.nodup, ?_⟩
  · rw [hpool, BufferPool.sizes_acquire, h.sizes]
  · rw [hpool]
    exact h.bounds.acquire
  · rw [h.find?_acquire] at hguard
    split at hguard
    · -- the new guard is none of those noted
      next hnew =>
      subst hnew
      exact ⟨Nat.lt_succ_self _, fun hmem => Nat.lt_irrefl _ (h.returned _ hmem),
        fun hmem => Nat.lt_irrefl _ (h.frozen _ hmem).1⟩
    · obtain ⟨hlt, hnotes⟩ := h.held guard hguard
      exact ⟨Nat.lt_succ_of_lt hlt, hnotes⟩
  · exact Nat.lt_succ_of_lt (h.returned guard hguard)
  · obtain ⟨hlt, hnot⟩ := h.frozen guard hguard
    exact ⟨Nat.lt_succ_of_lt hlt, hnot⟩
  · -- what is no longer idle is in use again
    have hbalance := h.balance
    rw [hpool]
    show ledger.returned.length = ledger.lease.pool.acquire.2.available + (ledger.reused + _)
    rcases ledger.lease.pool.acquire_cases with hidle | ⟨hidle, hfresh⟩
    · rw [BufferPool.available, hidle, List.length_cons] at hbalance
      rw [if_neg (hidle ▸ List.cons_ne_nil _ _), BufferPool.available]
      omega
    · rw [if_pos hidle, hfresh]
      exact hbalance

theorem Sound.assign (h : Sound sizes ledger) (guard : Nat) (buffer : Buffer) :
    Sound sizes (ledger.assign guard buffer) := by
  have hpool : (ledger.assign guard buffer).lease.pool = ledger.lease.pool :=
    ledger.lease.pool_assign guard buffer
  refine ⟨?_, ?_, fun other hother => h.held other ?_, h.returned, h.frozen, h.nodup, ?_⟩
  · rw [hpool, h.sizes]
  · rw [hpool]
    exact h.bounds
  · -- no guard is held that was not held before
    rw [Ledger.assign, Lease.find?_assign] at hother
    split at hother
    · next heq =>
      rw [heq]
      exact fun hnone => hother (by rw [hnone]; rfl)
    · exact hother
  · rw [hpool]
    exact h.balance

theorem drop_of_none (h : ledger.lease.find? guard = none) : ledger.drop guard = ledger := by
  rw [drop, Lease.drop_of_none h, if_neg (Nat.lt_irrefl _)]

/-- A guard returns its buffer just if the pool keeps it. -/
theorem returned_drop (h : ledger.lease.find? guard = some buffer) : (ledger.drop guard).returned =
    if ledger.lease.pool.Keeps buffer then guard :: ledger.returned else ledger.returned := by
  have havailable := ledger.lease.pool.available_release buffer
  rw [drop, Lease.drop_of_some h]
  dsimp only
  rw [havailable]
  split
  · exact if_pos (Nat.lt_succ_self _)
  · exact if_neg (Nat.lt_irrefl _)

theorem Sound.drop (h : Sound sizes ledger) (guard : Nat) : Sound sizes (ledger.drop guard) := by
  cases hheld : ledger.lease.find? guard with
  | none => rwa [drop_of_none hheld]
  | some buffer =>
    have hpool : (ledger.drop guard).lease.pool = ledger.lease.pool.release buffer :=
      congrArg Lease.pool (Lease.drop_of_some hheld)
    obtain ⟨hlt, hreturned, hfrozen⟩ := h.held guard (by rw [hheld]; exact Option.some_ne_none _)
    have hmem {other : Nat} (hother : other ∈ (ledger.drop guard).returned) :
        other = guard ∨ other ∈ ledger.returned := by
      rw [returned_drop hheld] at hother
      split at hother
      · exact List.mem_cons.mp hother
      · exact .inr hother
    refine ⟨?_, ?_, fun other hother => ?_, fun other hother => ?_, fun other hother => ?_, ?_, ?_⟩
    · rw [hpool, BufferPool.sizes_release, h.sizes]
    · rw [hpool]
      exact h.bounds.release buffer
    · rw [Ledger.drop, Lease.find?_drop] at hother
      split at hother
      · exact absurd rfl hother
      · next hne =>
        obtain ⟨hlt', hreturned', hfrozen'⟩ := h.held other hother
        exact ⟨hlt', fun hin => (hmem hin).elim hne hreturned', hfrozen'⟩
    · rcases hmem hother with rfl | hin
      · exact hlt
      · exact h.returned other hin
    · obtain ⟨hlt', hreturned'⟩ := h.frozen other hother
      refine ⟨hlt', fun hin => (hmem hin).elim (fun heq => ?_) hreturned'⟩
      -- a guard that is held is not frozen
      exact hfrozen (heq ▸ hother)
    · rw [returned_drop hheld]
      split
      · exact List.nodup_cons.mpr ⟨hreturned, h.nodup⟩
      · exact h.nodup
    · have hbalance := h.balance
      have havailable := ledger.lease.pool.available_release buffer
      rw [returned_drop hheld, hpool, havailable]
      show _ = _ + ledger.reused
      split
      · rw [List.length_cons]
        omega
      · exact hbalance

/-! ## The other calls -/

theorem Sound.extend (h : Sound sizes ledger) (guard : Nat) (src : Bytes) :
    Sound sizes (ledger.extend guard src) := by
  unfold Ledger.extend
  cases hheld : ledger.lease.find? guard with
  | none => rwa [Lease.extend_of_none hheld]
  | some buffer =>
    rw [Lease.extend_of_some hheld]
    exact h.assign guard (buffer.append src)

/-- What is left of a guard that is frozen is dropped without being returned. -/
theorem lease_freeze (ledger : Ledger) (guard : Nat) :
    (ledger.freeze guard).lease = (ledger.lease.freeze guard).2 :=
  (ledger.lease.forget_eq_drop guard).symm

theorem returned_freeze (ledger : Ledger) (guard : Nat) :
    (ledger.freeze guard).returned = ledger.returned := by
  have hpool : ((ledger.lease.assign guard .empty).drop guard).pool = ledger.lease.pool := by
    rw [← Lease.forget_eq_drop]
    rfl
  show (if _ < ((ledger.lease.assign guard .empty).drop guard).pool.available then _ else _) = _
  rw [hpool]
  exact if_neg (by rw [Ledger.assign, Lease.pool_assign]; exact Nat.lt_irrefl _)

theorem frozen_freeze (h : ledger.lease.find? guard = some buffer) :
    (ledger.freeze guard).frozen = guard :: ledger.frozen :=
  if_pos (by rw [h]; rfl)

theorem Sound.freeze (h : Sound sizes ledger) (guard : Nat) :
    Sound sizes (ledger.freeze guard) := by
  have hsound := (h.assign guard .empty).drop guard
  have hmem {other : Nat} (hother : other ∈ (ledger.freeze guard).frozen) :
      (other = guard ∧ ledger.lease.find? guard ≠ none) ∨ other ∈ ledger.frozen := by
    rw [Ledger.freeze] at hother
    split at hother
    · next hheld =>
      exact (List.mem_cons.mp hother).imp_left fun heq =>
        ⟨heq, Option.isSome_iff_ne_none.mp hheld⟩
    · exact .inr hother
  refine ⟨hsound.sizes, hsound.bounds, fun other hother => ?_, hsound.returned,
    fun other hother => ?_, hsound.nodup, hsound.balance⟩
  · obtain ⟨hlt, hreturned, hfrozen⟩ := hsound.held other hother
    refine ⟨hlt, hreturned, fun hin => ?_⟩
    rcases hmem hin with ⟨rfl, -⟩ | hin
    · -- the guard is not held any more
      rw [lease_freeze, Lease.freeze, Lease.find?_forget, if_pos rfl] at hother
      exact hother rfl
    · exact hfrozen hin
  · rw [returned_freeze]
    rcases hmem hother with ⟨rfl, hheld⟩ | hin
    · obtain ⟨hlt, hreturned, -⟩ := h.held other hheld
      exact ⟨hlt, hreturned⟩
    · exact h.frozen other hin

theorem Sound.encode (h : Sound sizes ledger) (codec : Codec) (p : Packet) (body : p.Body)
    (spare : Nat) : Sound sizes (ledger.encode codec p body spare) := by
  unfold Ledger.encode
  dsimp only
  split
  · exact h.acquire.assign _ _
  · exact (h.acquire.assign _ _).drop _

/-- One call, whatever it is. -/
theorem Sound.apply (h : Sound sizes ledger) (call : PoolCall) :
    Sound sizes (ledger.apply call) := by
  cases call with
  | acquire => exact h.acquire
  | assign guard buffer => exact h.assign guard buffer
  | extend guard src => exact h.extend guard src
  | drop guard => exact h.drop guard
  | freeze guard => exact h.freeze guard
  | encode codec p body spare => exact h.encode codec p body spare

/-- Any number of calls. -/
theorem Sound.run (h : Sound sizes ledger) (history : List PoolCall) :
    Sound sizes (ledger.run history) := by
  induction history generalizing ledger with
  | nil => exact h
  | cons call history ih => exact ih (h.apply call)

/-! ## Encoding from any pool -/

section Encode

variable {codec : Codec} {p : Packet} {body : p.Body} {spare : Nat} {src : Bytes}

/-- The new guard holds whatever it is assigned. -/
theorem Sound.find?_assign_acquire (h : Sound sizes ledger) (buffer : Buffer) :
    (ledger.acquire.assign ledger.acquired buffer).lease.find? ledger.acquired = some buffer := by
  rw [Ledger.assign, Lease.find?_assign, if_pos rfl, h.find?_acquire, if_pos rfl]
  rfl

/-- The guard of a packet that has a frame holds just that. -/
theorem Sound.find?_encode (h : Sound sizes ledger) (hframe : codec.frame? p body = .ok src) :
    ∃ buffer, (ledger.encode codec p body spare).lease.find? ledger.acquired = some buffer ∧
      buffer.bytes = src := by
  obtain ⟨w, hencode, hw⟩ : ∃ w, codec.encodeInto p body
      (.growable (ledger.lease.pool.acquire.1.reserve spare)) = .ok src.length w ∧
        w.toBuffer.bytes = src := by
    refine ⟨_, Codec.encodeInto_growable_eq_ok_iff.mpr ⟨src, hframe, rfl, rfl⟩, ?_⟩
    -- the buffer has more capacity than before, but no bytes
    show ledger.lease.pool.acquire.1.bytes ++ src = src
    rw [BufferPool.bytes_acquire, List.nil_append]
  refine ⟨w.toBuffer, ?_, hw⟩
  unfold Ledger.encode
  dsimp only
  rw [hencode]
  exact h.find?_assign_acquire w.toBuffer

/-- There is no guard of a packet that has no frame. -/
theorem find?_encode_of_error {e : CodecError} (hframe : codec.frame? p body = .error e) :
    (ledger.encode codec p body spare).lease.find? ledger.acquired = none := by
  obtain ⟨w, hencode⟩ := Codec.encodeInto_growable_eq_error_iff.mpr hframe
  unfold encode
  dsimp only
  rw [hencode]
  exact (Lease.find?_drop _ _ _).trans (if_pos rfl)

/-- With no more capacity than is needed, the pool is left as a single call leaves it. -/
theorem Sound.pool_encode (h : Sound sizes ledger) (codec : Codec) (p : Packet) (body : p.Body) :
    (ledger.encode codec p body 0).lease.pool = (codec.encode ledger.lease.pool p body).2 := by
  have hreserve : ledger.lease.pool.acquire.1.reserve 0 = ledger.lease.pool.acquire.1 := rfl
  have hpool (buffer : Buffer) : (ledger.acquire.assign ledger.acquired buffer).lease.pool =
      ledger.lease.pool.acquire.2 := by
    rw [Ledger.assign, Lease.pool_assign, h.lease_acquire]
  unfold Ledger.encode Codec.encode
  dsimp only
  rw [hreserve]
  cases codec.encodeInto p body (.growable ledger.lease.pool.acquire.1) with
  | ok n w => exact hpool w.toBuffer
  | error e w =>
    have hdrop := Lease.drop_of_some (h.find?_assign_acquire w.toBuffer)
    exact (congrArg Lease.pool hdrop).trans (by rw [hpool])

end Encode

/-- Whatever was done to a pool and its guards: the pool has its sizes and is within its bounds; its
idle buffers are empty; the next guard gets one of them, which is then no longer idle, or a fresh
one. No guard returned its buffer twice, and no frozen one did; every buffer that is idle, or was
and is in use again, was returned. A guard that is dropped returns its buffer just if the pool keeps
it, emptied, and one that is frozen leaves the pool alone. And a packet is encoded to its frame,
which depends on the codec and the packet alone. -/
theorem run_pool (bufferCapacity maxPooled maxRetained : Nat) (history : List PoolCall) :
    let ledger := (ofSizes bufferCapacity maxPooled maxRetained).run history
    let pool := ledger.lease.pool
    (pool.bufferCapacity = bufferCapacity ∧ pool.maxPooled = maxPooled ∧
      pool.maxRetained = maxRetained) ∧
    pool.available ≤ maxPooled ∧
    (∀ buffer ∈ pool.idle, buffer.bytes = [] ∧ 0 < buffer.capacity ∧
      buffer.capacity ≤ maxRetained) ∧
    (∃ buffer, ledger.acquire.lease.find? ledger.acquired = some buffer ∧ buffer.bytes = [] ∧
      (pool.idle = buffer :: ledger.acquire.lease.pool.idle ∨
        pool.idle = [] ∧ ledger.acquire.lease.pool.idle = [] ∧
          buffer = .ofCapacity bufferCapacity)) ∧
    ledger.returned.Nodup ∧
    (∀ guard ∈ ledger.frozen, guard ∉ ledger.returned) ∧
    ledger.returned.length = pool.available + ledger.reused ∧
    (∀ guard buffer, ledger.lease.find? guard = some buffer →
      (ledger.drop guard).returned =
        (if pool.Keeps buffer then guard :: ledger.returned else ledger.returned) ∧
      (ledger.drop guard).lease.pool.idle =
        (if pool.Keeps buffer then buffer.clear :: pool.idle else pool.idle) ∧
      (ledger.freeze guard).frozen = guard :: ledger.frozen ∧
      (ledger.freeze guard).lease.pool = pool) ∧
    ∀ (codec : Codec) (p : Packet) (body : p.Body),
      (codec.encode pool p body).1.map (·.bytes) = codec.frame? p body ∧
      (ledger.encode codec p body 0).lease.pool = (codec.encode pool p body).2 ∧
      -- however much the buffer grows
      ∀ spare, ((ledger.encode codec p body spare).lease.find? ledger.acquired).map (·.bytes) =
        (codec.frame? p body).toOption := by
  intro ledger pool
  have hsound : Sound (bufferCapacity, maxPooled, maxRetained) ledger :=
    (sound_ofSizes bufferCapacity maxPooled maxRetained).run history
  have hcapacity : pool.bufferCapacity = bufferCapacity := congrArg (·.1) hsound.sizes
  have hpooled : pool.maxPooled = maxPooled := congrArg (·.2.1) hsound.sizes
  have hretained : pool.maxRetained = maxRetained := congrArg (·.2.2) hsound.sizes
  refine ⟨⟨hcapacity, hpooled, hretained⟩, hpooled ▸ hsound.bounds.available_le,
    fun buffer hidle => ⟨pool.idle_empty buffer hidle,
      hretained ▸ hsound.bounds.capacity buffer hidle⟩,
    ⟨pool.acquire.1, ?_, pool.bytes_acquire, ?_⟩, hsound.nodup,
    fun guard hfrozen => (hsound.frozen guard hfrozen).2, hsound.balance,
    fun guard buffer hheld => ⟨returned_drop hheld, ?_, frozen_freeze hheld, ?_⟩,
    fun codec p body => ⟨codec.encode_eq pool p body, hsound.pool_encode codec p body,
      fun spare => ?_⟩⟩
  · rw [hsound.find?_acquire, if_pos rfl]
  · rw [hsound.lease_acquire]
    rcases pool.acquire_cases with hidle | ⟨hidle, hfresh⟩
    · exact .inl hidle
    · refine .inr ⟨hidle, ?_, ?_⟩
      · show pool.acquire.2.idle = []
        rw [hfresh, hidle]
      · rw [hfresh, hcapacity]
  · rw [drop, Lease.drop_of_some hheld]
    show (pool.release buffer).idle = _
    split
    · next hkeeps => exact BufferPool.idle_release_of_keeps hkeeps
    · next hnot => rw [BufferPool.release_of_not_keeps hnot]
  · rw [lease_freeze]
    rfl
  · cases hframe : codec.frame? p body with
    | ok src =>
      obtain ⟨buffer, hheld, hbytes⟩ := hsound.find?_encode hframe
      rw [hheld, Option.map_some, hbytes]
      rfl
    | error e =>
      rw [find?_encode_of_error hframe]
      rfl

/-- Of two guards dropped into a pool for one buffer the first one returns it. The next guard gets
that buffer, and when it is frozen nothing is idle. -/
example :
    let ledger := (ofSizes 4 1 8).run [.acquire, .acquire, .extend 1 [7], .drop 1, .drop 0,
      .acquire, .freeze 2]
    ledger.returned = [1] ∧ ledger.frozen = [2] ∧ ledger.reused = 1 ∧
      ledger.lease.pool.idle = [] := by
  decide

end Ledger

end ChatCodec
