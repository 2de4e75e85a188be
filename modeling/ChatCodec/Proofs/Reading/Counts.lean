import ChatCodec.Proofs.RoundTrip.Takes
import ChatCodec.Serializer

/-!
# Counts and the room made for them

A collection begins with the count of its elements. The count is checked before anything else: it is
accepted just if so many elements of the least size can follow, computed without overflow, and
elements that may take no bytes are limited in number.

On the word of the count a reader makes room for all elements at once. The readers here ask an
allocator for it, which may fail when it is asked for too much; they are the readers of collections
with the requests left in. No request exceeds the number of bytes that remain, or `maxEmptyElements`
where that is more, however deep collections lie in each other: what an allocator does beyond is
never seen.

* `Read.IsOverlong` — a count is refused whatever follows it;
* `Read.Grants`, `Read.frugal` — an allocator that makes room for that many elements, and the one
  that refuses any more;
* `Layout.readReserving`, `Serializer.listReserving` — readers that ask an allocator for room.

Main result: `Read.count_exact`.
-/

namespace ChatCodec

open Read

variable {α : Type}

namespace Read

variable {r r' : Reader} {minSize n : Nat} {c : Int32}

/-! ## The check -/

/-- The count is refused whatever follows it: it is negative, or above the limit for elements that
may take no bytes, or the elements would take more bytes than 64 bits can count. -/
def IsOverlong (minSize : Nat) (c : Int32) : Prop :=
  c.toInt < 0 ∨ (minSize = 0 ∧ (maxEmptyElements : Int) < c.toInt) ∨
    (UInt64.size : Int) ≤ c.toInt * minSize

instance : Decidable (IsOverlong minSize c) :=
  inferInstanceAs (Decidable (_ ∨ _ ∨ _))

theorem isOverlong_iff : IsOverlong minSize c ↔
    c < 0 ∨ (minSize = 0 ∧ maxEmptyElements < c.toInt.toNat) ∨
      UInt64.size ≤ c.toInt.toNat * minSize := by
  rw [IsOverlong, Int32.lt_iff_toInt_lt]
  rcases Int.lt_or_le c.toInt 0 with hneg | hnonneg
  · exact iff_of_true (.inl hneg) (.inl hneg)
  · obtain ⟨n, hn⟩ := Int.eq_ofNat_of_zero_le hnonneg
    have hzero : (0 : Int32).toInt = 0 := rfl
    rw [hzero, hn, Int.toNat_natCast]
    exact_mod_cast Iff.rfl

theorem countOfPrefix_of_isOverlong (h : IsOverlong minSize c) (r : Reader) :
    countOfPrefix minSize c r = .error (.invalidLength c) r := by
  rw [isOverlong_iff] at h
  unfold countOfPrefix
  simp only [throw_bind]
  split
  · rfl
  · next hnonneg =>
    split
    · rfl
    · next hlimited =>
      exact congrFun (if_pos ((h.resolve_left hnonneg).resolve_left hlimited)) r

/-- A count that can be right asks for the bytes of all elements. -/
theorem countOfPrefix_of_not_isOverlong (h : ¬ IsOverlong minSize c) (r : Reader) :
    countOfPrefix minSize c r = if r.remaining < c.toInt.toNat * minSize then
      .error (.insufficientData (c.toInt.toNat * minSize) r.remaining) r
    else .ok c.toInt.toNat r := by
  rw [isOverlong_iff, not_or, not_or] at h
  obtain ⟨hnonneg, hlimited, hproduct⟩ := h
  unfold countOfPrefix
  simp only [throw_bind, if_neg hnonneg, if_neg hlimited, if_neg hproduct]
  rw [bind_apply, ensure_apply]
  by_cases hshort : r.remaining < c.toInt.toNat * minSize
  · rw [if_pos hshort, if_pos hshort]
  · rw [if_neg hshort, if_neg hshort]
    rfl

/-- Four bytes ahead are a count. -/
theorem exists_next (hr : r.Valid) (hremaining : 4 ≤ r.remaining) :
    ∃ c, r.rest.take 4 = Primitive.i32.encode c := by
  have hlength : (r.rest.take 4).length = 4 := by
    rw [List.length_take, Reader.length_rest hr, Nat.min_eq_left hremaining]
  exact ⟨_, (Primitive.encode_of_decode (p := .i32) hlength rfl).symm⟩

theorem primitive_of_next (hr : r.Valid) (hnext : r.rest.take 4 = Primitive.i32.encode c) :
    primitive .i32 r = .ok c (r.advance 4) := by
  have hlength := congrArg List.length hnext
  rw [List.length_take, Primitive.length_encode] at hlength
  have hsize : ¬ r.rest.length < Primitive.i32.size := by omega
  rw [(parses_primitive .i32).eq hr, if_neg hsize, show Primitive.i32.size = 4 from rfl, hnext,
    Primitive.decode_encode]
  rfl

/-- A count that cannot be right is refused, and the cursor put back before it. -/
theorem count_of_isOverlong (hr : r.Valid) (hnext : r.rest.take 4 = Primitive.i32.encode c)
    (h : IsOverlong minSize c) : count minSize r = .error (.invalidLength c) r := by
  rw [count, atomic, bind_of_ok (primitive_of_next hr hnext), countOfPrefix_of_isOverlong h]
  rfl

/-- Any other count is compared with the bytes behind it. -/
theorem count_of_not_isOverlong (hr : r.Valid) (hnext : r.rest.take 4 = Primitive.i32.encode c)
    (h : ¬ IsOverlong minSize c) : count minSize r =
      if r.remaining - 4 < c.toInt.toNat * minSize then
        .error (.insufficientData (c.toInt.toNat * minSize) (r.remaining - 4)) r
      else .ok c.toInt.toNat (r.advance 4) := by
  have hremaining : (r.advance 4).remaining = r.remaining - 4 := Nat.sub_add_eq ..
  rw [count, atomic, bind_of_ok (primitive_of_next hr hnext), countOfPrefix_of_not_isOverlong h,
    hremaining]
  by_cases hshort : r.remaining - 4 < c.toInt.toNat * minSize
  · rw [if_pos hshort, if_pos hshort]
    rfl
  · rw [if_neg hshort, if_neg hshort]

/-- A count is accepted just if it is one that the bytes behind it can bear out. -/
theorem count_eq_ok_iff (hr : r.Valid) (hcapacity : r.capacity < UInt64.size)
    (hremaining : 4 ≤ r.remaining) (hnext : r.rest.take 4 = Primitive.i32.encode c) :
    count minSize r = .ok c.toInt.toNat (r.advance 4) ↔
      0 ≤ c.toInt ∧ (minSize = 0 → c.toInt ≤ maxEmptyElements) ∧
        c.toInt * minSize ≤ (r.remaining : Int) - 4 := by
  by_cases hoverlong : IsOverlong minSize c
  · rw [count_of_isOverlong hr hnext hoverlong]
    refine iff_of_false nofun ?_
    rintro ⟨hnonneg, hlimited, hfits⟩
    obtain hneg | ⟨hzero, hmany⟩ | hproduct := hoverlong
    · omega
    · exact absurd (hlimited hzero) (Int.not_le_of_gt hmany)
    · -- no reader holds so many bytes
      have hle : r.remaining ≤ r.capacity := Nat.sub_le ..
      omega
  · rw [count_of_not_isOverlong hr hnext hoverlong]
    rw [IsOverlong, not_or, not_or] at hoverlong
    obtain ⟨hnonneg, hlimited, -⟩ := hoverlong
    obtain ⟨n, hn⟩ := Int.eq_ofNat_of_zero_le (Int.not_lt.mp hnonneg)
    have hfits : c.toInt * minSize ≤ (r.remaining : Int) - 4 ↔
        ¬ r.remaining - 4 < c.toInt.toNat * minSize := by
      rw [hn, Int.toNat_natCast, ← Int.natCast_mul]
      omega
    rw [hfits]
    constructor
    · intro h
      split at h <;> cases h
      next hfits =>
      exact ⟨Int.not_lt.mp hnonneg,
        fun hzero => Int.not_lt.mp fun hmany => hlimited ⟨hzero, hmany⟩, hfits⟩
    · rintro ⟨-, -, hfits⟩
      exact if_neg hfits

/-! ## Room for the elements -/

/-- A count that was accepted is no more than the bytes that remain, or within the limit for
elements that may take none. -/
theorem le_of_count (h : count minSize r = .ok n r') :
    n ≤ max r'.remaining maxEmptyElements := by
  rw [count, atomic, bind_apply] at h
  split at h <;> cases h
  next hcount =>
  split at hcount
  · next c r'' _ =>
    by_cases hoverlong : IsOverlong minSize c
    · rw [countOfPrefix_of_isOverlong hoverlong] at hcount
      cases hcount
    · rw [countOfPrefix_of_not_isOverlong hoverlong] at hcount
      split at hcount <;> cases hcount
      next hfits =>
      rw [isOverlong_iff, not_or, not_or] at hoverlong
      cases minSize with
      | zero => omega
      | succ size =>
        -- each element takes a byte at least
        have hle : c.toInt.toNat ≤ c.toInt.toNat * (size + 1) :=
          Nat.le_mul_of_pos_right _ (Nat.succ_pos size)
        omega
  · cases hcount

/-- An allocator that makes room for as many elements as bytes remain, and for `maxEmptyElements` in
any case. When it is asked for more it may do anything. -/
def Grants (reserve : Nat → ReadM Unit) : Prop :=
  ∀ n r, n ≤ max r.remaining maxEmptyElements → reserve n r = .ok () r

/-- Asked for as many elements as a count says, it makes room. -/
theorem Grants.count_bind {reserve : Nat → ReadM Unit} (h : Grants reserve) (minSize : Nat)
    (body : Nat → ReadM α) :
    (do let n ← count minSize; reserve n; body n) = (do let n ← count minSize; body n) := by
  funext r
  rw [bind_apply, bind_apply]
  cases hcount : count minSize r with
  | ok n r' => exact bind_of_ok (h n r' (le_of_count hcount))
  | error e r' => rfl

end Read

/-- Reads a value as `Layout.read` does, asking for room for the elements of each collection when
their count has been read. An ordered map grows element by element and asks for none. -/
def Layout.readReserving (reserve : Nat → ReadM Unit) {α : Type} : Layout α → ReadM α
  | primitive p => (primitive p).read
  | text => text.read
  | nullableText => nullableText.read
  | empty => empty.read
  | errorCode => errorCode.read
  | enumeration e => (enumeration e).read
  | pair first second => Read.atomic do
    let a ← first.readReserving reserve
    return (a, ← second.readReserving reserve)
  | record shape fields => shape.ofTuple <$> fields.readReserving reserve
  | list element => Read.atomic do
    let n ← Read.count element.minSize
    reserve n
    Read.times (element.readReserving reserve) n
  | set element => Read.atomic do
    let n ← Read.count element.minSize
    reserve n
    Read.iterate (fun s => do
      orDuplicate .set (s.insert? (← element.readReserving reserve))) n .empty
  | map key value => Read.atomic do
    let n ← Read.count (key.minSize + value.minSize)
    reserve n
    Read.iterate (fun m => do
      let k ← key.readReserving reserve
      let v ← value.readReserving reserve
      orDuplicate .map (m.insert? k v)) n .empty
  | orderedMap key value => Read.atomic do
    let n ← Read.count (key.minSize + value.minSize)
    Read.iterate (fun m => do
      let k ← key.readReserving reserve
      let v ← value.readReserving reserve
      orDuplicate .map (m.insert? k v)) n .empty

namespace Serializer

/-- Reads a list as `Serializer.list` does, asking for room for its elements. -/
def listReserving (reserve : Nat → ReadM Unit) (element : Serializer α) : Serializer (List α) :=
  { list element with
    deserialize := Read.atomic do
      let n ← Read.count element.minSize
      reserve n
      Read.times element.deserialize n }

/-- Reads a value as `Serializer.ofLayout` does, asking for room for the elements of its
collections. -/
def ofLayoutReserving (reserve : Nat → ReadM Unit) (layout : Layout α) : Serializer α :=
  { ofLayout layout with deserialize := layout.readReserving reserve }

end Serializer

namespace Read.Grants

variable {reserve : Nat → ReadM Unit}

theorem readReserving_eq (h : Grants reserve) (layout : Layout α) :
    layout.readReserving reserve = layout.read := by
  induction layout with
  | primitive | text | nullableText | empty | errorCode | enumeration => rfl
  | pair first second ihFirst ihSecond =>
    rw [Layout.readReserving, ihFirst, ihSecond, Layout.read]
  | record shape fields ih => rw [Layout.readReserving, ih, Layout.read]
  | list element ih => rw [Layout.readReserving, ih, h.count_bind, Layout.read]
  | set element ih => rw [Layout.readReserving, ih, h.count_bind, Layout.read]
  | map key value ihKey ihValue =>
    rw [Layout.readReserving, ihKey, ihValue, h.count_bind, Layout.read]
  | orderedMap key value ihKey ihValue =>
    rw [Layout.readReserving, ihKey, ihValue, Layout.read]

theorem listReserving_eq (h : Grants reserve) (element : Serializer α) :
    element.listReserving reserve = .list element := by
  rw [Serializer.listReserving, h.count_bind, Serializer.list]

theorem ofLayoutReserving_eq (h : Grants reserve) (layout : Layout α) :
    Serializer.ofLayoutReserving reserve layout = .ofLayout layout := by
  rw [Serializer.ofLayoutReserving, h.readReserving_eq, Serializer.ofLayout]

end Read.Grants

namespace Read

/-- The least an allocator that grants may do: it refuses anything more. -/
def frugal (n : Nat) : ReadM Unit := fun r =>
  if n ≤ max r.remaining maxEmptyElements then .ok () r
  else .error (.insufficientData n r.remaining) r

theorem grants_frugal : Grants frugal := fun _ _ h => if_pos h

/-- A count is accepted just if it is not negative, within the limit for elements that may take no
bytes, and so many elements of the least size fit into the bytes behind it, all as exact integers.
A count that is refused whatever follows is an invalid length; any other lacks exactly the bytes of
all elements. A failure leaves the cursor.

So a count that was accepted is no more than the bytes that remain, or `maxEmptyElements`; and
collections in collections, however deep, are read as well with an allocator that fails when it is
asked for more room than that. -/
theorem count_exact :
    (∀ {r : Reader}, r.Valid → r.capacity < UInt64.size → 4 ≤ r.remaining →
      ∃ c : Int32, r.rest.take 4 = Primitive.i32.encode c ∧ ∀ minSize : Nat,
        (count minSize r = .ok c.toInt.toNat (r.advance 4) ↔
          0 ≤ c.toInt ∧ (minSize = 0 → c.toInt ≤ maxEmptyElements) ∧
            c.toInt * minSize ≤ (r.remaining : Int) - 4) ∧
        (IsOverlong minSize c → count minSize r = .error (.invalidLength c) r) ∧
        (¬ IsOverlong minSize c → (r.remaining : Int) - 4 < c.toInt * minSize →
          ∃ need : Nat, (need : Int) = c.toInt * minSize ∧
            count minSize r = .error (.insufficientData need (r.remaining - 4)) r)) ∧
    (∀ {minSize n : Nat} {r r' : Reader}, count minSize r = .ok n r' →
      n ≤ max r'.remaining maxEmptyElements) ∧
    ∀ reserve, Grants reserve →
      (∀ {α : Type} (layout : Layout α), layout.readReserving reserve = layout.read ∧
        Serializer.ofLayoutReserving reserve layout = .ofLayout layout) ∧
      ∀ {α : Type} (element : Serializer α), element.listReserving reserve = .list element := by
  refine ⟨?_, le_of_count, fun reserve h => ⟨fun layout =>
    ⟨h.readReserving_eq layout, h.ofLayoutReserving_eq layout⟩, h.listReserving_eq⟩⟩
  intro r hr hcapacity hremaining
  obtain ⟨c, hnext⟩ := exists_next hr hremaining
  refine ⟨c, hnext, fun minSize => ⟨count_eq_ok_iff hr hcapacity hremaining hnext,
    count_of_isOverlong hr hnext, ?_⟩⟩
  intro hoverlong hshort
  obtain ⟨n, hn⟩ := Int.eq_ofNat_of_zero_le (Int.not_lt.mp fun h => hoverlong (.inl h))
  have hcount := count_of_not_isOverlong hr hnext hoverlong
  rw [hn, Int.toNat_natCast] at hcount
  rw [hn, ← Int.natCast_mul] at hshort ⊢
  refine ⟨n * minSize, rfl, ?_⟩
  rw [hcount, if_pos (by omega)]

/-- Two bytes follow the largest count there is. With elements of four bytes 8589934588 are lacking;
with elements of 2^34 bytes their number does not fit in 64 bits. -/
theorem count_exact_largest :
    let r := Reader.ofBytes [0xff, 0xff, 0xff, 0x7f, 0, 0]
    (r.Valid ∧ r.capacity < UInt64.size ∧ 4 ≤ r.remaining ∧
      count 4 r = .error (.insufficientData 8589934588 2) r ∧
      count 17179869184 r = .error (.invalidLength 2147483647) r) ∧
    Grants frugal ∧
      (Layout.list (.list .empty)).readReserving frugal = (Layout.list (.list .empty)).read := by
  intro r
  have hr : r.Valid := Reader.valid_ofBytes _
  obtain ⟨c, hnext, hcount⟩ := count_exact.1 hr (by decide) (by decide)
  have hdecoded : Primitive.i32.decode (r.rest.take 4) = .ok 2147483647 := rfl
  rw [hnext, Primitive.decode_encode] at hdecoded
  cases hdecoded
  refine ⟨⟨hr, by decide, by decide, ?_, ?_⟩, grants_frugal,
    ((count_exact.2.2 _ grants_frugal).1 _).1⟩
  · obtain ⟨need, hneed, h⟩ := (hcount 4).2.2 (by decide) (by decide)
    rwa [Int.ofNat.inj (hneed.trans (by decide : _ = Int.ofNat 8589934588))] at h
  · exact (hcount 17179869184).2.1 (by decide)

end Read

end ChatCodec
