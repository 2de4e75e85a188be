/-!
# Bytes

Byte strings and the little-endian words laid out in them:

* `Bytes` — a byte string, the list of its bytes in order;
* `Bytes.ofNatLE k n` — the `k` low-order bytes of `n`, least significant first;
* `Bytes.toNatLE` — the number a byte string spells, least significant byte first;
* `Bytes.window` — the bytes of a range;
* `Bytes.overwrite` — the byte string with a range replaced.

Main results: `toNatLE_ofNatLE` and `ofNatLE_toNatLE`, which make the two readings of a word
inverse to each other on strings of its width.
-/

namespace ChatCodec

/-- A byte string. -/
abbrev Bytes := List UInt8

namespace Bytes

/-- The `k` low-order bytes of `n`, least significant first. -/
def ofNatLE : Nat → Nat → Bytes
  | 0, _ => []
  | k + 1, n => UInt8.ofNat n :: ofNatLE k (n / 256)

/-- The number whose bytes are given, least significant first. -/
def toNatLE : Bytes → Nat
  | [] => 0
  | b :: bs => b.toNat + 256 * toNatLE bs

/-- The number of words of `k` bytes. -/
def wordCount : Nat → Nat
  | 0 => 1
  | k + 1 => 256 * wordCount k

/-- The `len` bytes from `start` on, fewer where the string ends earlier. -/
def window (bytes : Bytes) (start len : Nat) : Bytes :=
  (bytes.drop start).take len

/-- The string with `src` written over it from `start` on. -/
def overwrite (bytes : Bytes) (start : Nat) (src : Bytes) : Bytes :=
  bytes.take start ++ src ++ bytes.drop (start + src.length)

/-! ## Little-endian words -/

@[simp] theorem length_ofNatLE (k n : Nat) : (ofNatLE k n).length = k := by
  induction k generalizing n with
  | zero => rfl
  | succ k ih => simp [ofNatLE, ih]

theorem toNatLE_lt (bytes : Bytes) : toNatLE bytes < wordCount bytes.length := by
  induction bytes with
  | nil => decide
  | cons b bs ih =>
    have hb := b.toNat_lt
    rw [toNatLE, List.length_cons, wordCount]
    omega

theorem toNatLE_ofNatLE (k n : Nat) : toNatLE (ofNatLE k n) = n % wordCount k := by
  induction k generalizing n with
  | zero => exact (Nat.mod_one n).symm
  | succ k ih =>
    have hlow : (UInt8.ofNat n).toNat = n % 256 := UInt8.toNat_ofNat'
    rw [ofNatLE, toNatLE, ih, hlow, wordCount, Nat.mod_mul]

theorem ofNatLE_toNatLE (bytes : Bytes) : ofNatLE bytes.length (toNatLE bytes) = bytes := by
  induction bytes with
  | nil => rfl
  | cons b bs ih =>
    have hb := b.toNat_lt
    -- the low byte comes back by its remainder, the others by the quotient
    have hlow : UInt8.ofNat (b.toNat + 256 * toNatLE bs) = b := by
      rw [← UInt8.toNat_inj, UInt8.toNat_ofNat']
      omega
    have hhigh : (b.toNat + 256 * toNatLE bs) / 256 = toNatLE bs := by omega
    rw [List.length_cons, toNatLE, ofNatLE, hlow, hhigh, ih]

/-! ## Ranges -/

theorem length_window {bytes : Bytes} {start len : Nat} (h : start + len ≤ bytes.length) :
    (bytes.window start len).length = len := by
  rw [window, List.length_take, List.length_drop]
  omega

theorem length_overwrite {bytes : Bytes} {start : Nat} {src : Bytes}
    (h : start + src.length ≤ bytes.length) :
    (bytes.overwrite start src).length = bytes.length := by
  simp only [overwrite, List.length_append, List.length_take, List.length_drop]
  omega

theorem take_overwrite {bytes : Bytes} {start : Nat} {src : Bytes}
    (h : start + src.length ≤ bytes.length) :
    (bytes.overwrite start src).take (start + src.length) = bytes.take start ++ src := by
  have hlen : (bytes.take start ++ src).length = start + src.length := by
    rw [List.length_append, List.length_take]
    omega
  rw [overwrite, List.take_append_of_le_length (Nat.le_of_eq hlen.symm),
    List.take_of_length_le (Nat.le_of_eq hlen)]

/-- Two ranges written one behind the other are one range. -/
theorem overwrite_overwrite {bytes : Bytes} {start : Nat} {src more : Bytes}
    (h : start + src.length ≤ bytes.length) :
    (bytes.overwrite start src).overwrite (start + src.length) more =
      bytes.overwrite start (src ++ more) := by
  have hlen : (bytes.take start ++ src).length = start + src.length := by
    rw [List.length_append, List.length_take]
    omega
  have hback : (bytes.overwrite start src).drop (start + src.length + more.length) =
      bytes.drop (start + (src ++ more).length) := by
    rw [overwrite, List.drop_append, List.drop_of_length_le (by omega), List.nil_append,
      List.drop_drop, hlen, List.length_append]
    congr 1
    omega
  rw [overwrite, take_overwrite h, hback, overwrite, List.append_assoc (bytes.take start)]

/-- Writing over a range in the middle leaves the two ends alone. -/
theorem overwrite_append {src new : Bytes} {pos : Nat} (front back : Bytes)
    (h : pos + new.length ≤ src.length) :
    (front ++ src ++ back).overwrite (front.length + pos) new =
      front ++ src.overwrite pos new ++ back := by
  have htake : (front ++ (src ++ back)).take (front.length + pos) = front ++ src.take pos := by
    rw [List.take_length_add_append, List.take_append_of_le_length (by omega)]
  have hdrop : (front ++ (src ++ back)).drop (front.length + pos + new.length) =
      src.drop (pos + new.length) ++ back := by
    rw [Nat.add_assoc, List.drop_length_add_append, List.drop_append_of_le_length h]
  simp only [overwrite, List.append_assoc] at htake hdrop ⊢
  rw [htake, hdrop, List.append_assoc]

end Bytes

end ChatCodec
