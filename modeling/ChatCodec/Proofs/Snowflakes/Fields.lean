import ChatCodec.Snowflake
import Mathlib.Algebra.Group.Nat.Defs

/-!
# The fields of a snowflake

An identifier is packed by shifts and masks. Read as a number it is a sum in which each field has
its own place, as long as the milliseconds fit their field: worker and sequence are cut to their
fields by the packing itself.

Main results: `toNat_ofParts`, the sum, and `millis_ofParts` and `worker_ofParts`, by which the
fields come back.
-/

namespace ChatCodec.Snowflake

/-- A mask of the lowest bits cuts a number to its field. -/
theorem toNat_and_mask {n mask : UInt64} {k : Nat} (h : mask.toNat = 2 ^ k - 1) :
    (n &&& mask).toNat = n.toNat % 2 ^ k := by
  rw [UInt64.toNat_and, h, Nat.and_two_pow_sub_one_eq_mod]

theorem toNat_workerMask_and (worker : UInt16) :
    (worker &&& workerMask).toNat = worker.toNat % 2 ^ 10 := by
  rw [← UInt16.toNat_toUInt64, UInt16.toUInt64_and, toNat_and_mask (k := 10) rfl,
    UInt16.toNat_toUInt64]

/-- An identifier is the sum of its fields, each at its place. -/
theorem toNat_ofParts {millis : UInt64} (h : millis.toNat < 2 ^ 42) (worker sequence : UInt16) :
    (ofParts millis worker sequence).raw.toNat =
      2 ^ 22 * millis.toNat + (2 ^ 12 * (worker.toNat % 2 ^ 10) + sequence.toNat % 2 ^ 12) := by
  have hmillis : ((millis &&& millisMask) <<< 22).toNat = 2 ^ 22 * millis.toNat := by
    rw [UInt64.toNat_shiftLeft, toNat_and_mask (k := 42) rfl, Nat.mod_eq_of_lt h]
    show millis.toNat <<< 22 % 2 ^ 64 = _
    rw [Nat.shiftLeft_eq]
    omega
  have hworker : ((worker &&& workerMask).toUInt64 <<< 12).toNat =
      2 ^ 12 * (worker.toNat % 2 ^ 10) := by
    rw [UInt64.toNat_shiftLeft, UInt16.toNat_toUInt64, toNat_workerMask_and]
    show (worker.toNat % 2 ^ 10) <<< 12 % 2 ^ 64 = _
    rw [Nat.shiftLeft_eq]
    omega
  have hsequence : (sequence.toUInt64 &&& sequenceMask).toNat = sequence.toNat % 2 ^ 12 := by
    rw [toNat_and_mask (k := 12) rfl, UInt16.toNat_toUInt64]
  -- each field stays below the place of the next one, so that nothing overlaps
  have hlow : sequence.toNat % 2 ^ 12 < 2 ^ 12 := by omega
  have hmiddle : 2 ^ 12 * (worker.toNat % 2 ^ 10) + sequence.toNat % 2 ^ 12 < 2 ^ 22 := by omega
  rw [ofParts, UInt64.toNat_or, UInt64.toNat_or, hmillis, hworker, hsequence, Nat.or_assoc,
    ← Nat.two_pow_add_eq_or_of_lt hlow, ← Nat.two_pow_add_eq_or_of_lt hmiddle]

theorem millis_ofParts {millis : UInt64} (h : millis.toNat < 2 ^ 42) (worker sequence : UInt16) :
    (ofParts millis worker sequence).millis = millis := by
  rw [← UInt64.toNat_inj, Snowflake.millis, UInt64.toNat_shiftRight, toNat_ofParts h]
  show _ >>> 22 = _
  rw [Nat.shiftRight_eq_div_pow]
  omega

theorem worker_ofParts {millis : UInt64} (h : millis.toNat < 2 ^ 42) (worker sequence : UInt16) :
    (ofParts millis worker sequence).worker.toNat = worker.toNat % 2 ^ 10 := by
  rw [Snowflake.worker, UInt64.toNat_toUInt16, toNat_and_mask (k := 10) rfl,
    UInt64.toNat_shiftRight, toNat_ofParts h]
  show _ >>> 12 % _ % _ = _
  rw [Nat.shiftRight_eq_div_pow]
  omega

end ChatCodec.Snowflake
