import ChatCodec.Bytes
import ChatCodec.Error
import ChatCodec.Snowflake
import ChatCodec.Timestamp

/-!
# Primitives

The values with a fixed width on the wire. `Primitive α` names one of them together with the type
of its values; all numbers are little-endian.

* `Primitive.size` — the width in bytes;
* `Primitive.encode` — the bytes of a value;
* `Primitive.decode` — the value of that many bytes; only a boolean can be refused.

Floating-point numbers are kept as their bit patterns (`Binary32`, `Binary64`), so that every
pattern, each NaN included, survives.
-/

namespace ChatCodec

/-- The bits of a single-precision floating-point number. -/
structure Binary32 where
  bits : UInt32
  deriving DecidableEq, Repr, Inhabited

/-- The bits of a double-precision floating-point number. -/
structure Binary64 where
  bits : UInt64
  deriving DecidableEq, Repr, Inhabited

/-- A universally unique identifier, its sixteen bytes in order. -/
structure Uuid where
  bytes : Bytes
  length_bytes : bytes.length = 16
  deriving DecidableEq, Repr

namespace Uuid

/-- The identifier of sixteen bytes; a shorter string is padded with zeros, a longer one cut. -/
def ofBytes (bytes : Bytes) : Uuid where
  bytes := (bytes ++ List.replicate 16 0).take 16
  length_bytes := by simp

theorem bytes_ofBytes {bytes : Bytes} (h : bytes.length = 16) : (ofBytes bytes).bytes = bytes := by
  simp [ofBytes, h]

@[ext] theorem ext {x y : Uuid} (h : x.bytes = y.bytes) : x = y := by
  cases x
  cases y
  simpa using h

/-- Identifiers are ordered byte by byte. -/
instance : Ord Uuid where
  compare := compareOn (·.bytes)

instance : Std.TransOrd Uuid :=
  inferInstanceAs (Std.TransCmp (compareOn _))

instance : Std.LawfulEqOrd Uuid where
  eq_of_compare h := ext (Std.LawfulEqOrd.eq_of_compare (α := List UInt8) h)

@[simp] theorem ofBytes_bytes (id : Uuid) : ofBytes id.bytes = id :=
  ext (bytes_ofBytes id.length_bytes)

end Uuid

/-- A kind of fixed-width value; the index is the type of the values. -/
inductive Primitive : Type → Type
  | bool : Primitive Bool
  | u8 : Primitive UInt8
  | i8 : Primitive Int8
  | u16 : Primitive UInt16
  | i16 : Primitive Int16
  | u32 : Primitive UInt32
  | i32 : Primitive Int32
  | u64 : Primitive UInt64
  | i64 : Primitive Int64
  | f32 : Primitive Binary32
  | f64 : Primitive Binary64
  | timestamp : Primitive Timestamp
  /-- The instant, then the offset. -/
  | zonedTimestamp : Primitive ZonedTimestamp
  | uuid : Primitive Uuid
  | snowflake : Primitive Snowflake
  | version : Primitive Version

namespace Primitive

/-- The width in bytes. -/
def size {α : Type} : Primitive α → Nat
  | bool | u8 | i8 => 1
  | u16 | i16 => 2
  | u32 | i32 | f32 | version => 4
  | u64 | i64 | f64 | timestamp | snowflake => 8
  | zonedTimestamp | uuid => 16

/-- The bytes of a value. -/
def encode {α : Type} : Primitive α → α → Bytes
  | bool, b => [if b then 1 else 0]
  | u8, n => [n]
  | i8, n => [n.toUInt8]
  | u16, n => .ofNatLE 2 n.toNat
  | i16, n => .ofNatLE 2 n.toUInt16.toNat
  | u32, n => .ofNatLE 4 n.toNat
  | i32, n => .ofNatLE 4 n.toUInt32.toNat
  | u64, n => .ofNatLE 8 n.toNat
  | i64, n => .ofNatLE 8 n.toUInt64.toNat
  | f32, x => .ofNatLE 4 x.bits.toNat
  | f64, x => .ofNatLE 8 x.bits.toNat
  | timestamp, t => .ofNatLE 8 t.ticks.toUInt64.toNat
  | zonedTimestamp, z =>
    .ofNatLE 8 z.utc.ticks.toUInt64.toNat ++ .ofNatLE 8 z.offset.toUInt64.toNat
  | uuid, id => id.bytes
  | snowflake, id => .ofNatLE 8 id.raw.toNat
  | version, v => .ofNatLE 4 v.raw.toNat

/-- The value of `size` bytes. A boolean is spelled by the bytes 0 and 1 only. -/
def decode {α : Type} : Primitive α → Bytes → Except CodecError α
  | bool, bytes =>
    match bytes.headD 0 with
    | 0 => .ok false
    | 1 => .ok true
    | byte => .error (.invalidBool byte)
  | u8, bytes => .ok (bytes.headD 0)
  | i8, bytes => .ok (bytes.headD 0).toInt8
  | u16, bytes => .ok (.ofNat bytes.toNatLE)
  | i16, bytes => .ok (UInt16.ofNat bytes.toNatLE).toInt16
  | u32, bytes => .ok (.ofNat bytes.toNatLE)
  | i32, bytes => .ok (UInt32.ofNat bytes.toNatLE).toInt32
  | u64, bytes => .ok (.ofNat bytes.toNatLE)
  | i64, bytes => .ok (UInt64.ofNat bytes.toNatLE).toInt64
  | f32, bytes => .ok ⟨.ofNat bytes.toNatLE⟩
  | f64, bytes => .ok ⟨.ofNat bytes.toNatLE⟩
  | timestamp, bytes => .ok ⟨(UInt64.ofNat bytes.toNatLE).toInt64⟩
  | zonedTimestamp, bytes =>
    .ok ⟨⟨(UInt64.ofNat (Bytes.toNatLE (bytes.take 8))).toInt64⟩,
      (UInt64.ofNat (Bytes.toNatLE (bytes.drop 8))).toInt64⟩
  | uuid, bytes => .ok (.ofBytes bytes)
  | snowflake, bytes => .ok ⟨.ofNat bytes.toNatLE⟩
  | version, bytes => .ok ⟨.ofNat bytes.toNatLE⟩

theorem length_encode {α : Type} (p : Primitive α) (a : α) : (p.encode a).length = p.size := by
  cases p with
  | uuid => exact a.length_bytes
  | _ => simp [encode, size]

end Primitive

end ChatCodec
