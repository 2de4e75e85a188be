/-!
# Snowflake identifiers

A snowflake is a 64-bit identifier made of three fields, most significant first: 42 bits of
milliseconds since the chat epoch, 10 bits of worker, 12 bits of sequence. Identifiers therefore
sort by the time they were made.

* `Snowflake.ofParts` — packs the three fields, dropping the bits that do not fit;
* `Snowflake.millis`, `Snowflake.worker`, `Snowflake.sequence` — unpack them;
* `Snowflake.none` — the identifier 0, which names nothing.
-/

namespace ChatCodec

/-- A 64-bit identifier ordered by creation time. -/
structure Snowflake where
  raw : UInt64
  deriving DecidableEq, Repr, Inhabited

/-- Identifiers are ordered by their numbers, and so by the time they were made. -/
instance : Ord Snowflake where
  compare := compareOn (·.raw)

instance : Std.TransOrd Snowflake :=
  inferInstanceAs (Std.TransCmp (compareOn _))

instance : Std.LawfulEqOrd Snowflake where
  eq_of_compare {a b} h := by
    cases a
    cases b
    exact congrArg _ (Std.LawfulEqOrd.eq_of_compare (α := UInt64) h)

namespace Snowflake

/-- 2024-01-01T00:00:00Z in milliseconds of Unix time. -/
def epochMillis : UInt64 := 1704067200000

/-- The worker field holds ten bits. -/
def workerMask : UInt16 := 0x3ff

/-- The sequence field holds twelve bits. -/
def sequenceMask : UInt64 := 0xfff

/-- The millisecond field holds forty-two bits. -/
def millisMask : UInt64 := 0x3ffffffffff

/-- The identifier that names nothing. -/
protected def none : Snowflake := ⟨0⟩

/-- Packs the three fields; what does not fit a field is cut off. -/
def ofParts (millis : UInt64) (worker sequence : UInt16) : Snowflake :=
  ⟨(millis &&& millisMask) <<< 22 ||| (worker &&& workerMask).toUInt64 <<< 12
    ||| sequence.toUInt64 &&& sequenceMask⟩

/-- Milliseconds since the chat epoch. -/
def millis (s : Snowflake) : UInt64 :=
  s.raw >>> 22

/-- The creation time in milliseconds of Unix time. -/
def unixMillis (s : Snowflake) : UInt64 :=
  s.millis + epochMillis

def worker (s : Snowflake) : UInt16 :=
  (s.raw >>> 12 &&& workerMask.toUInt64).toUInt16

def sequence (s : Snowflake) : UInt16 :=
  (s.raw &&& sequenceMask).toUInt16

def isNone (s : Snowflake) : Bool :=
  s == .none

/-- The identifier in decimal. -/
def text (s : Snowflake) : String :=
  toString s.raw.toNat

end Snowflake

end ChatCodec
