/-!
# Timestamps

A tick is 100 nanoseconds and tick zero is 0001-01-01T00:00:00Z. Arithmetic that leaves the 64-bit
range stops at its end.

* `Timestamp` — an instant as a count of ticks;
* `ZonedTimestamp` — an instant and the offset from UTC it was observed in;
* `Instant` — an instant of the system clock, nanoseconds around the Unix epoch with a 64-bit
  count of whole seconds.

`Timestamp.ofUnixMillis` and `Timestamp.unixMillis?` convert milliseconds, `Timestamp.ofInstant`
and `Timestamp.toInstant?` instants.
-/

namespace ChatCodec

/-- The 64-bit integer nearest to an integer. -/
def saturate (n : Int) : Int64 :=
  .ofInt (max Int64.minValue.toInt (min Int64.maxValue.toInt n))

def ticksPerMilli : Int := 10000

def ticksPerSecond : Int := 10000000

def ticksPerMinute : Int := 600000000

/-- Ticks from 0001-01-01 to 1970-01-01. -/
def unixEpochTicks : Int := 621355968000000000

/-- An instant in UTC as a count of ticks. -/
structure Timestamp where
  ticks : Int64
  deriving DecidableEq, Repr, Inhabited

/-- Earlier instants come first. -/
instance : Ord Timestamp where
  compare := compareOn (·.ticks)

instance : Std.TransOrd Timestamp :=
  inferInstanceAs (Std.TransCmp (compareOn _))

instance : Std.LawfulEqOrd Timestamp where
  eq_of_compare {a b} h := by
    cases a
    cases b
    exact congrArg _ (Std.LawfulEqOrd.eq_of_compare (α := Int64) h)

/-- An instant and the offset from UTC it was observed in, both in ticks. -/
structure ZonedTimestamp where
  utc : Timestamp
  offset : Int64
  deriving DecidableEq, Repr, Inhabited

/-- An instant of the system clock: nanoseconds since the Unix epoch, of which the whole seconds
fit in 64 bits. -/
structure Instant where
  nanos : Int
  seconds_fit : Int64.minValue.toInt ≤ nanos / 1000000000 ∧
    nanos / 1000000000 ≤ Int64.maxValue.toInt := by decide
  deriving DecidableEq, Repr

namespace Instant

/-- The instant that many nanoseconds from the Unix epoch, if the clock can represent it. -/
def ofNanos? (nanos : Int) : Option Instant :=
  if h : Int64.minValue.toInt ≤ nanos / 1000000000 ∧
      nanos / 1000000000 ≤ Int64.maxValue.toInt then
    some ⟨nanos, h⟩
  else
    none

end Instant

namespace Timestamp

/-- The Unix epoch. -/
def unixEpoch : Timestamp :=
  ⟨.ofInt unixEpochTicks⟩

/-- Ticks since the Unix epoch, unless the difference leaves the 64-bit range. -/
def sinceUnixEpoch? (t : Timestamp) : Option Int64 :=
  let delta := t.ticks.toInt - unixEpochTicks
  if Int64.minValue.toInt ≤ delta then some (.ofInt delta) else none

/-- The instant of a count of milliseconds of Unix time. -/
def ofUnixMillis (millis : Int64) : Timestamp :=
  ⟨saturate (unixEpochTicks + (saturate (millis.toInt * ticksPerMilli)).toInt)⟩

/-- The last whole millisecond of Unix time at or before the instant. -/
def unixMillis? (t : Timestamp) : Option Int64 :=
  t.sinceUnixEpoch?.map fun delta => .ofInt (delta.toInt / ticksPerMilli)

/-- The tick an instant falls in, counted away from the Unix epoch on both sides of it. -/
def ofInstant (instant : Instant) : Timestamp :=
  -- the distance stops at the end of the range before the epoch is added, and then the sum does
  let delta := (saturate (instant.nanos.natAbs / 100 : Nat)).toInt
  ⟨saturate (unixEpochTicks + (if instant.nanos < 0 then -delta else delta))⟩

/-- The instant of the system clock, where the distance from the Unix epoch fits in 64 bits of
ticks and in 64 unsigned bits of nanoseconds. -/
def toInstant? (t : Timestamp) : Option Instant := do
  let delta ← t.sinceUnixEpoch?
  -- the distance is counted in unsigned nanoseconds, whichever side of the epoch it lies on
  if delta.toInt.natAbs * 100 < UInt64.size then
    Instant.ofNanos? (delta.toInt * 100)
  else
    none

end Timestamp

namespace ZonedTimestamp

/-- An instant observed a number of minutes ahead of UTC. -/
def ofMinutes (utc : Timestamp) (minutes : Int32) : ZonedTimestamp :=
  ⟨utc, .ofInt (minutes.toInt * ticksPerMinute)⟩

/-- Whole minutes ahead of UTC, cut toward zero. -/
def minutes (z : ZonedTimestamp) : Int64 :=
  .ofInt (z.offset.toInt.tdiv ticksPerMinute)

/-- The ticks a wall clock shows at the recorded offset. -/
def localTicks (z : ZonedTimestamp) : Int64 :=
  saturate (z.utc.ticks.toInt + z.offset.toInt)

end ZonedTimestamp

end ChatCodec
