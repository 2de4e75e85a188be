import ChatCodec.Snowflake

/-!
# Generating snowflakes

A `Generator` belongs to one worker and hands out identifiers that only grow, whatever the clock
does. It is given the clock's readings as a list and consumes those it looks at:

* a reading later than the last identifier starts a new millisecond with sequence 0;
* any other reading, the clock standing still or stepping back, takes the next sequence number of
  the last millisecond;
* when the sequence of a millisecond is used up, the generator waits for a later reading.
-/

namespace ChatCodec.Snowflake

/-- The state between two identifiers of one worker. -/
structure Generator where
  worker : UInt16
  lastMillis : UInt64 := 0
  lastSequence : UInt64 := 0
  deriving Repr

namespace Generator

/-- A generator that has issued nothing yet; the worker number is cut to ten bits. -/
def ofWorker (worker : UInt16) : Generator where
  worker := worker &&& workerMask

/-- The next identifier, the state after it and the readings not looked at; `none` when the
readings end while the generator still waits for one. -/
def next? (g : Generator) : List UInt64 → Option (Snowflake × Generator × List UInt64)
  | [] => none
  | reading :: rest =>
    if g.lastMillis < reading then
      some (issue reading 0 rest)
    else
      let sequence := (g.lastSequence + 1) &&& sequenceMask
      -- the mask brings a full sequence back to 0
      if sequence = 0 then
        match rest.dropWhile (· ≤ g.lastMillis) with
        | [] => none
        | later :: rest => some (issue later 0 rest)
      else
        some (issue g.lastMillis sequence rest)
where
  /-- The identifier of a millisecond and a sequence number, both of which the state keeps. -/
  issue (millis sequence : UInt64) (rest : List UInt64) :
      Snowflake × Generator × List UInt64 :=
    (ofParts millis g.worker sequence.toUInt16,
      { g with lastMillis := millis, lastSequence := sequence }, rest)

/-- The first `count` identifiers, fewer when the readings end before. -/
def take (g : Generator) : Nat → List UInt64 → List Snowflake
  | 0, _ => []
  | count + 1, readings =>
    match g.next? readings with
    | none => []
    | some (id, g, rest) => id :: g.take count rest

end Generator

end ChatCodec.Snowflake
