import ChatCodec.Json.Token

/-!
# JSON documents

`Json.parse?` reads strict JSON: one value, no comment, no trailing comma, nothing after it.
Numbers keep their spelling and objects all their members in order, repeated ones included. Values
may be nested to any depth.

The tokens are read by an automaton (`Parser.step`) that keeps the open arrays and objects on a
stack.
-/

namespace ChatCodec

/-- A JSON value. -/
inductive Json where
  | null
  | bool (value : Bool)
  /-- A number as it is spelled. -/
  | number (literal : String)
  /-- A string; one whose escapes spell no text has none. -/
  | string (text : Option String)
  | array (elements : List Json)
  | object (members : List (Option String × Json))

namespace Json

/-- The natural number a literal spells, if it is one: digits only, below 2^64. -/
def natural? : Json → Option Nat
  | number literal =>
    let digits := literal.toList
    if digits.all Char.isDigit then
      let n := digits.foldl (fun n c => n * 10 + (c.toNat - '0'.toNat)) 0
      if n < UInt64.size then some n else none
    else
      none
  | _ => none

namespace Parser

/-- An array or object that is still open; what is read of it is kept in reverse. -/
inductive Frame where
  | array (elements : List Json)
  | object (members : List (Option String × Json)) (key : Option String)

/-- What has to come next, and the open arrays and objects, innermost first. -/
inductive State where
  /-- A value, or, if `first`, the end of the innermost array. -/
  | value (first : Bool) (frames : List Frame)
  /-- A key of an object, or, if `first`, its end. -/
  | key (first : Bool) (members : List (Option String × Json)) (frames : List Frame)
  | colon (members : List (Option String × Json)) (key : Option String) (frames : List Frame)
  | elementEnd (elements : List Json) (frames : List Frame)
  | memberEnd (members : List (Option String × Json)) (frames : List Frame)
  | done (value : Json)

/-- The state after a whole value. -/
def complete (v : Json) : List Frame → State
  | [] => .done v
  | .array elements :: frames => .elementEnd (v :: elements) frames
  | .object members key :: frames => .memberEnd ((key, v) :: members) frames

/-- Reads a token where a value has to come. -/
def value (first : Bool) (frames : List Frame) : Token → Option State
  | .null => some (complete .null frames)
  | .bool b => some (complete (.bool b) frames)
  | .number literal => some (complete (.number literal) frames)
  | .string text => some (complete (.string text) frames)
  | .arrayOpen => some (.value true (.array [] :: frames))
  | .objectOpen => some (.key true [] frames)
  | .arrayClose =>
    match first, frames with
    | true, .array elements :: frames => some (complete (.array elements.reverse) frames)
    | _, _ => none
  | _ => none

/-- Reads one token. -/
def step : State → Token → Option State
  | .value first frames, token => value first frames token
  | .key _ members frames, .string key => some (.colon members key frames)
  | .key true members frames, .objectClose => some (complete (.object members.reverse) frames)
  | .colon members key frames, .colon => some (.value false (.object members key :: frames))
  | .elementEnd elements frames, .comma => some (.value false (.array elements :: frames))
  | .elementEnd elements frames, .arrayClose =>
    some (complete (.array elements.reverse) frames)
  | .memberEnd members frames, .comma => some (.key false members frames)
  | .memberEnd members frames, .objectClose =>
    some (complete (.object members.reverse) frames)
  | _, _ => none

end Parser

/-- The value a text spells, if it is one JSON document. -/
def parse? (text : String) : Option Json := do
  match ← (← tokens? text).foldlM Parser.step (.value false []) with
  | .done v => some v
  | _ => none

end Json

end ChatCodec
