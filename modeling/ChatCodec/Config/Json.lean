import ChatCodec.Config
import ChatCodec.Json

/-!
# Configuration as JSON

A configuration is written as an object of its fields (`Config.toJsonText`). It is read from an
object, in which missing fields take their defaults and members with other names are passed over,
or from an array of the fields in order, which may end early. A field is a natural number without
fraction or exponent; one given twice is refused.
-/

namespace ChatCodec.Config

/-- A field of a configuration as JSON knows it. -/
structure Field where
  name : String
  /-- The largest value of the field. -/
  max : Nat
  get : Config → Nat
  set : Config → Nat → Config

/-- The fields in order. -/
def fields : List Field :=
  [⟨"signature", UInt16.size - 1, (·.signature.toNat), fun c n => { c with signature := .ofNat n }⟩,
    ⟨"max_content_size", UInt64.size - 1, maxContentSize,
      fun c n => { c with maxContentSize := n }⟩,
    ⟨"pool_buffer_capacity", UInt64.size - 1, poolBufferCapacity,
      fun c n => { c with poolBufferCapacity := n }⟩,
    ⟨"max_pooled_buffers", UInt64.size - 1, maxPooledBuffers,
      fun c n => { c with maxPooledBuffers := n }⟩,
    ⟨"max_retained_capacity", UInt64.size - 1, maxRetainedCapacity,
      fun c n => { c with maxRetainedCapacity := n }⟩,
    ⟨"read_chunk_size", UInt64.size - 1, readChunkSize, fun c n => { c with readChunkSize := n }⟩]

/-- Sets a field to a JSON value, if it is a number the field can hold. -/
def Field.read? (field : Field) (config : Config) (value : Json) : Option Config := do
  let n ← value.natural?
  if n ≤ field.max then some (field.set config n) else none

/-- Reads the members of an object one by one; `seen` names the fields read before. -/
def ofMembers? (config : Config) (seen : List String) :
    List (Option String × Json) → Option Config
  | [] => some config
  | (none, _) :: _ => none
  | (some key, value) :: rest =>
    match fields.find? (·.name == key) with
    | none => ofMembers? config seen rest
    | some field =>
      if seen.contains key then
        none
      else do
        ofMembers? (← field.read? config value) (key :: seen) rest

/-- Reads the elements of an array as the fields in order. -/
def ofElements? (config : Config) : List Field → List Json → Option Config
  | _, [] => some config
  | [], _ :: _ => none
  | field :: fields, value :: rest => do
    ofElements? (← field.read? config value) fields rest

/-- The configuration a JSON value describes. -/
def ofJson? : Json → Option Config
  | .object members => ofMembers? standard [] members
  | .array elements => ofElements? standard fields elements
  | _ => none

/-- Reads and validates a configuration. -/
def ofJsonText (text : String) : Except CodecError Config := do
  match (Json.parse? text).bind ofJson? with
  | some config =>
    config.validate
    return config
  | none => throw (.invalidConfig .unreadable)

/-- The configuration as one line of JSON. -/
def toJsonText (config : Config) : String :=
  let members := fields.map fun field => "\"" ++ field.name ++ "\":" ++ toString (field.get config)
  "\x7b" ++ ",".intercalate members ++ "\x7d"

end ChatCodec.Config
