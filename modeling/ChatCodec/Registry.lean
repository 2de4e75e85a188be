import ChatCodec.Packet

/-!
# Registries

A `Registry` maps type codes to decoders of packets. A receiver reads a header and leaves the rest
to `Registry.dispatch`, which reads the body of a known packet and passes over the content of any
other.

* `Registry.empty` and `Registry.standard` — no packets, and the whole catalogue;
* `Registry.register` — adds a packet, in place of one with its code;
* `Registry.contains`, `Registry.name?`, `Registry.size` — what is registered.
-/

namespace ChatCodec

/-- How packets of one code are named and read. -/
structure RegistryEntry where
  code : PacketType
  name : String
  decode : Header → ReadM Incoming

/-- The known packets; no two entries share a code. -/
structure Registry where
  entries : List RegistryEntry := []

namespace Registry

/-- Knows no packet. -/
def empty : Registry := {}

/-- The entry of a code. -/
def find? (registry : Registry) (code : PacketType) : Option RegistryEntry :=
  registry.entries.find? (·.code == code)

def contains (registry : Registry) (code : PacketType) : Bool :=
  (registry.find? code).isSome

/-- The name of the packet registered for a code. -/
def name? (registry : Registry) (code : PacketType) : Option String :=
  (registry.find? code).map (·.name)

def size (registry : Registry) : Nat :=
  registry.entries.length

def isEmpty (registry : Registry) : Bool :=
  registry.size == 0

/-- Adds an entry in place of one with its code. -/
def insert (registry : Registry) (entry : RegistryEntry) : Registry where
  entries := registry.entries.filter (·.code != entry.code) ++ [entry]

/-- The entry of a packet whose body is read by `serializer` and delivered by `wrap`. -/
def entryOf {β : Type} (spec : PacketSpec β) (serializer : Serializer β) (wrap : β → Incoming) :
    RegistryEntry where
  code := spec.code
  name := spec.name
  decode header := wrap <$> spec.decodeBody serializer header

/-- Registers a packet. The reserved code cannot be registered. -/
def register {β : Type} (registry : Registry) (spec : PacketSpec β) (serializer : Serializer β)
    (wrap : β → Incoming) : Except CodecError Registry :=
  if spec.code.isNone then
    .error (.reservedPacketType spec.code)
  else
    .ok (registry.insert (entryOf spec serializer wrap))

/-- The entry of a packet of the catalogue, read by a serializer of choice. -/
def packetEntry (p : Packet) (serializer : Serializer p.Body) : RegistryEntry :=
  entryOf p.spec serializer (Incoming.mk p)

/-- Registers a packet of the catalogue, read by a serializer of choice. -/
def registerPacket (registry : Registry) (p : Packet) (serializer : Serializer p.Body) :
    Except CodecError Registry :=
  registry.register p.spec serializer (Incoming.mk p)

/-- Knows the whole catalogue, each packet with its own serializer. -/
def standard : Registry :=
  Packet.all.foldl (fun registry p => registry.insert (packetEntry p p.serializer)) empty

/-- Reads the content that follows a header. Answers no packet, and passes over the content, for
the reserved code and for codes not registered. -/
def dispatch (registry : Registry) (header : Header) : ReadM (Option Incoming) :=
  -- the reserved code is never looked up, whatever the entries are
  match if header.packetType.isNone then none else registry.find? header.packetType with
  | none => do
    Read.skip header.contentLength
    return none
  | some entry => some <$> entry.decode header

/-- The registry as people read it: the names of its packets, sorted. -/
def text (registry : Registry) : String :=
  let names := (registry.entries.map (·.name)).mergeSort
  let quoted := names.map fun name => "\"" ++ name ++ "\""
  "PacketRegistry \x7b packets: [" ++ ", ".intercalate quoted ++ "] \x7d"

end Registry

end ChatCodec
