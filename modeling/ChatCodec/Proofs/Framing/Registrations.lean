import ChatCodec.Proofs.Framing.Decoding
import Mathlib.Data.Finset.Card
import Mathlib.Data.Finset.Dedup

/-!
# Registries after any registrations

What a registry holds is decided by the last registration of each code; the order in which the
codes were registered leaves no trace. The reserved code is never among them.

* `Registration` — a packet to be registered, with the serializer its bodies are read by;
* `Registry.after` — the registry after a list of registrations, accepted or rejected;
* `Registration.last?` — the last registration of a code, none of the reserved one;
* `Registry.Beginning` — how a registry begins, empty or with the catalogue.

The catalogue is not registered but inserted, without a look at the code. It makes no difference:
`Registry.Beginning.registry_eq`. Main result: `Registry.after_history`.
-/

namespace ChatCodec

open Read

namespace PacketType

variable {code : PacketType}

theorem isNone_iff : code.isNone = true ↔ code = .none :=
  beq_iff_eq

theorem isNone_eq_false_iff : code.isNone = false ↔ code ≠ .none :=
  beq_eq_false_iff_ne

end PacketType

theorem Packet.code_ne_none (p : Packet) : p.code ≠ .none :=
  PacketType.isNone_eq_false_iff.mp p.isNone_code

/-- A packet to be registered. Its bodies are read by `serializer`, its own or another, and
delivered by `wrap`. -/
structure Registration where
  {Body : Type}
  spec : PacketSpec Body
  serializer : Serializer Body
  wrap : Body → Incoming

namespace Registration

def code (r : Registration) : PacketType :=
  r.spec.code

def entry (r : Registration) : RegistryEntry :=
  Registry.entryOf r.spec r.serializer r.wrap

/-- A packet of the catalogue, read by its own serializer. -/
def ofPacket (p : Packet) : Registration where
  spec := p.spec
  serializer := p.serializer
  wrap := Incoming.mk p

/-- The last registration of a code; those of the reserved code are rejected. -/
def last? (history : List Registration) (code : PacketType) : Option Registration :=
  history.reverse.find? fun r => !r.code.isNone && r.code == code

/-- The codes registered. -/
def codes (history : List Registration) : Finset PacketType :=
  (history.map code).toFinset.erase .none

variable {history : List Registration} {code : PacketType} {r : Registration}

theorem last?_cons : last? (r :: history) code =
    (last? history code).or (if r.code ≠ .none ∧ r.code = code then some r else none) := by
  have hhead : [r].find? (fun r => !r.code.isNone && r.code == code) =
      if r.code ≠ .none ∧ r.code = code then some r else none := by
    rw [List.find?_singleton]
    simp [PacketType.isNone_eq_false_iff]
  rw [last?, List.reverse_cons, List.find?_append, hhead, last?]

theorem isSome_last? : (last? history code).isSome = true ↔ code ∈ codes history := by
  have hmem : (∃ r ∈ history.reverse, (!r.code.isNone && r.code == code) = true) ↔
      code ≠ .none ∧ ∃ r ∈ history, r.code = code := by
    constructor
    · rintro ⟨r, hr, hcode⟩
      simp only [Bool.and_eq_true, Bool.not_eq_true', beq_iff_eq,
        PacketType.isNone_eq_false_iff] at hcode
      obtain ⟨hnone, rfl⟩ := hcode
      exact ⟨hnone, r, List.mem_reverse.mp hr, rfl⟩
    · rintro ⟨hnone, r, hr, rfl⟩
      exact ⟨r, List.mem_reverse.mpr hr, by simp [PacketType.isNone_eq_false_iff, hnone]⟩
  rw [last?, List.find?_isSome, hmem, codes, Finset.mem_erase, List.mem_toFinset, List.mem_map]

end Registration

namespace Registry

/-- The registry after a call; one that is rejected leaves it as it was. -/
def call (registry : Registry) (r : Registration) : Registry :=
  match registry.register r.spec r.serializer r.wrap with
  | .ok registry' => registry'
  | .error _ => registry

/-- The registry after some calls. -/
def after (registry : Registry) (history : List Registration) : Registry :=
  history.foldl call registry

/-- How a registry begins. -/
inductive Beginning where
  | empty
  | standard

namespace Beginning

def registry : Beginning → Registry
  | empty => .empty
  | standard => .standard

/-- The packets known from the beginning. -/
def packets : Beginning → List Packet
  | empty => []
  | standard => Packet.all

/-- Their codes. -/
def codes (start : Beginning) : Finset PacketType :=
  (start.packets.map Packet.code).toFinset

end Beginning

/-! ## One call -/

/-- Only the reserved code is rejected, and the registry stays as it was. -/
theorem call_cases (registry : Registry) (r : Registration) :
    r.code = .none ∧ registry.register r.spec r.serializer r.wrap =
        .error (.reservedPacketType .none) ∧ registry.call r = registry ∨
      r.code ≠ .none ∧ registry.register r.spec r.serializer r.wrap = .ok (registry.call r) ∧
        registry.call r = registry.insert r.entry := by
  by_cases h : r.code = .none
  · have hreg : registry.register r.spec r.serializer r.wrap =
        .error (.reservedPacketType .none) := by
      have hcode : r.spec.code = .none := h
      rw [register, hcode]
      rfl
    exact .inl ⟨h, hreg, by rw [call, hreg]⟩
  · have hreg : registry.register r.spec r.serializer r.wrap = .ok (registry.insert r.entry) :=
      if_neg (mt PacketType.isNone_iff.mp h)
    have hcall : registry.call r = registry.insert r.entry := by rw [call, hreg]
    exact .inr ⟨h, by rw [hreg, hcall], hcall⟩

theorem find?_call {registry : Registry} {r : Registration} {code : PacketType} :
    (registry.call r).find? code =
      if r.code ≠ .none ∧ r.code = code then some r.entry else registry.find? code := by
  rcases registry.call_cases r with ⟨hcode, -, hcall⟩ | ⟨hcode, -, hcall⟩ <;> rw [hcall]
  · rw [if_neg fun h => h.1 hcode]
  · have hentry : r.entry.code = r.code := rfl
    rw [find?_insert, hentry]
    simp only [ne_eq, hcode, not_false_eq_true, true_and]

/-- No two entries share a code. -/
def Distinct (registry : Registry) : Prop :=
  (registry.entries.map (·.code)).Nodup

theorem Distinct.insert {registry : Registry} (h : registry.Distinct) (entry : RegistryEntry) :
    (registry.insert entry).Distinct := by
  have hkept : ((registry.entries.filter (·.code != entry.code)).map (·.code)).Nodup :=
    h.sublist (List.filter_sublist.map _)
  have hother : entry.code ∉ (registry.entries.filter (·.code != entry.code)).map (·.code) := by
    simp
  -- an entry of the same code is taken out before the new one is put in
  rw [Distinct, Registry.insert, List.map_append]
  refine List.nodup_append.mpr ⟨hkept, List.nodup_singleton _, fun code hcode other hmem => ?_⟩
  obtain rfl := List.mem_singleton.mp hmem
  rintro rfl
  exact hother hcode

theorem Distinct.call {registry : Registry} (h : registry.Distinct) (r : Registration) :
    (registry.call r).Distinct := by
  rcases registry.call_cases r with ⟨-, -, hcall⟩ | ⟨-, -, hcall⟩ <;> rw [hcall]
  · exact h
  · exact h.insert r.entry

/-! ## Any number of calls -/

theorem Distinct.after {registry : Registry} (h : registry.Distinct)
    (history : List Registration) : (registry.after history).Distinct := by
  induction history generalizing registry with
  | nil => exact h
  | cons r history ih => exact ih (h.call r)

theorem after_append (registry : Registry) (history more : List Registration) :
    registry.after (history ++ more) = (registry.after history).after more :=
  List.foldl_append

/-- A code is found as it was registered last. -/
theorem find?_after (registry : Registry) (history : List Registration) (code : PacketType) :
    (registry.after history).find? code =
      ((Registration.last? history code).map Registration.entry).or (registry.find? code) := by
  induction history generalizing registry with
  | nil => rfl
  | cons r history ih =>
    have hcons : registry.after (r :: history) = (registry.call r).after history := rfl
    rw [hcons, ih, find?_call, Registration.last?_cons]
    -- a later registration of the code hides this one
    cases Registration.last? history code with
    | some later => rfl
    | none => split <;> rfl

theorem find?_after_empty (history : List Registration) (code : PacketType) :
    (after .empty history).find? code =
      (Registration.last? history code).map Registration.entry := by
  rw [find?_after]
  exact Option.or_none

/-- The catalogue, although it is inserted unchecked, is as if it had been registered: none of its
codes is the reserved one. -/
theorem Beginning.registry_eq (start : Beginning) :
    start.registry = after .empty (start.packets.map Registration.ofPacket) := by
  have hcall (registry : Registry) (p : Packet) :
      registry.call (.ofPacket p) = registry.insert (packetEntry p p.serializer) := by
    rcases registry.call_cases (.ofPacket p) with ⟨h, -⟩ | ⟨-, -, h⟩
    · exact absurd h p.code_ne_none
    · exact h
  cases start with
  | empty => rfl
  | standard =>
    -- both sides fold over the catalogue
    rw [Beginning.packets, after, List.foldl_map]
    simp only [hcall]
    rfl

namespace Beginning

variable (start : Beginning) (history : List Registration)

/-- Everything registered so far, the packets known from the beginning first. -/
def registrations : List Registration :=
  start.packets.map .ofPacket ++ history

/-- The codes known: those of the catalogue, if it was there, and those registered. -/
def known : Finset PacketType :=
  start.codes ∪ Registration.codes history

theorem none_notMem_codes : PacketType.none ∉ start.codes := by
  rw [codes, List.mem_toFinset, List.mem_map]
  rintro ⟨p, -, hcode⟩
  exact p.code_ne_none hcode

theorem known_eq : start.known history = Registration.codes (start.registrations history) := by
  have hcodes : (start.packets.map Registration.ofPacket).map Registration.code =
      start.packets.map Packet.code := List.map_map
  rw [Registration.codes, registrations, List.map_append, List.toFinset_append, hcodes,
    Finset.erase_union_distrib]
  exact congrArg (· ∪ _) (Finset.erase_eq_of_notMem start.none_notMem_codes).symm

theorem none_notMem_known : PacketType.none ∉ start.known history := by
  rw [known_eq, Registration.codes]
  exact Finset.notMem_erase _ _

theorem after_eq : start.registry.after history = after .empty (start.registrations history) := by
  rw [registrations, after_append, ← registry_eq]

theorem contains_iff (code : PacketType) :
    (start.registry.after history).contains code = true ↔ code ∈ start.known history := by
  rw [after_eq, contains, find?_after_empty, Option.isSome_map, Registration.isSome_last?, known_eq]

/-- There is one entry for each code. -/
theorem size_eq : (start.registry.after history).size = (start.known history).card := by
  have hdistinct : (start.registry.after history).Distinct := by
    have hempty : Registry.empty.Distinct := List.nodup_nil
    rw [after_eq]
    exact hempty.after _
  -- codes without repetition are as many as the set of them has elements
  have hcodes : ((start.registry.after history).entries.map (·.code)).toFinset =
      start.known history := by
    ext code
    rw [← contains_iff, contains, find?, List.find?_isSome, List.mem_toFinset, List.mem_map]
    simp only [beq_iff_eq]
  rw [← hcodes, List.toFinset_card_of_nodup hdistinct, List.length_map, size]

/-- A header is handed to the last registration of its type. -/
theorem dispatch_eq (header : Header) : (start.registry.after history).dispatch header =
    match Registration.last? (start.registrations history) header.packetType with
    | some r => some <$> r.wrap <$> r.spec.decodeBody r.serializer header
    | none => (fun _ => none) <$> skip header.contentLength := by
  have hreserved : Registration.last? (start.registrations history) .none = none := by
    rw [← Option.not_isSome_iff_eq_none, Registration.isSome_last?, ← known_eq]
    exact start.none_notMem_known history
  rw [after_eq, dispatch, find?_after_empty]
  by_cases h : header.packetType = .none
  · rw [h, hreserved]
    rfl
  · rw [if_neg (mt PacketType.isNone_iff.mp h)]
    cases Registration.last? (start.registrations history) header.packetType <;> rfl

end Beginning

/-- Whatever was registered, the reserved code is unknown, rejected registrations change nothing,
and the registry holds each other code once, as it was registered last. -/
theorem after_history (start : Beginning) (history : List Registration) :
    let registry := start.registry.after history
    let last? := Registration.last? (start.registrations history)
    registry.contains .none = false ∧
      -- a registration is rejected for the reserved code and no other
      (∀ r : Registration,
        r.code = .none ∧ registry.register r.spec r.serializer r.wrap =
            .error (.reservedPacketType .none) ∧ start.registry.after (history ++ [r]) = registry ∨
          r.code ≠ .none ∧ registry.register r.spec r.serializer r.wrap =
            .ok (start.registry.after (history ++ [r]))) ∧
      -- what is known
      (∀ code, registry.contains code = true ↔ code ∈ start.codes ∪ Registration.codes history) ∧
      (∀ code, registry.name? code = (last? code).map (·.spec.name)) ∧
      registry.size = (start.codes ∪ Registration.codes history).card ∧
      start.codes.card = start.packets.length ∧ Beginning.standard.packets.length = 24 ∧
      -- how packets are read
      (∀ header, registry.dispatch header =
        match last? header.packetType with
        | some r => some <$> r.wrap <$> r.spec.decodeBody r.serializer header
        | none => (fun _ => none) <$> skip header.contentLength) ∧
      last? .none = none ∧ (∀ code, (last? code).isSome = registry.contains code) ∧
      -- nothing else of what happened matters
      (∀ (start' : Beginning) (history' : List Registration),
        (∀ code, last? code = Registration.last? (start'.registrations history') code) →
        ∀ header, registry.dispatch header =
          (start'.registry.after history').dispatch header) := by
  intro registry last?
  have hafter : registry = after .empty (start.registrations history) := start.after_eq history
  have hdispatch := start.dispatch_eq history
  have hreserved : registry.contains .none = false :=
    Bool.eq_false_iff.mpr fun h => start.none_notMem_known history
      ((start.contains_iff history .none).mp h)
  have hlast (code : PacketType) : (last? code).isSome = registry.contains code := by
    rw [hafter, contains, find?_after_empty, Option.isSome_map]
  refine ⟨hreserved, fun r => ?_, start.contains_iff history, fun code => ?_,
    start.size_eq history, ?_, rfl, hdispatch, ?_, hlast, fun start' history' hsame header => ?_⟩
  · -- one call more
    have hcall : start.registry.after (history ++ [r]) = registry.call r :=
      after_append _ history [r]
    rw [hcall]
    exact (registry.call_cases r).imp_right fun ⟨hcode, hreg, _⟩ => ⟨hcode, hreg⟩
  · rw [name?, hafter, find?_after_empty, Option.map_map]
    rfl
  · cases start <;> rfl
  · exact Option.not_isSome_iff_eq_none.mp (by rw [hlast, hreserved]; exact Bool.false_ne_true)
  · rw [start'.dispatch_eq, ← hsame header.packetType]
    exact hdispatch header

end Registry

end ChatCodec
