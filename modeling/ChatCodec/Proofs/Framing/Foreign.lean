import ChatCodec.Proofs.Framing.Decoding
import ChatCodec.Proofs.Reading.Sighted

/-!
# Bodies read by foreign serializers

A packet may be registered with a serializer that asks the reader where it stands, or in which
pieces the bytes lie. What it makes of a body is then not decided by the declared content. It is
the same from two readers only as far as the serializer, limited to the content, cannot tell them
apart.

* `PacketSpec.judge` — what becomes of a body, by where its serializer came to stand;
* `RoomDeleted.positional`, `RoomDeleted.pieces` — read of a body nothing but where it lies, or in
  how many pieces;
* `RoomDeleted.wanting` — reads nothing, and gives an untrue reason;
* `Codec.ofRoomDeleted` — a codec that knows one packet, by such a serializer.

Main result: `Registry.Reachable.answer_dispatch`.
-/

namespace ChatCodec

open Read

variable {α β : Type}

theorem Read.answer_map (read : ReadM α) (f : α → β) (r : Reader) :
    (outcome (f <$> read) r).1 = (outcome read r).1.map f := by
  show (outcome (read >>= fun a => pure (f a)) r).1 = _
  rw [outcome, outcome, bind_apply]
  cases read r <;> rfl

namespace PacketSpec

variable {spec : PacketSpec β} {serializer : Serializer β} {header : Header} {r r' : Reader}

/-- What becomes of the answer of a serializer that was given the content at `start` and came to
stand at `after`. -/
def judge (spec : PacketSpec β) (header : Header) (start after : Nat) :
    Except CodecError β → Except CodecError β
  | .error e => .error (shortage header.contentLength e)
  | .ok body =>
    if after ≠ start + header.contentLength then
      .error (.contentSizeMismatch header.contentLength (consumed start after))
    else
      (checkCode header.errorCode (spec.errorCode body)).map fun _ => body

theorem answer_decodeBody_of_le (htype : header.packetType = spec.code)
    (hle : header.contentLength ≤ r.remaining) :
    (outcome (spec.decodeBody serializer header) r).1 = spec.judge header r.offset
      (outcome (within header.contentLength serializer.deserialize) r).2.offset
      (outcome (within header.contentLength serializer.deserialize) r).1 := by
  rw [outcome, outcome, decodeBody_of_le htype hle]
  cases within header.contentLength serializer.deserialize r with
  | error e r' => rfl
  | ok body r' =>
    dsimp only [judge]
    by_cases hends : r'.offset = r.offset + header.contentLength
    · rw [if_neg (not_not_intro hends), if_neg (not_not_intro hends)]
      cases checkCode header.errorCode (spec.errorCode body) <;> rfl
    · rw [if_pos hends, if_pos hends]

/-- A serializer that, under the limit, does the same from two readers at one place gives the same
body. -/
theorem answer_decodeBody (hle : header.contentLength ≤ r.remaining)
    (hle' : header.contentLength ≤ r'.remaining) (hoffset : r.offset = r'.offset)
    (hread : Agrees (within header.contentLength serializer.deserialize) r r') :
    (outcome (spec.decodeBody serializer header) r).1 =
      (outcome (spec.decodeBody serializer header) r').1 := by
  by_cases htype : header.packetType = spec.code
  · rw [answer_decodeBody_of_le htype hle, answer_decodeBody_of_le htype hle', hoffset,
      hread.answer_eq, hread.offset_eq]
  · rw [decodeBody_of_ne htype]
    rfl

end PacketSpec

/-- What a header is dispatched to answers the same from two readers at one place, if each
serializer that may have been registered does the same from both under the limit. -/
theorem Registry.Reachable.answer_dispatch {reads : (β : Type) → ReadM β → Prop}
    {registry : Registry} {header : Header} {r r' : Reader} (h : registry.Reachable reads)
    (hlocal : ∀ {β} {read : ReadM β}, Local read → reads β read)
    (hle : header.contentLength ≤ r.remaining) (hle' : header.contentLength ≤ r'.remaining)
    (hoffset : r.offset = r'.offset)
    (hreads : ∀ {β} {read : ReadM β}, reads β read →
      Agrees (within header.contentLength read) r r') :
    (outcome (registry.dispatch header) r).1 = (outcome (registry.dispatch header) r').1 := by
  rcases registry.dispatch_cases header with heq | ⟨entry, hmem, -, heq⟩ <;>
    rw [heq, answer_map, answer_map]
  · have hskip {r : Reader} (hle : header.contentLength ≤ r.remaining) :
        (outcome (skip header.contentLength) r).1 = .ok () := by
      rw [outcome, skip, bind_apply, ensure_apply, if_neg (Nat.not_lt.mpr hle)]
      rfl
    rw [hskip hle, hskip hle']
  · obtain ⟨β, spec, serializer, wrap, hread, rfl⟩ := h.readBy hlocal entry hmem
    show ((outcome (wrap <$> spec.decodeBody serializer header) r).1).map some =
      ((outcome (wrap <$> spec.decodeBody serializer header) r').1).map some
    rw [answer_map, answer_map, PacketSpec.answer_decodeBody hle hle' hoffset (hreads hread)]

/-! ## Foreign serializers -/

namespace RoomDeleted

/-- Passes over a room id, and answers the offset at which it lies for it. -/
def positionalRead : ReadProgram RoomDeleted :=
  .read .position fun
    | .ok position => .read (.skip 8) fun
      | .ok _ => .done (.ok ⟨⟨.ofNat position.offset⟩⟩)
      | .error e => .done (.error e)
    | .error e => .done (.error e)

/-- Passes over a room id, and answers for it whether the bytes lie in one piece. -/
def piecesRead (contiguous : Bool) : ReadProgram RoomDeleted :=
  .read (.skip 8) fun
    | .ok _ => .done (.ok ⟨⟨if contiguous then 1 else 2⟩⟩)
    | .error e => .done (.error e)

/-- Room ids are written as ever, and read as the places at which they lie. -/
def positional : Serializer RoomDeleted :=
  .ofFunctions 8 layout.write positionalRead.run

/-- Room ids are written as ever, and read as the number of pieces, one or many. -/
def pieces : Serializer RoomDeleted :=
  .ofFunctions 8 layout.write (ReadProgram.runByPieces piecesRead)

/-- Room ids are written as ever, and refused for want of no bytes. -/
def wanting : Serializer RoomDeleted :=
  .ofFunctions 8 layout.write (throw (.insufficientData 0 0))

theorem indifferent_positional : Indifferent positional.deserialize :=
  positionalRead.indifferent_run

theorem sighted_pieces : Sighted pieces.deserialize :=
  ReadProgram.sighted_runByPieces piecesRead

end RoomDeleted

namespace Codec

/-- Knows the packet of deleted rooms, by the serializer given. -/
def ofRoomDeleted (serializer : Serializer RoomDeleted) : Codec where
  config := .standard
  registry := Registry.empty.insert (Registry.packetEntry .roomDeletedBroadcast serializer)
  valid := standard.valid

theorem reachable_ofRoomDeleted {reads : (β : Type) → ReadM β → Prop}
    {serializer : Serializer RoomDeleted} (h : reads RoomDeleted serializer.deserialize) :
    (ofRoomDeleted serializer).registry.Reachable reads :=
  .registerPacket (p := .roomDeletedBroadcast) .empty h rfl

end Codec

end ChatCodec
