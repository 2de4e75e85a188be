import ChatCodec.Proofs.Framing.Foreign
import ChatCodec.Proofs.Framing.Registrations
import ChatCodec.Proofs.Reading.Honest

/-!
# Bodies see the declared content and nothing else

With all declared bytes there, a body is read by a serializer made of those of the catalogue as
from a byte string of just these, wherever the reader stands. All of them are consumed or none is,
and nothing that the content says, however far it points, is taken for a shortage of input.

Of a registry less can be said, since a serializer may be registered that asks the reader for its
offset or makes up errors. All declared bytes are consumed or none is, and there is no shortage,
whatever is registered (`PacketSpec.settles_decodeBody`). That the answer is the one to just these
bytes is so for a header of whose type the last registration is `Read.Local`; that the sizes
reported are those of a body that does not fit, if it is `Serializer.Honest` as well.

* `Read.Confined` — from a reader, the read sees so many bytes;
* `Serializer.Misfits` — the body wants more bytes than the content has, or leaves some.

Main result: `Registry.confined_to_content`.
-/

namespace ChatCodec

open Read

variable {α β : Type}

/-- From `r`, the read answers what it answers to just the declared bytes. It takes all of them, or
leaves the reader as it was, and then not for want of more. -/
structure Read.Confined (read : ReadM α) (declared : Nat) (r : Reader) : Prop where
  eq : read r = r.replay (run read (r.rest.take declared))
  ok : ∀ {a n}, run read (r.rest.take declared) = .ok (a, n) → n = declared
  error : ∀ {e}, run read (r.rest.take declared) = .error e → e.isInsufficientData = false

/-- How many bytes a body takes that does not fit the content. It runs short of them, and then takes
as many as it would have needed, as far as 64 bits can say; or it leaves some. -/
inductive Serializer.Misfits (s : Serializer β) (content : Bytes) : Nat → Prop
  | short {need available : Nat}
      (h : run s.deserialize content = .error (.insufficientData need available))
      (hlt : content.length < min (content.length - available + need) (UInt64.size - 1)) :
      Misfits s content (min (content.length - available + need) (UInt64.size - 1))
  | left {body : β} {consumed : Nat} (h : run s.deserialize content = .ok (body, consumed))
      (hlt : consumed < content.length) : Misfits s content consumed

namespace Read

variable {read : ReadM α} {declared : Nat} {r : Reader}

theorem ParsesContent.confined {answer : Bytes → Except CodecError α}
    (h : ParsesContent read declared answer)
    (hcomplete : ∀ {content e}, answer content = .error e → e.isInsufficientData = false)
    (hr : r.Valid) (hlen : declared ≤ r.rest.length) : Confined read declared r := by
  have hcontent : (r.rest.take declared).length = declared :=
    List.length_take_of_le hlen
  have hrun := h.run_content hcontent
  refine ⟨?_, fun hok => ?_, fun herror => ?_⟩
  · rw [Parses.eq h hr, if_neg (Nat.not_lt.mpr hlen), hrun]
  · obtain ⟨a, -, hanswer⟩ := ok_of_map (hrun ▸ hok)
    cases hanswer
    rfl
  · exact hcomplete (error_of_map (hrun ▸ herror))

theorem confined_throw {e : CodecError} (he : e.isInsufficientData = false) :
    Confined (throw e : ReadM α) declared r :=
  ⟨rfl, fun h => (nomatch h), fun h => by cases h; exact he⟩

end Read

/-- No header declares as many bytes as 64 bits can say. -/
theorem Header.contentLength_lt (h : Header) : h.contentLength < UInt64.size - 1 := by
  have hlt := h.contentSize.toInt_lt
  rw [contentLength]
  show h.contentSize.toInt.toNat < 18446744073709551615
  omega

namespace PacketSpec

variable {spec : PacketSpec β} {serializer : Serializer β} {header : Header} {content : Bytes}

theorem shortage_of_isRefusal {declared : Nat} {e : CodecError} (h : e.IsRefusal) :
    shortage declared e = e := by
  cases e <;> first | rfl | exact False.elim h

/-- Behind a true error, sizes are told of a shortage only. -/
theorem short_of_shortage {e : CodecError} {n declared size consumed : Nat} (htrue : e.IsTrue n)
    (h : shortage declared e = .contentSizeMismatch size consumed) :
    ∃ need available, e = .insufficientData need available ∧ available < need ∧ available ≤ n ∧
      size = declared ∧ consumed = min (declared - available + need) (UInt64.size - 1) := by
  rcases htrue with hrefusal | ⟨need, available, rfl, hlt, hle⟩
  · -- a refusal stays what it is
    rw [shortage_of_isRefusal hrefusal] at h
    subst h
    exact False.elim hrefusal
  · cases h
    exact ⟨need, available, rfl, hlt, hle, rfl, rfl⟩

/-- The sizes that are told of content are those of a body that does not fit it. -/
theorem decodeContent_mismatch_iff (spec : PacketSpec β) (hserializer : serializer.Honest)
    (hlen : content.length = header.contentLength) (declared consumed : Nat) :
    spec.decodeContent serializer header content =
        .error (.contentSizeMismatch declared consumed) ↔
      declared = content.length ∧ serializer.Misfits content consumed := by
  have hsmall : content.length < UInt64.size - 1 := hlen ▸ header.contentLength_lt
  unfold decodeContent
  cases hrun : run serializer.deserialize content with
  | error e =>
    dsimp only
    constructor
    · intro h
      obtain ⟨need, available, rfl, hlt, hle, rfl, rfl⟩ :=
        short_of_shortage (hserializer.error hrun) (Except.error.inj h)
      have hmore : content.length <
          min (content.length - available + need) (UInt64.size - 1) := by omega
      exact ⟨rfl, .short hrun hmore⟩
    · rintro ⟨rfl, ⟨h, -⟩ | ⟨h, -⟩⟩
      · rw [hrun] at h
        cases h
        rfl
      · rw [hrun] at h
        cases h
  | ok answer =>
    obtain ⟨body, n⟩ := answer
    have hle := hserializer.toLocal.consumed_le hrun
    dsimp only
    constructor
    · intro h
      split at h
      · next hne =>
        cases h
        exact ⟨rfl, .left hrun (by omega)⟩
      · -- the codes are compared last
        obtain ⟨headerCode, bodyCode, hcode⟩ := error_of_checkCode (error_of_map h)
        cases hcode
    · rintro ⟨rfl, ⟨h, -⟩ | ⟨h, hlt⟩⟩
      · rw [hrun] at h
        cases h
      · rw [hrun] at h
        cases h
        exact if_pos (Nat.ne_of_lt hlt)

end PacketSpec

/-! ## Registries -/

namespace Registration

variable {history : List Registration} {code : PacketType} {r : Registration}

/-- The last registration of a code is one of those made, and of the code. -/
theorem of_last? (h : last? history code = some r) : r ∈ history ∧ r.code = code := by
  have hcode := List.find?_some h
  simp only [Bool.and_eq_true, beq_iff_eq] at hcode
  exact ⟨List.mem_reverse.mp (List.mem_of_find?_eq_some h), hcode.2⟩

end Registration

namespace PacketSpec

variable {spec : PacketSpec β} {serializer : Serializer β} {header : Header} {r : Reader}

/-- A body is read from the declared content alone. -/
theorem confined_decodeBody (hserializer : serializer.Honest) (hr : r.Valid)
    (hlen : header.contentLength ≤ r.rest.length) :
    Confined (spec.decodeBody serializer header) header.contentLength r := by
  by_cases htype : header.packetType = spec.code
  · exact (parses_decodeBody hserializer.toLocal htype).confined complete_decodeContent hr hlen
  · rw [decodeBody_of_ne htype]
    exact confined_throw rfl

/-- A body is refused for its size just if it does not fit the content. -/
theorem decodeBody_mismatch_iff (hserializer : serializer.Honest) (hr : r.Valid)
    (hlen : header.contentLength ≤ r.rest.length) {declared consumed : Nat} :
    spec.decodeBody serializer header r = .error (.contentSizeMismatch declared consumed) r ↔
      header.packetType = spec.code ∧ declared = header.contentLength ∧
        serializer.Misfits (r.rest.take header.contentLength) consumed := by
  have hcontent : (r.rest.take header.contentLength).length = header.contentLength :=
    List.length_take_of_le hlen
  by_cases htype : header.packetType = spec.code
  · have hread := (parses_decodeBody hserializer.toLocal htype).eq hr
    have hiff := decodeContent_mismatch_iff spec hserializer hcontent declared consumed
    rw [hcontent] at hiff
    rw [hread, if_neg (Nat.not_lt.mpr hlen), ← hiff]
    simp only [htype, true_and]
    cases spec.decodeContent serializer header (r.rest.take header.contentLength) <;>
      simp [Reader.replay, Except.map]
  · rw [decodeBody_of_ne htype]
    constructor
    · intro h
      cases h
    · intro h
      exact absurd h.1 htype

end PacketSpec

namespace Registry

variable {start : Beginning} {history : List Registration} {header : Header} {r : Reader}

/-- Whatever was registered, content that is there is taken whole or left, and not called short. -/
theorem Beginning.settles_dispatch (start : Beginning) (history : List Registration)
    (hle : header.contentLength ≤ r.remaining) :
    Settles ((start.registry.after history).dispatch header) header.contentLength r := by
  rw [start.dispatch_eq]
  cases Registration.last? (start.registrations history) header.packetType with
  | none => exact (settles_skip hle).map _
  | some last => exact ((PacketSpec.settles_decodeBody hle).map last.wrap).map some

/-- What is dispatched to a local serializer, or to none, sees the declared content alone. -/
theorem confined_dispatch
    (hlast : ∀ last, Registration.last? (start.registrations history) header.packetType =
      some last → Local last.serializer.deserialize) (hr : r.Valid)
    (hlen : header.contentLength ≤ r.rest.length) :
    Confined ((start.registry.after history).dispatch header) header.contentLength r := by
  rw [start.dispatch_eq]
  cases h : Registration.last? (start.registrations history) header.packetType with
  | none => exact ((ParsesContent.of_skip _).map _).confined (fun h => (nomatch h)) hr hlen
  | some last =>
    obtain ⟨-, hcode⟩ := Registration.of_last? h
    have hparse : ParsesContent (last.spec.decodeBody last.serializer header)
        header.contentLength _ := PacketSpec.parses_decodeBody (hlast last h) hcode.symm
    exact ((hparse.map last.wrap).map some).confined
      (fun h => PacketSpec.complete_decodeContent (error_of_map (error_of_map h))) hr hlen

/-- Content is refused for its size just if the body does not fit it, unless the serializer makes
up its errors. -/
theorem dispatch_mismatch_iff
    (hlast : ∀ last, Registration.last? (start.registrations history) header.packetType =
      some last → last.serializer.Honest) (hr : r.Valid)
    (hlen : header.contentLength ≤ r.rest.length) {declared consumed : Nat} :
    (start.registry.after history).dispatch header r =
        .error (.contentSizeMismatch declared consumed) r ↔
      declared = header.contentLength ∧ ∃ last,
        Registration.last? (start.registrations history) header.packetType = some last ∧
          last.serializer.Misfits (r.rest.take header.contentLength) consumed := by
  rw [start.dispatch_eq]
  cases h : Registration.last? (start.registrations history) header.packetType with
  | none =>
    -- nothing but the skip can fail, and there is enough to be skipped
    have hskip := (parses_skip header.contentLength).eq hr
    rw [if_neg (Nat.not_lt.mpr hlen)] at hskip
    dsimp only
    rw [map_eq_error_iff, hskip]
    exact ⟨fun h => (nomatch h), fun ⟨_, _, h, _⟩ => (nomatch h)⟩
  | some last =>
    obtain ⟨-, hcode⟩ := Registration.of_last? h
    have htype : header.packetType = last.spec.code := hcode.symm
    dsimp only
    rw [map_eq_error_iff, map_eq_error_iff,
      PacketSpec.decodeBody_mismatch_iff (hlast last h) hr hlen]
    simp [htype]

/-- A packet is read behind its header by any serializer made of honest ones, as all of the
catalogue are, or is dispatched to whatever was registered. Wherever the reader stands, if the
declared bytes are there, then by the serializer the answer is that to just these: all of them are
consumed, or the reader is left as it was, and not for a shortage of input. Content is refused for
its size just if the body runs short of it, and then takes more bytes, or leaves some, and then
takes fewer.

When dispatched the content is taken whole or left and not called short, whatever is registered. The
answer is that to just the declared bytes where the serializer registered last for the type looks at
the bytes ahead alone, and content is refused for its size as said where its errors are true too. -/
theorem confined_to_content (spec : PacketSpec β) {serializer : Serializer β}
    (hserializer : serializer.Composed @Serializer.Honest) (start : Beginning)
    (history : List Registration) (header : Header) (hr : r.Valid)
    (hlen : header.contentLength ≤ r.remaining) :
    let declared := header.contentLength
    let content := r.rest.take declared
    let decode := spec.decodeBody serializer header
    let dispatch := (start.registry.after history).dispatch header
    let last? := Registration.last? (start.registrations history)
    content.length = declared ∧ Confined decode declared r ∧
      (∀ size consumed, decode r = .error (.contentSizeMismatch size consumed) r ↔
        header.packetType = spec.code ∧ size = declared ∧ serializer.Misfits content consumed) ∧
      -- whatever is registered
      Settles dispatch declared r ∧
      -- by what is registered for the type
      ((∀ last, last? header.packetType = some last → Local last.serializer.deserialize) →
        Confined dispatch declared r) ∧
      ((∀ last, last? header.packetType = some last → last.serializer.Honest) →
        ∀ size consumed, dispatch r = .error (.contentSizeMismatch size consumed) r ↔
          size = declared ∧ ∃ last, last? header.packetType = some last ∧
            last.serializer.Misfits content consumed) := by
  have hlen' := hlen
  rw [← Reader.length_rest hr] at hlen
  have hcontent : (r.rest.take header.contentLength).length = header.contentLength :=
    List.length_take_of_le hlen
  exact ⟨hcontent, PacketSpec.confined_decodeBody hserializer.honest hr hlen,
    fun _ _ => PacketSpec.decodeBody_mismatch_iff hserializer.honest hr hlen,
    start.settles_dispatch history hlen',
    fun hlast => confined_dispatch hlast hr hlen,
    fun hlast _ _ => dispatch_mismatch_iff hlast hr hlen⟩

/-- A code and the count of five rooms are all the content, and the room that the bytes behind it
have is not theirs: five rooms take 145 bytes at least, and so the body takes 150. -/
theorem confined_to_content_short :
    let room := Serializer.roomSummary
    let serializer := Packet.fetchRoomsSerializer room
    let history := [⟨Packet.fetchRoomsResponse.spec, serializer, Incoming.mk .fetchRoomsResponse⟩]
    let header : Header := ⟨Packet.fetchRoomsResponse.code, some 0, 5⟩
    let r := (Reader.ofSegments ((Segments.empty.push [9, 9, 0]).push [5, 0, 0, 0, 7])).advance 2
    let last? := Registration.last? (Beginning.standard.registrations history)
    (serializer.Composed @Serializer.Honest ∧
      (∀ last, last? header.packetType = some last → last.serializer.Honest) ∧ r.Valid ∧
        header.contentLength ≤ r.remaining) ∧
      Packet.fetchRoomsResponse.spec.decodeBody serializer header r =
        .error (.contentSizeMismatch 5 150) r ∧
      (Beginning.standard.registry.after history).dispatch header r =
        .error (.contentSizeMismatch 5 150) r := by
  intro room serializer history header r last?
  have hserializer : serializer.Composed @Serializer.Honest :=
    .response .codeOnly (.list (.through (.ofLayout _) _ _))
  have hknown : last? header.packetType =
      some ⟨Packet.fetchRoomsResponse.spec, serializer, Incoming.mk .fetchRoomsResponse⟩ := rfl
  have hlast : ∀ last, last? header.packetType = some last → last.serializer.Honest := by
    intro last h
    rw [hknown] at h
    cases h
    exact hserializer.honest
  have hr : r.Valid := (Reader.valid_ofSegments _).advance (by decide)
  have hlen : header.contentLength ≤ r.remaining := by decide
  obtain ⟨-, -, hdecode, -, -, hdispatch⟩ := confined_to_content Packet.fetchRoomsResponse.spec
    hserializer .standard history header hr hlen
  have hcontent : r.rest.take header.contentLength = [0, 5, 0, 0, 0] := rfl
  have hrun : run serializer.deserialize [0, 5, 0, 0, 0] = .error (.insufficientData 145 0) := rfl
  have hmisfits : serializer.Misfits (r.rest.take header.contentLength) 150 := by
    rw [hcontent]
    exact .short hrun (by decide)
  exact ⟨⟨hserializer, hlast, hr, hlen⟩, (hdecode 5 150).mpr ⟨rfl, rfl, hmisfits⟩,
    (hdispatch hlast 5 150).mpr ⟨rfl, _, hknown, hmisfits⟩⟩

/-- A serializer that asks for its offset answers two bytes on what it does not answer to the same
content at the start. One that gives untrue reasons has content refused for taking just as many
bytes as it has. -/
theorem dispatch_of_foreign :
    let registry (serializer : Serializer RoomDeleted) := Beginning.empty.registry.after
      [⟨Packet.roomDeletedBroadcast.spec, serializer, Incoming.mk .roomDeletedBroadcast⟩]
    let header : Header := ⟨Packet.roomDeletedBroadcast.code, none, 8⟩
    let r := (Reader.ofBytes [9, 9, 1, 0, 0, 0, 0, 0, 0, 0]).advance 2
    let room (id : UInt64) : Option Incoming := some ⟨.roomDeletedBroadcast, ⟨⟨id⟩⟩⟩
    r.Valid ∧ header.contentLength ≤ r.remaining ∧
      (registry RoomDeleted.positional).dispatch header r = .ok (room 2) (r.advance 8) ∧
      run ((registry RoomDeleted.positional).dispatch header) (r.rest.take 8) = .ok (room 0, 8) ∧
      (registry RoomDeleted.wanting).dispatch header r = .error (.contentSizeMismatch 8 8) r :=
  ⟨⟨by decide, by decide⟩, by decide, rfl, rfl, rfl⟩

end Registry

end ChatCodec
