import ChatCodec.Codec
import ChatCodec.Proofs.Framing.Header

/-!
# Bodies are read from the declared content only

Reading the body behind a header, by a serializer that looks at the bytes ahead alone, depends on
nothing but the bytes the header declares. If they have not all arrived, the answer is a shortage;
if they have, whatever follows them does not matter. Whatever the serializer does, either all of
them are consumed or the cursor stays.

* `Read.ParsesContent` — the read takes the declared bytes or none;
* `Read.Settles` — content that is there is taken whole or left, and never called short;
* `PacketSpec.decodeContent` — the answer of a packet to the whole content;
* `Registry.Reachable` — a registry that came about by registrations of serializers of some kind;
* `Registry.decodeContent` — the answer of a registry to a header and the whole content.

A registered serializer is foreign code. It may ask the reader where it stands, and then its answer
is not decided by the content alone. So `PacketSpec.parses_decodeBody` and
`Registry.Reachable.parses_dispatch` are about serializers that are `Read.Local`, as all of the
catalogue are; `Registry.Reachable.settles_dispatch` holds whatever is registered.

Main results: these, and `Registry.decodeContent_standard`, by which the registry of the catalogue
hands each packet to its own serializer. From these follow the answers of `Codec.decodeAny`,
`Codec.decode` and `Codec.decodeFrame` in terms of the header and the content.
-/

namespace ChatCodec

open Read

/-- Reads that take the declared bytes or none: a shortage until so many bytes are there, and then
the answer to just these. -/
def Read.ParsesContent {α : Type} (read : ReadM α) (declared : Nat)
    (answer : Bytes → Except CodecError α) : Prop :=
  Parses read fun bytes =>
    if bytes.length < declared then .error (.insufficientData declared bytes.length)
    else (answer (bytes.take declared)).map (·, declared)

namespace Read.ParsesContent

variable {α β : Type} {read : ReadM α} {declared : Nat} {answer : Bytes → Except CodecError α}

theorem map (h : ParsesContent read declared answer) (f : α → β) :
    ParsesContent (f <$> read) declared fun content => (answer content).map f := by
  have hrun (bytes : Bytes) : run (f <$> read) bytes =
      if bytes.length < declared then .error (.insufficientData declared bytes.length)
      else ((answer (bytes.take declared)).map f).map (·, declared) := by
    rw [run_map f h.local, h.run_eq]
    split
    · rfl
    · cases answer (bytes.take declared) <;> rfl
  have hclean : Clean (f <$> read) := h.clean.map f
  rwa [Clean, funext hrun] at hclean

/-- On just the declared bytes the read gives the answer to them. -/
theorem run_content (h : ParsesContent read declared answer) {content : Bytes}
    (hlen : content.length = declared) :
    run read content = (answer content).map (·, declared) := by
  rw [h.run_eq, if_neg (Nat.not_lt.mpr (Nat.le_of_eq hlen.symm)),
    List.take_of_length_le (Nat.le_of_eq hlen)]

theorem of_skip (declared : Nat) : ParsesContent (skip declared) declared fun _ => .ok () :=
  parses_skip declared

/-- Only the answers to contents of the declared length matter. -/
theorem congr {answer' : Bytes → Except CodecError α} (h : ParsesContent read declared answer)
    (heq : ∀ {content}, content.length = declared → answer content = answer' content) :
    ParsesContent read declared answer' := by
  have hparse : (fun bytes : Bytes =>
      if bytes.length < declared then .error (.insufficientData declared bytes.length)
      else (answer (bytes.take declared)).map (·, declared)) = fun bytes : Bytes =>
      if bytes.length < declared then .error (.insufficientData declared bytes.length)
      else (answer' (bytes.take declared)).map (·, declared) := by
    funext bytes
    split
    · rfl
    · next hle => rw [heq (by rw [List.length_take]; omega)]
  rwa [ParsesContent, hparse] at h

/-- The answer to the whole content is what the read makes of it. -/
theorem run (h : ParsesContent read declared answer) :
    ParsesContent read declared fun content => (Read.run read content).map Prod.fst := by
  refine h.congr fun {content} hlen => ?_
  rw [h.run_content hlen]
  cases answer content <;> rfl

end Read.ParsesContent

/-- From `r` the read moves on by the declared bytes, or leaves the cursor where it was, and then
not for want of more. The capacity stays as it was. -/
structure Read.Settles {α : Type} (read : ReadM α) (declared : Nat) (r : Reader) : Prop where
  ok : ∀ {a r'}, read r = .ok a r' → r'.offset = r.offset + declared ∧ r'.capacity = r.capacity
  error : ∀ {e r'}, read r = .error e r' →
    r'.offset = r.offset ∧ r'.capacity = r.capacity ∧ e.isInsufficientData = false

namespace Read

variable {α β : Type} {read : ReadM α} {declared : Nat} {r : Reader}

/-- What is made of the value does not matter to a failure. -/
theorem map_eq_error_iff {f : α → β} {e : CodecError} {r' : Reader} :
    (f <$> read) r = .error e r' ↔ read r = .error e r' := by
  have hbind : f <$> read = read >>= fun a => pure (f a) := rfl
  rw [hbind, bind_apply]
  cases read r with
  | ok a v => exact ⟨fun h => (nomatch h), fun h => (nomatch h)⟩
  | error e' v => simp

theorem Settles.map (h : Settles read declared r) (f : α → β) :
    Settles (f <$> read) declared r := by
  constructor
  · intro b r' hok
    have hbind : f <$> read = read >>= fun a => pure (f a) := rfl
    rw [hbind, bind_apply] at hok
    split at hok <;> cases hok
    next hread => exact h.ok hread
  · intro e r' herror
    exact h.error (map_eq_error_iff.mp herror)

theorem settles_skip (hle : declared ≤ r.remaining) : Settles (skip declared) declared r := by
  have hskip : skip declared r = .ok () { r with offset := r.offset + declared } := by
    rw [skip, bind_apply, ensure_apply, if_neg (Nat.not_lt.mpr hle)]
    rfl
  constructor
  · intro a r' hok
    rw [hskip] at hok
    cases hok
    exact ⟨rfl, rfl⟩
  · intro e r' herror
    rw [hskip] at herror
    cases herror

/-- Whatever is read under a limit, the limit is lifted again. -/
theorem capacity_of_within {len : Nat} {a : α} {r' : Reader} (h : within len read r = .ok a r') :
    r'.capacity = r.capacity := by
  rw [within_apply] at h
  split at h
  · cases h
  · split at h <;> cases h
    rfl

theorem capacity_of_within_error {len : Nat} {e : CodecError} {r' : Reader}
    (h : within len read r = .error e r') : r'.capacity = r.capacity := by
  rw [within_apply] at h
  split at h
  · cases h
    rfl
  · split at h <;> cases h
    rfl

end Read

namespace PacketSpec

variable {β : Type}

/-- The body that the whole content spells, or what is wrong with it. -/
def decodeContent (spec : PacketSpec β) (serializer : Serializer β) (header : Header)
    (content : Bytes) : Except CodecError β :=
  match run serializer.deserialize content with
  | .error e => .error (shortage content.length e)
  | .ok (body, consumed) =>
    if consumed ≠ content.length then
      .error (.contentSizeMismatch content.length consumed)
    else
      (checkCode header.errorCode (spec.errorCode body)).map fun _ => body

/-- Behind a header of another packet no body is read. -/
theorem decodeBody_of_ne {spec : PacketSpec β} {serializer : Serializer β} {header : Header}
    (h : header.packetType ≠ spec.code) : spec.decodeBody serializer header =
      throw (.packetTypeMismatch spec.code header.packetType) := by
  rw [decodeBody, if_pos h, throw_bind]

/-- Before the content is there, no body is read. -/
theorem decodeBody_of_short {spec : PacketSpec β} {serializer : Serializer β} {header : Header}
    {r : Reader} (htype : header.packetType = spec.code)
    (hlt : r.remaining < header.contentLength) : spec.decodeBody serializer header r =
      .error (.insufficientData header.contentLength r.remaining) r := by
  simp only [decodeBody, htype, ne_eq, not_true_eq_false, if_false]
  rw [get_bind_apply, if_pos hlt]
  rfl

/-- Once the content is there, the body is what the serializer makes of it under the limit, if that
ends where the content ends and the codes agree. -/
theorem decodeBody_of_le {spec : PacketSpec β} {serializer : Serializer β} {header : Header}
    {r : Reader} (htype : header.packetType = spec.code)
    (hle : header.contentLength ≤ r.remaining) : spec.decodeBody serializer header r =
      match within header.contentLength serializer.deserialize r with
      | .error e r' => .error (shortage header.contentLength e) { r' with offset := r.offset }
      | .ok body r' =>
        if r'.offset ≠ r.offset + header.contentLength then
          .error (.contentSizeMismatch header.contentLength (consumed r.offset r'.offset))
            { r' with offset := r.offset }
        else
          match checkCode header.errorCode (spec.errorCode body) with
          | .ok _ => .ok body r'
          | .error e => .error e { r' with offset := r.offset } := by
  simp only [decodeBody, htype, ne_eq, not_true_eq_false, if_false]
  rw [get_bind_apply, if_neg (Nat.not_lt.mpr hle), Read.atomic, bind_apply, Read.mapError]
  cases within header.contentLength serializer.deserialize r with
  | error e r' => rfl
  | ok body r' =>
    dsimp only
    rw [get_bind_apply]
    by_cases hends : r'.offset = r.offset + header.contentLength
    · rw [if_neg (not_not_intro hends), if_neg (not_not_intro hends)]
      cases checkCode header.errorCode (spec.errorCode body) <;> rfl
    · rw [if_pos hends, if_pos hends]
      rfl

/-- The body of a packet is read from the declared bytes. -/
theorem parses_decodeBody {spec : PacketSpec β} {serializer : Serializer β} {header : Header}
    (hread : Local serializer.deserialize) (htype : header.packetType = spec.code) :
    ParsesContent (spec.decodeBody serializer header) header.contentLength
      (spec.decodeContent serializer header) := by
  refine ⟨fun {bytes body n} h => ?_, fun {r} hr => ?_⟩
  · split at h
    · cases h
    · obtain ⟨answer, -, hanswer⟩ := ok_of_map h
      cases hanswer
      omega
  · rw [Reader.length_rest hr]
    by_cases hlt : r.remaining < header.contentLength
    · rw [if_pos hlt, decodeBody_of_short htype hlt]
      rfl
    · -- under the limit the serializer sees the declared bytes and no more
      have hle := Nat.le_of_not_lt hlt
      have hlen : (r.rest.take header.contentLength).length = header.contentLength :=
        List.length_take_of_le (Reader.length_rest hr ▸ hle)
      have hbody := (parses_within hread header.contentLength).eq hr
      rw [Reader.length_rest hr, if_neg hlt] at hbody
      rw [if_neg hlt, decodeBody_of_le htype hle, hbody, decodeContent, hlen]
      cases hrun : run serializer.deserialize (r.rest.take header.contentLength) with
      | error e => rfl
      | ok answer =>
        obtain ⟨body, n⟩ := answer
        -- what was consumed is how far the cursor moved
        have hmoved : consumed r.offset (r.advance n).offset = n := by
          show consumed r.offset (r.offset + n) = n
          rw [consumed, if_pos (Nat.le_add_right _ _), Nat.add_sub_cancel_left]
        have hends : (r.advance n).offset ≠ r.offset + header.contentLength ↔
            n ≠ header.contentLength := not_congr Nat.add_left_cancel_iff
        show (if (r.advance n).offset ≠ _ then _ else _) = _
        rw [hmoved]
        simp only [hends]
        by_cases hall : n = header.contentLength
        · subst hall
          rw [if_neg (not_not_intro rfl), if_neg (not_not_intro rfl)]
          cases checkCode header.errorCode (spec.errorCode body) <;> rfl
        · rw [if_pos hall, if_pos hall]
          rfl

/-- Codes are refused for their difference only. -/
theorem error_of_checkCode {header : Option Int8} {body : Option ErrorCode} {e : CodecError}
    (h : checkCode header body = .error e) :
    ∃ headerCode bodyCode, e = .errorCodeMismatch headerCode bodyCode := by
  unfold checkCode at h
  split at h
  · split at h <;> cases h
    exact ⟨_, _, rfl⟩
  · cases h

/-- A shortage inside the content is told as a mismatch of sizes. -/
theorem complete_shortage (declared : Nat) (e : CodecError) :
    (shortage declared e).isInsufficientData = false := by
  cases e <;> rfl

/-- Whatever the serializer does, content that is there is taken whole or left, and not called
short. -/
theorem settles_decodeBody {spec : PacketSpec β} {serializer : Serializer β} {header : Header}
    {r : Reader} (hle : header.contentLength ≤ r.remaining) :
    Settles (spec.decodeBody serializer header) header.contentLength r := by
  by_cases htype : header.packetType = spec.code
  · have hbody : spec.decodeBody serializer header r = _ := decodeBody_of_le htype hle
    constructor
    · intro body r' hok
      rw [hbody] at hok
      split at hok
      · cases hok
      · next hwithin =>
        split at hok
        · cases hok
        · next hends =>
          split at hok <;> cases hok
          exact ⟨Decidable.of_not_not hends, capacity_of_within hwithin⟩
    · intro e r' herror
      rw [hbody] at herror
      split at herror
      · next hwithin =>
        have hcapacity := capacity_of_within_error hwithin
        cases herror
        exact ⟨rfl, hcapacity, complete_shortage _ _⟩
      · next hwithin =>
        have hcapacity := capacity_of_within hwithin
        split at herror
        · cases herror
          exact ⟨rfl, hcapacity, rfl⟩
        · split at herror <;> cases herror
          next hcode =>
          obtain ⟨headerCode, bodyCode, rfl⟩ := error_of_checkCode hcode
          exact ⟨rfl, hcapacity, rfl⟩
  · rw [decodeBody_of_ne htype]
    constructor
    · intro body r' hok
      cases hok
    · intro e r' herror
      cases herror
      exact ⟨rfl, rfl, rfl⟩

/-- A body whose bytes are all there is never short of any. -/
theorem complete_decodeContent {spec : PacketSpec β} {serializer : Serializer β} {header : Header}
    {content : Bytes} {e : CodecError}
    (h : spec.decodeContent serializer header content = .error e) :
    e.isInsufficientData = false := by
  unfold decodeContent at h
  split at h
  · cases h
    exact complete_shortage _ _
  · split at h
    · cases h
      rfl
    · -- the last error left is that of the codes
      obtain ⟨headerCode, bodyCode, rfl⟩ := error_of_checkCode (error_of_map h)
      rfl

end PacketSpec

namespace Packet

/-- No two packets share a code. -/
theorem code_injective {p q : Packet} (h : p.code = q.code) : p = q := by
  cases p <;> cases q <;> first | rfl | exact absurd h (by decide)

theorem isNone_code (p : Packet) : p.code.isNone = false := by
  cases p <;> rfl

end Packet

/-! ## Registries -/

namespace RegistryEntry

/-- The entry of a packet whose bodies are read by a serializer of some kind. -/
def ReadBy (reads : (β : Type) → ReadM β → Prop) (entry : RegistryEntry) : Prop :=
  ∃ (β : Type) (spec : PacketSpec β) (serializer : Serializer β) (wrap : β → Incoming),
    reads β serializer.deserialize ∧ entry = Registry.entryOf spec serializer wrap

end RegistryEntry

namespace Registry

/-- A registry that came about by registrations. `reads` is what is known of the serializers that
were registered besides the catalogue: `Read.Local` says that they look at the bytes ahead alone, as
those of the catalogue do (`Packet.local_deserialize`). A registration asks for nothing of that
kind, so a theorem about every registry has to hold for any `reads`. -/
inductive Reachable (reads : (β : Type) → ReadM β → Prop) : Registry → Prop
  | empty : Reachable reads .empty
  | standard : Reachable reads .standard
  | register {registry registry' : Registry} {β : Type} {spec : PacketSpec β}
      {serializer : Serializer β} {wrap : β → Incoming} (h : Reachable reads registry)
      (hread : reads β serializer.deserialize)
      (hok : registry.register spec serializer wrap = .ok registry') : Reachable reads registry'

/-- The packet that the whole content spells under a header, none where it is discarded. -/
def decodeContent (registry : Registry) (header : Header) (content : Bytes) :
    Except CodecError (Option Incoming) :=
  (run (registry.dispatch header) content).map Prod.fst

section Entries

variable {registry : Registry} {entry new : RegistryEntry} {code : PacketType}

theorem mem_insert (h : entry ∈ (registry.insert new).entries) :
    entry ∈ registry.entries ∨ entry = new := by
  rw [insert, List.mem_append, List.mem_filter, List.mem_singleton] at h
  exact h.imp_left And.left

/-- What is inserted is found under its code, and what was there is found under any other. -/
theorem find?_insert : (registry.insert new).find? code =
    if new.code = code then some new else registry.find? code := by
  have hbehind : [new].find? (·.code == code) = if new.code = code then some new else none := by
    by_cases h : new.code = code <;> simp [h]
  rw [find?, insert, List.find?_append, List.find?_filter, hbehind]
  split
  · -- the entry that had the code before was removed
    next h =>
    subst h
    have hnone : registry.entries.find? (fun entry => decide (
        (entry.code != new.code) = true ∧ (entry.code == new.code) = true)) = none := by
      rw [List.find?_eq_none]
      intro entry _
      by_cases h : entry.code = new.code <;> simp [h]
    rw [hnone]
    rfl
  · -- an entry with another code stays
    next h =>
    have hsame : (fun entry : RegistryEntry => decide (
        (entry.code != new.code) = true ∧ (entry.code == code) = true)) =
          (·.code == code) := by
      funext entry
      by_cases hcode : entry.code = code
      · simpa [hcode] using Ne.symm h
      · simp [hcode]
    rw [hsame, Option.or_none, find?]

theorem code_of_find? (h : registry.find? code = some entry) : entry.code = code := by
  simpa using List.find?_some h

end Entries

/-- The entries of the catalogue are those of its packets. -/
theorem exists_eq_packetEntry {entry : RegistryEntry} (h : entry ∈ standard.entries) :
    ∃ p : Packet, entry = packetEntry p p.serializer := by
  -- the packets are inserted one after another
  have hfold (packets : List Packet) (registry : Registry)
      (h : ∀ entry ∈ registry.entries, ∃ p : Packet, entry = packetEntry p p.serializer) :
      ∀ entry ∈ (packets.foldl (fun registry p =>
        registry.insert (packetEntry p p.serializer)) registry).entries,
          ∃ p : Packet, entry = packetEntry p p.serializer := by
    induction packets generalizing registry with
    | nil => exact h
    | cons p packets ih =>
      refine ih _ fun entry hmem => ?_
      rcases mem_insert hmem with hmem | rfl
      · exact h entry hmem
      · exact ⟨p, rfl⟩
  exact hfold Packet.all .empty (fun entry hmem => by cases hmem) entry h

/-- The catalogue is read by local serializers, so by such as `reads` allows. -/
theorem Reachable.readBy {reads : (β : Type) → ReadM β → Prop} {registry : Registry}
    (h : registry.Reachable reads) (hlocal : ∀ {β} {read : ReadM β}, Local read → reads β read) :
    ∀ entry ∈ registry.entries, entry.ReadBy reads := by
  induction h with
  | empty =>
    intro entry hmem
    cases hmem
  | standard =>
    intro entry hmem
    obtain ⟨p, rfl⟩ := exists_eq_packetEntry hmem
    exact ⟨p.Body, p.spec, p.serializer, Incoming.mk p, hlocal p.local_deserialize, rfl⟩
  | register _ hread hok ih =>
    intro entry hmem
    unfold Registry.register at hok
    split at hok
    · cases hok
    · cases hok
      rcases mem_insert hmem with hmem | rfl
      · exact ih entry hmem
      · exact ⟨_, _, _, _, hread, rfl⟩

theorem Reachable.mono {reads reads' : (β : Type) → ReadM β → Prop} {registry : Registry}
    (h : registry.Reachable reads) (hle : ∀ {β} {read : ReadM β}, reads β read → reads' β read) :
    registry.Reachable reads' := by
  induction h with
  | empty => exact .empty
  | standard => exact .standard
  | register _ hread hok ih => exact .register ih (hle hread) hok

/-- Registering a packet of the catalogue, with its own serializer or another, is a registration. -/
theorem Reachable.registerPacket {reads : (β : Type) → ReadM β → Prop}
    {registry registry' : Registry} {p : Packet} {serializer : Serializer p.Body}
    (h : registry.Reachable reads) (hread : reads p.Body serializer.deserialize)
    (hok : registry.registerPacket p serializer = .ok registry') : registry'.Reachable reads :=
  .register h hread hok

/-- What a header is dispatched to: nothing, or an entry for its type. -/
theorem dispatch_cases (registry : Registry) (header : Header) :
    registry.dispatch header = (fun _ => none) <$> skip header.contentLength ∨
      ∃ entry ∈ registry.entries, entry.code = header.packetType ∧
        registry.dispatch header = some <$> entry.decode header := by
  unfold dispatch
  split
  · exact .inl rfl
  · next entry h =>
    split at h
    · cases h
    · exact .inr ⟨entry, List.mem_of_find?_eq_some h, code_of_find? h, rfl⟩

namespace Reachable

variable {reads : (β : Type) → ReadM β → Prop} {registry : Registry} {header : Header} {r : Reader}

/-- Each entry is that of a packet, whatever its serializer. -/
theorem eq_entryOf (h : registry.Reachable reads) {entry : RegistryEntry}
    (hmem : entry ∈ registry.entries) : ∃ (β : Type) (spec : PacketSpec β)
      (serializer : Serializer β) (wrap : β → Incoming), entry = entryOf spec serializer wrap := by
  have hany : registry.Reachable fun _ _ => True := h.mono fun _ => trivial
  obtain ⟨β, spec, serializer, wrap, -, hentry⟩ := hany.readBy (fun _ => trivial) entry hmem
  exact ⟨β, spec, serializer, wrap, hentry⟩

/-- Before the content is there, nothing of it is read or passed over. -/
theorem dispatch_of_short (h : registry.Reachable reads)
    (hlt : r.remaining < header.contentLength) : registry.dispatch header r =
      .error (.insufficientData header.contentLength r.remaining) r := by
  rcases registry.dispatch_cases header with heq | ⟨entry, hmem, hcode, heq⟩ <;>
    rw [heq, map_eq_error_iff]
  · rw [skip, bind_apply, ensure_apply, if_pos hlt]
  · obtain ⟨β, spec, serializer, wrap, rfl⟩ := h.eq_entryOf hmem
    exact map_eq_error_iff.mpr (PacketSpec.decodeBody_of_short hcode.symm hlt)

/-- Whatever is registered, content that is there is taken whole or left, and not called short. -/
theorem settles_dispatch (h : registry.Reachable reads)
    (hle : header.contentLength ≤ r.remaining) :
    Settles (registry.dispatch header) header.contentLength r := by
  rcases registry.dispatch_cases header with heq | ⟨entry, hmem, -, heq⟩ <;> rw [heq]
  · exact (settles_skip hle).map _
  · obtain ⟨β, spec, serializer, wrap, rfl⟩ := h.eq_entryOf hmem
    exact ((PacketSpec.settles_decodeBody hle).map wrap).map some

/-- What a registry of local serializers answers to a header is decided by the bytes the header
declares. -/
theorem parses_dispatch (h : registry.Reachable @Local) (header : Header) :
    ParsesContent (registry.dispatch header) header.contentLength
      (registry.decodeContent header) := by
  have hanswer : registry.decodeContent header = fun content =>
      (run (registry.dispatch header) content).map Prod.fst := rfl
  rcases registry.dispatch_cases header with heq | ⟨entry, hmem, hcode, heq⟩ <;>
    rw [hanswer, heq]
  · exact ((ParsesContent.of_skip _).map _).run
  · obtain ⟨β, spec, serializer, wrap, hread, rfl⟩ := h.readBy id entry hmem
    exact (((PacketSpec.parses_decodeBody hread hcode.symm).map wrap).map some).run

/-- Content that is there in full is never short of any bytes. -/
theorem complete_dispatch (h : registry.Reachable reads) {content : Bytes} {e : CodecError}
    (hlen : content.length = header.contentLength)
    (he : registry.decodeContent header content = .error e) : e.isInsufficientData = false := by
  have hle : header.contentLength ≤ (Reader.ofBytes content).remaining := Nat.le_of_eq hlen.symm
  have hrun := error_of_map he
  unfold run at hrun
  split at hrun <;> cases hrun
  next hread => exact ((h.settles_dispatch hle).error hread).2.2

end Reachable

/-! ## The catalogue -/

/-- After some packets are inserted, each of them is found under its code. -/
theorem find?_foldl_insert (packets : List Packet) (registry : Registry) (p : Packet) :
    (packets.foldl (fun registry p => registry.insert (packetEntry p p.serializer)) registry).find?
        p.code =
      if p ∈ packets then some (packetEntry p p.serializer) else registry.find? p.code := by
  induction packets generalizing registry with
  | nil => rfl
  | cons q packets ih =>
    rw [List.foldl_cons, ih, find?_insert]
    show (if _ then _ else if q.code = p.code then _ else _) = _
    -- inserted later, inserted just now, or not at all
    by_cases hmem : p ∈ packets
    · rw [if_pos hmem, if_pos (List.mem_cons_of_mem q hmem)]
    · by_cases hcode : q.code = p.code
      · obtain rfl := Packet.code_injective hcode
        rw [if_neg hmem, if_pos rfl, if_pos List.mem_cons_self]
      · have hne : p ≠ q := fun h => hcode (congrArg Packet.code h.symm)
        rw [if_neg hmem, if_neg hcode, if_neg (by simp [hmem, hne])]

theorem find?_standard (p : Packet) :
    standard.find? p.code = some (packetEntry p p.serializer) := by
  rw [standard, find?_foldl_insert, if_pos (by cases p <;> decide)]

/-- The registry of the catalogue reads the content of a packet by its own serializer. -/
theorem decodeContent_standard {p : Packet} {header : Header} {content : Bytes}
    (htype : header.packetType = p.code) (hlen : content.length = header.contentLength) :
    standard.decodeContent header content =
      (p.spec.decodeContent p.serializer header content).map (some ⟨p, ·⟩) := by
  have hdispatch : standard.dispatch header =
      some <$> (packetEntry p p.serializer).decode header := by
    rw [dispatch, htype, p.isNone_code, if_neg Bool.false_ne_true, find?_standard]
  have hparse : ParsesContent (p.spec.decodeBody p.serializer header) header.contentLength _ :=
    PacketSpec.parses_decodeBody p.local_deserialize htype
  rw [decodeContent, hdispatch]
  show (run (some <$> Incoming.mk p <$> p.spec.decodeBody p.serializer header) content).map _ = _
  rw [((hparse.map _).map some).run_content hlen]
  cases p.spec.decodeContent p.serializer header content <;> rfl

end Registry

/-! ## Packets -/

namespace Codec

section Headers

variable {α : Type} {signature : UInt16} {limit : Nat} {src : Bytes} {header : Header} {n : Nat}
variable {next : Header → ReadM α} {answer : Bytes → Except CodecError α}

/-- What comes after a header looks at the content behind it. -/
theorem run_behind_header (hrun : run (Header.read signature limit) src = .ok (header, n))
    (hnext : ParsesContent (next header) header.contentLength answer) :
    run (Read.atomic (Header.read signature limit >>= next)) src =
      if src.length < header.frameLength then
        .error (.insufficientData header.contentLength (src.length - header.length))
      else
        (answer ((src.drop header.length).take header.contentLength)).map
          (·, header.frameLength) := by
  have hle := (Header.clean_read signature limit).local.consumed_le hrun
  obtain ⟨-, rfl, -⟩ := Header.eq_of_run_read hrun
  rw [run_atomic, run_bind_of_ok (Header.clean_read signature limit).local hnext.local hrun,
    hnext.run_eq, List.length_drop]
  by_cases hlt : src.length < header.frameLength
  · have hrest : src.length - header.length < header.contentLength := by
      rw [Header.frameLength] at hlt
      omega
    rw [if_pos hlt, if_pos hrest]
    rfl
  · have hrest : ¬ src.length - header.length < header.contentLength := by
      rw [Header.frameLength] at hlt
      omega
    rw [if_neg hlt, if_neg hrest]
    cases answer ((src.drop header.length).take header.contentLength) <;> rfl

end Headers

variable {codec : Codec} {src : Bytes} {header : Header} {n : Nat} {e : CodecError}

theorem decodeAny_of_error (h : run codec.readHeader src = .error e) :
    codec.decodeAny src = .error e := by
  rw [decodeAny, run_atomic]
  exact run_bind_of_error (Header.clean_read _ _).local h

theorem decode_of_error {p : Packet} (h : run codec.readHeader src = .error e) :
    codec.decode p src = .error e := by
  rw [decode, run_atomic]
  exact run_bind_of_error (Header.clean_read _ _).local h

theorem decodeAny_of_header (hregistry : codec.registry.Reachable @Local)
    (h : run codec.readHeader src = .ok (header, n)) : codec.decodeAny src =
      if src.length < header.frameLength then
        .error (.insufficientData header.contentLength (src.length - header.length))
      else
        (codec.registry.decodeContent header
          ((src.drop header.length).take header.contentLength)).map (·, header.frameLength) :=
  run_behind_header h (hregistry.parses_dispatch header)

theorem decode_of_header {p : Packet} (h : run codec.readHeader src = .ok (header, n))
    (htype : header.packetType = p.code) : codec.decode p src =
      if src.length < header.frameLength then
        .error (.insufficientData header.contentLength (src.length - header.length))
      else
        (p.spec.decodeContent p.serializer header
          ((src.drop header.length).take header.contentLength)).map (·, header.frameLength) :=
  run_behind_header h (PacketSpec.parses_decodeBody p.local_deserialize htype)

/-- Behind a header of another packet nothing is looked at, not even whether it is there. -/
theorem decode_of_ne {p : Packet} (h : run codec.readHeader src = .ok (header, n))
    (htype : header.packetType ≠ p.code) :
    codec.decode p src = .error (.packetTypeMismatch p.code header.packetType) := by
  have hthrow : p.spec.decodeBody p.serializer header =
      throw (.packetTypeMismatch p.code header.packetType) := PacketSpec.decodeBody_of_ne htype
  have hread : Local codec.readHeader := (Header.clean_read _ _).local
  have hnext : Local (p.spec.decodeBody p.serializer header) := hthrow ▸ (parses_throw _).local
  rw [decode, run_atomic, run_bind_of_ok hread hnext h, hthrow]
  rfl

/-- The content of a frame that is there in full. -/
theorem length_content (h : header.frameLength ≤ src.length) :
    ((src.drop header.length).take header.contentLength).length = header.contentLength := by
  rw [List.length_take, List.length_drop]
  rw [Header.frameLength] at h
  omega

/-- A frame is decoded by the content it holds, whatever pieces that lies in. -/
theorem decodeFrame_eq (hregistry : codec.registry.Reachable @Local) {frame : Frame}
    (hlen : frame.content.toBytes.length = frame.header.contentLength) :
    codec.decodeFrame frame =
      codec.registry.decodeContent frame.header frame.content.toBytes := by
  have hread := (hregistry.parses_dispatch frame.header).eq (Reader.valid_ofSegments frame.content)
  rw [Reader.rest_ofSegments, if_neg (Nat.not_lt.mpr (Nat.le_of_eq hlen.symm)),
    List.take_of_length_le (Nat.le_of_eq hlen)] at hread
  rw [decodeFrame, Frame.reader, hread]
  cases codec.registry.decodeContent frame.header frame.content.toBytes <;> rfl

end Codec

end ChatCodec
