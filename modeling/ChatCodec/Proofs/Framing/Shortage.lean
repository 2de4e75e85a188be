import ChatCodec.Proofs.Framing.Canonical
import ChatCodec.Proofs.Framing.Foreign
import ChatCodec.Proofs.Reading.Final

/-!
# What a receiver has to wait for

A shortage is the one answer that bytes still to come can change. It is given while a frame is
incomplete, and at no other time: what goes wrong inside a frame that is there in full is an error
for good, whatever stands behind the frame.

* `Header.Unfinished` — bytes end inside a header, with no fault so far;
* `Header.Opens` — bytes begin with a header that can be read;
* `Codec.Unfinished` — bytes end inside a frame, with no fault so far.

Which headers are short is found field by field (`Header.isShort_read`), and bodies never are
(`Registry.Reachable.settles_dispatch`). That bytes behind a frame change nothing is shown of any
registry whose serializers are `Read.Sighted`: they may do with the reader whatever can be done with
it, and under the limit of the content it shows no more with such bytes than without.

Main result: `Codec.waits_for_frame`.
-/

namespace ChatCodec

open Read

variable {α β : Type}

/-! ## Shortages in sequences -/

namespace Read

section Sequences

variable {read : ReadM α} {next : α → ReadM β} {p : Primitive α} {bytes more : Bytes}

/-- With all its bytes there, a primitive may be bad but not short. -/
theorem complete_decode {e : CodecError} (h : p.decode bytes = .error e) :
    e.isInsufficientData = false := by
  cases p with
  | bool =>
    rw [Primitive.decode] at h
    split at h <;> cases h
    rfl
  | _ => cases h

/-- Either the bytes of the primitive are not all there, or what comes after it is short of some. -/
theorem isShort_primitive_bind (hnext : ∀ a, Local (next a)) :
    IsShort (run (primitive p >>= next) bytes) ↔
      bytes.length < p.size ∨ ∃ a rest, bytes = p.encode a ++ rest ∧
        IsShort (run (next a) rest) := by
  have hread : Local (primitive p) := (parses_primitive p).local
  constructor
  · intro h
    rcases Nat.lt_or_ge bytes.length p.size with hlt | hge
    · exact .inl hlt
    · cases hrun : run (primitive p) bytes with
      | error e =>
        rw [run_bind_of_error hread hrun, isShort_error] at h
        rw [(parses_primitive p).run_eq, if_neg (Nat.not_lt.mpr hge)] at hrun
        rw [complete_decode (error_of_map hrun)] at h
        cases h
      | ok answer =>
        obtain ⟨a, n⟩ := answer
        rw [run_bind_of_ok hread (hnext a) hrun, isShort_map] at h
        obtain ⟨htake, -⟩ := eq_of_run_primitive hrun
        exact .inr ⟨a, bytes.drop n, by rw [← htake, List.take_append_drop], h⟩
  · rintro (hlt | ⟨a, rest, rfl, h⟩)
    · have hrun : run (primitive p) bytes = .error (.insufficientData p.size bytes.length) := by
        rw [(parses_primitive p).run_eq, if_pos hlt]
      rw [run_bind_of_error hread hrun]
      exact ⟨_, _, rfl⟩
    · rw [run_bind_of_ok hread (hnext a) (takes_primitive p a rest), isShort_map, List.drop_left]
      exact h

/-- A check consumes nothing and is never short itself. -/
theorem isShort_ofExcept_bind {result : Except CodecError α}
    (hcomplete : ∀ e, result = .error e → e.isInsufficientData = false) :
    IsShort (run (ofExcept result >>= next) bytes) ↔
      ∃ a, result = .ok a ∧ IsShort (run (next a) bytes) := by
  cases result with
  | ok a =>
    constructor
    · exact fun h => ⟨a, rfl, h⟩
    · rintro ⟨b, hb, h⟩
      cases hb
      exact h
  | error e =>
    have hshort : ¬ IsShort (run (ofExcept (.error e) >>= next) bytes) := by
      show ¬ IsShort (.error e)
      rw [isShort_error, hcomplete e rfl]
      exact Bool.false_ne_true
    refine iff_of_false hshort ?_
    rintro ⟨a, ha, -⟩
    cases ha

/-- What comes after a local read runs from where that one ended. -/
theorem run_behind {a : α} {n : Nat} (hread : Local read)
    (hrun : run read bytes = .ok (a, n)) : run (atomic (read >>= next)) bytes =
      (outcome (next a) ((Reader.ofBytes bytes).advance n)).1.map
        (·, (outcome (next a) ((Reader.ofBytes bytes).advance n)).2.offset) := by
  have hfirst : read (Reader.ofBytes bytes) = .ok a ((Reader.ofBytes bytes).advance n) :=
    hread.ok_eq (Reader.valid_ofBytes bytes) ((Reader.rest_ofBytes bytes).symm ▸ hrun)
  rw [run_atomic, run, bind_of_ok hfirst, outcome]
  cases next a ((Reader.ofBytes bytes).advance n) <;> rfl

theorem ParsesContent.final {declared : Nat} {answer : Bytes → Except CodecError α}
    (h : ParsesContent read declared answer) : Final read :=
  Parses.final (fun content => (answer content).map (·, declared)) h

end Sequences

end Read

/-! ## Headers -/

namespace Header

variable {signature : UInt16} {limit : Nat} {src : Bytes} {packetType : PacketType}

/-- The bytes end inside a header and are not at fault so far. Only the signature can be at fault
before the header is complete. -/
inductive Unfinished (signature : UInt16) : Bytes → Prop
  | signature {src : Bytes} (h : src.length < 2) : Unfinished signature src
  | packetType {rest : Bytes} (h : rest.length < 4) :
      Unfinished signature (Primitive.u16.encode signature ++ rest)
  /-- The error code, if there is one, and the content size are not complete. -/
  | contentSize {packetType : PacketType} {rest : Bytes}
      (h : 6 + rest.length < packetType.headerLength) :
      Unfinished signature
        (Primitive.u16.encode signature ++ (Primitive.u32.encode packetType.code ++ rest))

/-- The bytes begin with the header, and it can be read under the limit. -/
structure Opens (h : Header) (signature : UInt16) (limit : Nat) (src : Bytes) : Prop where
  wellFormed : h.WellFormed limit
  begins : h.bytes signature <+: src

theorem run_read_of_opens {h : Header} (hopens : h.Opens signature limit src) :
    run (read signature limit) src = .ok (h, h.length) := by
  obtain ⟨hwell, rest, rfl⟩ := hopens
  rw [takes_read hwell signature rest, length_bytes]

theorem opens_of_run_read {h : Header} {n : Nat}
    (hrun : run (read signature limit) src = .ok (h, n)) : h.Opens signature limit src := by
  obtain ⟨hwell, -, htake⟩ := eq_of_run_read hrun
  exact ⟨hwell, htake ▸ List.take_prefix n src⟩

theorem Opens.mono {h : Header} {more : Bytes} (hopens : h.Opens signature limit src)
    (hle : src <+: more) : h.Opens signature limit more :=
  ⟨hopens.wellFormed, hopens.begins.trans hle⟩

/-- Bytes begin with one header at most. -/
theorem Opens.unique {h other : Header} (hopens : h.Opens signature limit src)
    (hother : other.Opens signature limit src) : h = other := by
  have hsame := run_read_of_opens hopens
  rw [run_read_of_opens hother] at hsame
  cases hsame
  rfl

theorem complete_checkSignature {actual : UInt16} {e : CodecError}
    (h : checkSignature signature actual = .error e) : e.isInsufficientData = false := by
  unfold checkSignature at h
  split at h <;> cases h
  rfl

theorem complete_checkContentSize {contentSize : Int32} {e : CodecError}
    (h : checkContentSize limit contentSize = .error e) : e.isInsufficientData = false := by
  unfold checkContentSize at h
  split at h
  · cases h
    rfl
  · split at h <;> cases h
    rfl

/-- The last field is short of its own bytes only. -/
theorem isShort_readSize (errorCode : Option Int8) : IsShort (run (do
      let contentSize ← ofExcept (checkContentSize limit (← Read.primitive .i32))
      return ({ packetType, errorCode, contentSize } : Header)) src) ↔ src.length < 4 := by
  rw [isShort_primitive_bind fun size => local_checkSize limit packetType errorCode size]
  refine or_iff_left ?_
  rintro ⟨size, rest, -, h⟩
  obtain ⟨contentSize, -, h⟩ :=
    (isShort_ofExcept_bind fun _ => complete_checkContentSize).mp h
  exact not_isShort_ok _ h

/-- Behind the packet type, all that is missing is the rest of the header. -/
theorem isShort_readCode : IsShort (run (do
      let errorCode ← readErrorCode packetType
      let contentSize ← ofExcept (checkContentSize limit (← Read.primitive .i32))
      return ({ packetType, errorCode, contentSize } : Header)) src) ↔
    6 + src.length < packetType.headerLength := by
  unfold readErrorCode PacketType.headerLength
  cases packetType.hasErrorCode with
  | false =>
    refine isShort_readSize none |>.trans ?_
    rw [if_neg Bool.false_ne_true]
    omega
  | true =>
    rw [if_pos rfl, if_pos rfl, bind_map_left,
      isShort_primitive_bind fun code => local_readSize limit packetType (some code)]
    constructor
    · rintro (hlt | ⟨code, rest, rfl, h⟩)
      · have hlt : src.length < 1 := hlt
        omega
      · have hrest := (isShort_readSize (some code)).mp h
        rw [List.length_append, Primitive.length_encode, Primitive.size]
        omega
    · intro h
      cases src with
      | nil => exact .inl (Nat.zero_lt_one)
      | cons code rest =>
        rw [List.length_cons] at h
        refine .inr ⟨code.toInt8, rest, ?_, (isShort_readSize _).mpr (by omega)⟩
        show code :: rest = [code.toInt8.toUInt8] ++ rest
        rfl

/-- Behind the signature, the packet type may be missing or the rest of the header of its type. -/
theorem isShort_readType : IsShort (run (do
      let packetType : PacketType := ⟨← Read.primitive .u32⟩
      let errorCode ← readErrorCode packetType
      let contentSize ← ofExcept (checkContentSize limit (← Read.primitive .i32))
      return ({ packetType, errorCode, contentSize } : Header)) src) ↔
    src.length < 4 ∨ ∃ (packetType : PacketType) (rest : Bytes),
      src = Primitive.u32.encode packetType.code ++ rest ∧
        6 + rest.length < packetType.headerLength := by
  rw [isShort_primitive_bind fun code => local_readCode limit ⟨code⟩]
  constructor
  · rintro (hlt | ⟨code, rest, hsrc, hcode⟩)
    · exact .inl hlt
    · exact .inr ⟨⟨code⟩, rest, hsrc, isShort_readCode.mp hcode⟩
  · rintro (hlt | ⟨packetType, rest, hsrc, hlt⟩)
    · exact .inl hlt
    · exact .inr ⟨packetType.code, rest, hsrc, isShort_readCode.mpr hlt⟩

/-- A header is short just if the bytes end inside it. -/
theorem isShort_read :
    IsShort (run (read signature limit) src) ↔ Unfinished signature src := by
  rw [read, run_atomic, isShort_primitive_bind fun _ =>
    (parses_ofExcept _).local.bind fun _ => local_readType limit]
  constructor
  · rintro (hlt | ⟨actual, rest, rfl, hchecked⟩)
    · exact .signature hlt
    · obtain ⟨_, hsignature, htype⟩ :=
        (isShort_ofExcept_bind fun _ => complete_checkSignature).mp hchecked
      obtain rfl := eq_of_checkSignature hsignature
      rcases isShort_readType.mp htype with hlt | ⟨packetType, rest, rfl, hlt⟩
      · exact .packetType hlt
      · exact .contentSize hlt
  · rintro (hlt | hlt | hlt)
    · exact .inl hlt
    all_goals
      refine .inr ⟨signature, _, rfl, (isShort_ofExcept_bind fun _ =>
        complete_checkSignature).mpr ⟨(), if_pos rfl, isShort_readType.mpr ?_⟩⟩
    · exact .inl hlt
    · exact .inr ⟨_, _, rfl, hlt⟩

/-- A part of a header is unfinished. -/
theorem unfinished_of_prefix {h : Header} (hwell : h.WellFormed limit)
    (hpart : src <+: h.bytes signature) (hlt : src.length < h.length) :
    Unfinished signature src := by
  have hwhole : run (read signature limit) (h.bytes signature) =
      .ok (h, (h.bytes signature).length) := by
    rw [run_read_of_opens ⟨hwell, List.prefix_rfl⟩, length_bytes]
  have hne : src ≠ h.bytes signature := fun heq => by
    rw [heq, length_bytes] at hlt
    exact Nat.lt_irrefl _ hlt
  exact isShort_read.mp ((final_read signature limit).isShort_part hwhole hpart hne)

end Header

/-! ## Packets -/

/-- The body of a packet is looked at only when it is there in full. -/
theorem PacketSpec.final_decodeBody {spec : PacketSpec β} {serializer : Serializer β}
    (hread : Local serializer.deserialize) (header : Header) :
    Final (spec.decodeBody serializer header) := by
  by_cases htype : header.packetType = spec.code
  · exact (parses_decodeBody hread htype).final
  · rw [decodeBody_of_ne htype]
    exact final_throw _

namespace Codec

variable {codec : Codec} {p : Packet} {src : Bytes}

/-- The bytes end inside a frame and are not at fault so far. -/
inductive Unfinished (codec : Codec) (src : Bytes) : Prop
  | header (h : Header.Unfinished codec.config.signature src)
  | content {header : Header}
      (hopens : header.Opens codec.config.signature codec.config.maxContentSize src)
      (h : src.length < header.frameLength)

/-- A header that can be read leaves nothing unfinished but the frame it announces. -/
theorem unfinished_iff_of_header {header : Header} {n : Nat}
    (hrun : run codec.readHeader src = .ok (header, n)) :
    codec.Unfinished src ↔ src.length < header.frameLength := by
  constructor
  · rintro (hheader | ⟨hopens, hlt⟩)
    · have hshort : IsShort (run codec.readHeader src) := Header.isShort_read.mpr hheader
      rw [hrun] at hshort
      exact absurd hshort (not_isShort_ok _)
    · have hsame : run codec.readHeader src = _ := Header.run_read_of_opens hopens
      rw [hrun] at hsame
      cases hsame
      exact hlt
  · exact .content (Header.opens_of_run_read hrun)

/-- Without a header that can be read, just the header may be unfinished. -/
theorem unfinished_iff_of_error {e : CodecError} (hrun : run codec.readHeader src = .error e) :
    codec.Unfinished src ↔ e.isInsufficientData = true := by
  have hheader : IsShort (run codec.readHeader src) ↔ Header.Unfinished _ src :=
    Header.isShort_read
  rw [hrun, isShort_error] at hheader
  rw [hheader]
  constructor
  · rintro (hunfinished | ⟨hopens, -⟩)
    · exact hunfinished
    · have hsame : run codec.readHeader src = _ := Header.run_read_of_opens hopens
      rw [hrun] at hsame
      cases hsame
  · exact .header

section Registries

variable {reads : (β : Type) → ReadM β → Prop} {header : Header} {n : Nat}

/-- Behind a header all of the content has to be there, whatever is registered. -/
theorem isShort_decodeAny_of_lt (hregistry : codec.registry.Reachable reads)
    (hrun : run codec.readHeader src = .ok (header, n)) (hlt : src.length < header.frameLength) :
    IsShort (codec.decodeAny src) := by
  have hread : Local codec.readHeader := (Header.clean_read _ _).local
  have hle := hread.consumed_le hrun
  obtain ⟨-, rfl, -⟩ := Header.eq_of_run_read hrun
  have hshort : ((Reader.ofBytes src).advance header.length).remaining < header.contentLength := by
    show src.length - (0 + header.length) < header.contentLength
    rw [Header.frameLength] at hlt
    omega
  rw [decodeAny, run_behind hread hrun, outcome, hregistry.dispatch_of_short hshort]
  exact ⟨_, _, rfl⟩

/-- A frame that is there is taken whole or left, and not called short, whatever is registered. -/
theorem settles_of_le (hregistry : codec.registry.Reachable reads)
    (hle : header.frameLength ≤ src.length) : Settles (codec.registry.dispatch header)
      header.contentLength ((Reader.ofBytes src).advance header.length) := by
  refine hregistry.settles_dispatch ?_
  show header.contentLength ≤ src.length - (0 + header.length)
  rw [Header.frameLength] at hle
  omega

/-- A frame that is there is answered as the registry answers to it, whatever is registered, and a
packet takes all of its bytes. -/
theorem decodeAny_of_le (hregistry : codec.registry.Reachable reads)
    (hrun : run codec.readHeader src = .ok (header, n)) (hle : header.frameLength ≤ src.length) :
    codec.decodeAny src = (outcome (codec.registry.dispatch header)
      ((Reader.ofBytes src).advance header.length)).1.map (·, header.frameLength) := by
  have hread : Local codec.readHeader := (Header.clean_read _ _).local
  have hsettles := settles_of_le hregistry hle
  obtain ⟨-, rfl, -⟩ := Header.eq_of_run_read hrun
  rw [decodeAny, run_behind hread hrun, outcome]
  cases hdispatch : codec.registry.dispatch header
      ((Reader.ofBytes src).advance header.length) with
  | error e r => rfl
  | ok packet r =>
    have hends : r.offset = 0 + header.length + header.contentLength :=
      (hsettles.ok hdispatch).1
    rw [Nat.zero_add] at hends
    show Except.ok (packet, r.offset) = .ok (packet, header.frameLength)
    rw [hends, Header.frameLength]

theorem isShort_decodeAny (hregistry : codec.registry.Reachable reads) :
    IsShort (codec.decodeAny src) ↔ codec.Unfinished src := by
  cases hrun : run codec.readHeader src with
  | error e => rw [decodeAny_of_error hrun, unfinished_iff_of_error hrun, isShort_error]
  | ok answer =>
    obtain ⟨header, n⟩ := answer
    rw [unfinished_iff_of_header hrun]
    rcases Nat.lt_or_ge src.length header.frameLength with hlt | hle
    · exact iff_of_true (isShort_decodeAny_of_lt hregistry hrun hlt) hlt
    · -- what goes wrong in content that is there is no shortage
      have hsettles := settles_of_le hregistry hle
      rw [decodeAny_of_le hregistry hrun hle, isShort_map]
      refine iff_of_false ?_ (Nat.not_lt.mpr hle)
      rw [outcome]
      cases hdispatch : codec.registry.dispatch header
          ((Reader.ofBytes src).advance header.length) with
      | ok packet r => exact not_isShort_ok packet
      | error e r =>
        rw [isShort_error, (hsettles.error hdispatch).2.2]
        exact Bool.false_ne_true

end Registries

/-- Of a packet that is expected, the same is missing, unless a header of another type is there. -/
theorem isShort_decode : IsShort (codec.decode p src) ↔ codec.Unfinished src ∧
    ∀ header : Header, header.Opens codec.config.signature codec.config.maxContentSize src →
      header.packetType = p.code := by
  cases hrun : run codec.readHeader src with
  | error e =>
    rw [decode_of_error hrun, unfinished_iff_of_error hrun, isShort_error]
    refine (and_iff_left fun header hopens => ?_).symm
    have hsame : run codec.readHeader src = _ := Header.run_read_of_opens hopens
    rw [hrun] at hsame
    cases hsame
  | ok answer =>
    obtain ⟨header, n⟩ := answer
    have hopens := Header.opens_of_run_read hrun
    rw [unfinished_iff_of_header hrun]
    by_cases htype : header.packetType = p.code
    · have honly (other : Header) (hother : other.Opens codec.config.signature
          codec.config.maxContentSize src) : other.packetType = p.code := by
        rw [hother.unique hopens, htype]
      rw [and_iff_left honly, decode_of_header hrun htype]
      by_cases hlt : src.length < header.frameLength
      · rw [if_pos hlt]
        exact iff_of_true ⟨_, _, rfl⟩ hlt
      · rw [if_neg hlt, isShort_map]
        refine iff_of_false ?_ hlt
        rintro ⟨need, available, he⟩
        cases PacketSpec.complete_decodeContent he
    · rw [decode_of_ne hrun htype]
      refine iff_of_false ?_ fun hall => htype (hall.2 header hopens)
      rintro ⟨need, available, he⟩
      cases he

/-- Bytes behind a frame are beyond the limit of its content, and so do not matter to a serializer
that is registered. -/
theorem decodeAny_append (hregistry : codec.registry.Reachable @Sighted)
    (hshort : ¬ IsShort (codec.decodeAny src)) (more : Bytes) :
    codec.decodeAny (src ++ more) = codec.decodeAny src := by
  have hfinal : Final codec.readHeader := Header.final_read _ _
  cases hrun : run codec.readHeader src with
  | error e =>
    rw [decodeAny_of_error hrun, isShort_error, Bool.not_eq_true] at hshort
    rw [decodeAny_of_error hrun, decodeAny_of_error (hfinal.error more hrun hshort)]
  | ok answer =>
    obtain ⟨header, n⟩ := answer
    have hle : header.frameLength ≤ src.length := Nat.le_of_not_lt fun hlt =>
      hshort (isShort_decodeAny_of_lt hregistry hrun hlt)
    have hle' : header.frameLength ≤ (src ++ more).length := by
      rw [List.length_append]
      omega
    have hshares := Reader.shares_append hle more
    rw [decodeAny_of_le hregistry hrun hle,
      decodeAny_of_le hregistry (hfinal.ok more hrun) hle']
    rw [hregistry.answer_dispatch Local.sighted hshares.le_remaining hshares.le_remaining' rfl
      fun hread => hread.within hshares]

theorem decode_append (hshort : ¬ IsShort (codec.decode p src)) (more : Bytes) :
    codec.decode p (src ++ more) = codec.decode p src :=
  (Final.atomic ((Header.final_read _ _).bind fun header =>
    PacketSpec.final_decodeBody p.local_deserialize header)).append hshort more

/-- A part of a frame is unfinished. -/
theorem unfinished_of_prefix {header : Header} {content : Bytes}
    (hwell : header.WellFormed codec.config.maxContentSize)
    (hlen : content.length = header.contentLength)
    (hpart : src <+: header.bytes codec.config.signature ++ content)
    (hne : src ≠ header.bytes codec.config.signature ++ content) : codec.Unfinished src := by
  have hlt : src.length < (header.bytes codec.config.signature ++ content).length :=
    Nat.lt_of_le_of_ne hpart.length_le fun h => hne (hpart.eq_of_length h)
  rw [List.length_append, Header.length_bytes, hlen] at hlt
  have hfront := List.prefix_append (header.bytes codec.config.signature) content
  rcases Nat.lt_or_ge src.length header.length with hshort | hge
  · have hheader : src <+: header.bytes codec.config.signature :=
      List.prefix_of_prefix_length_le hpart hfront (by rw [Header.length_bytes]; omega)
    exact .header (Header.unfinished_of_prefix hwell hheader hshort)
  · have hheader : header.bytes codec.config.signature <+: src :=
      List.prefix_of_prefix_length_le hfront hpart (by rw [Header.length_bytes]; exact hge)
    exact .content ⟨hwell, hheader⟩ hlt

/-- A receiver waits just as long as a frame is incomplete. Whether it takes any packet or expects
one, a shortage is answered exactly while the bytes end inside a header without a fault so far, or
behind a valid header, for an expected packet one of its type, before the end of its content. Every
other answer stays the same whatever comes behind. So every part of an encoded packet is short. Of
the serializers registered nothing is asked but that they see no more than the reader shows, which
is so of all that can be done with a reader (`ReadProgram.sighted_runByPieces`). -/
theorem waits_for_frame (hregistry : codec.registry.Reachable @Sighted) :
    (∀ src, (IsShort (codec.decodeAny src) ↔ codec.Unfinished src) ∧
      (¬ IsShort (codec.decodeAny src) → ∀ more,
        codec.decodeAny (src ++ more) = codec.decodeAny src)) ∧
    (∀ (p : Packet) (src : Bytes), (IsShort (codec.decode p src) ↔ codec.Unfinished src ∧
        ∀ header : Header, header.Opens codec.config.signature codec.config.maxContentSize src →
          header.packetType = p.code) ∧
      (¬ IsShort (codec.decode p src) → ∀ more,
        codec.decode p (src ++ more) = codec.decode p src)) ∧
    ∀ (p : Packet) (body : p.Body) (buffer : Buffer) (n : Nat) (w : Writer),
      codec.encodeInto p body (.growable buffer) = .ok n w →
        ∀ src, src <+: w.written → src ≠ w.written →
          IsShort (codec.decodeAny src) ∧ IsShort (codec.decode p src) := by
  refine ⟨fun src => ⟨isShort_decodeAny hregistry, decodeAny_append hregistry⟩,
    fun p src => ⟨isShort_decode, decode_append⟩, ?_⟩
  intro p body buffer n w hencode src hpart hne
  obtain ⟨content, -, hlimit, hwritten⟩ := written_of_encodeInto hencode
  rw [hwritten] at hpart hne
  have hwell : (sealedHeader p.code (p.errorCode body) content).WellFormed
      codec.config.maxContentSize := wellFormed_sealedHeader hlimit
  have hunfinished : codec.Unfinished src :=
    unfinished_of_prefix hwell (contentLength_sealedHeader hlimit).symm hpart hne
  refine ⟨(isShort_decodeAny hregistry).mpr hunfinished,
    isShort_decode.mpr ⟨hunfinished, fun header hopens => ?_⟩⟩
  -- a header that is there already is the one that was sent
  have hframe : (sealedHeader p.code (p.errorCode body) content).Opens codec.config.signature
      codec.config.maxContentSize (codec.frameBytes p.code (p.errorCode body) content) :=
    ⟨hwell, List.prefix_append _ _⟩
  rw [(hopens.mono hpart).unique hframe, packetType_sealedHeader]

/-- A logout cut inside its token is waited for; what stands behind the whole of it is not looked
at. -/
theorem waits_for_frame_logout :
    let part : Bytes := [67, 87, 3, 0, 0, 0, 8, 0, 0, 0, 3, 0, 0, 0, 97]
    let frame : Bytes := [67, 87, 3, 0, 0, 0, 8, 0, 0, 0, 3, 0, 0, 0, 97, 98, 99, 1]
    standard.registry.Reachable @Sighted ∧ IsShort (standard.decodeAny part) ∧
      IsShort (standard.decode .logoutRequest part) ∧
      ∀ more, standard.decodeAny (frame ++ more) = standard.decodeAny frame := by
  intro part frame
  have hencode : standard.encodeInto .logoutRequest ⟨"abc", ⟨true⟩⟩ (.growable .empty) =
      .ok 18 ((Writer.growable .empty).append frame) := rfl
  have hregistry : standard.registry.Reachable @Sighted := .standard
  obtain ⟨hany, -, hparts⟩ := waits_for_frame hregistry
  obtain ⟨hshort, hshort'⟩ := hparts .logoutRequest _ _ _ _ hencode part ⟨[98, 99, 1], rfl⟩
    (by decide)
  have hheader : run standard.readHeader
      [67, 87, 3, 0, 0, 0, 8, 0, 0, 0, 3, 0, 0, 0, 97, 98, 99, 1] = .ok (⟨⟨3⟩, none, 8⟩, 10) := rfl
  have hwhole : ¬ IsShort (standard.decodeAny frame) := by
    rw [(hany frame).1, unfinished_iff_of_header hheader]
    decide
  exact ⟨hregistry, hshort, hshort', (hany frame).2 hwhole⟩

end Codec

end ChatCodec
