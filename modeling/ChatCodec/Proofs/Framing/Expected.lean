import ChatCodec.Proofs.Framing.Delivery
import ChatCodec.Proofs.Framing.Shortage

/-!
# The expected packet and the packet that comes

A receiver that knows which packet comes decodes it with `Codec.decode`, by the serializer of that
packet. One that takes any packet uses `Codec.decodeAny`, which finds the serializer in the registry
under the type that the header names. With the catalogue registered the two differ only behind a
header of another packet than the expected one, and there the expected packet is refused for its
type, before anything is said about the content.

* `Registry.packetType_of_decodeContent` — a packet of the catalogue is read under its own type;
* `Codec.decodeAny_eq_of_expected` — the same answer, as long as no other type is named.

Main result: `Codec.decode_iff_decodeAny`.
-/

namespace ChatCodec

open Read

/-- The catalogue reads no packet but the one that the header names. -/
theorem Registry.packetType_of_decodeContent {header : Header} {content : Bytes} {sent : Incoming}
    (hlen : content.length = header.contentLength)
    (h : Registry.standard.decodeContent header content = .ok (some sent)) :
    header.packetType = sent.packet.code := by
  rcases Registry.standard.dispatch_cases header with hdispatch | ⟨entry, hmem, hcode, -⟩
  · -- what is passed over is no packet
    have hskip := (ParsesContent.of_skip header.contentLength).map
      fun _ => (none : Option Incoming)
    rw [decodeContent, hdispatch, hskip.run_content hlen] at h
    cases h
  · obtain ⟨p, rfl⟩ := exists_eq_packetEntry hmem
    have htype : header.packetType = p.code := hcode.symm
    rw [decodeContent_standard htype hlen] at h
    obtain ⟨body, -, hsent⟩ := ok_of_map h
    cases hsent
    exact htype

namespace Codec

variable {codec : Codec} {p : Packet} {src : Bytes}

/-- A packet that comes is of the type that the header names. -/
theorem packetType_of_decodeAny {header : Header} {m n : Nat} {sent : Incoming}
    (hregistry : codec.registry = .standard) (hrun : run codec.readHeader src = .ok (header, m))
    (h : codec.decodeAny src = .ok (some sent, n)) : header.packetType = sent.packet.code := by
  rw [decodeAny_of_header (hregistry ▸ .standard) hrun, hregistry] at h
  split at h
  · cases h
  · next hlt =>
    obtain ⟨packet, hcontent, hanswer⟩ := ok_of_map h
    cases hanswer
    exact Registry.packetType_of_decodeContent (length_content (Nat.le_of_not_lt hlt)) hcontent

/-- As long as the header names no other packet than the expected one, the two receivers give the
same answer: they fail for the same reason, or the expected packet comes. -/
theorem decodeAny_eq_of_expected (hregistry : codec.registry = .standard)
    (hexpected : ∀ header n, run codec.readHeader src = .ok (header, n) →
      header.packetType = p.code) :
    codec.decodeAny src = (codec.decode p src).map fun (body, n) => (some ⟨p, body⟩, n) := by
  cases hrun : run codec.readHeader src with
  | error e =>
    rw [decodeAny_of_error hrun, decode_of_error hrun]
    rfl
  | ok answer =>
    obtain ⟨header, n⟩ := answer
    have htype := hexpected header n hrun
    rw [decodeAny_of_header (hregistry ▸ .standard) hrun, decode_of_header hrun htype, hregistry]
    by_cases hlt : src.length < header.frameLength
    · rw [if_pos hlt, if_pos hlt]
      rfl
    · rw [if_neg hlt, if_neg hlt,
        Registry.decodeContent_standard htype (length_content (Nat.le_of_not_lt hlt))]
      cases p.spec.decodeContent p.serializer header
        ((src.drop header.length).take header.contentLength) <;> rfl

/-- Expecting a packet and taking the packet that comes are the same. With a valid configuration and
the catalogue registered, a packet is decoded where it is expected just if it is the packet that is
taken where any is, and as many bytes are consumed. Where no header can be read, or one of the
expected type, the two fail with the same error. A header of another type is refused with both
types, whatever follows it. -/
theorem decode_iff_decodeAny {config : Config} (hcodec : ofConfig config = .ok codec) (p : Packet)
    (src : Bytes) :
    (∀ body n, codec.decode p src = .ok (body, n) ↔
      codec.decodeAny src = .ok (some ⟨p, body⟩, n)) ∧
    ((∀ header : Header, ¬ header.Opens codec.config.signature codec.config.maxContentSize src) →
      ∃ e, codec.decode p src = .error e ∧ codec.decodeAny src = .error e) ∧
    ∀ header : Header, header.Opens codec.config.signature codec.config.maxContentSize src →
      (header.packetType = p.code →
        ∀ e, codec.decode p src = .error e ↔ codec.decodeAny src = .error e) ∧
      (header.packetType ≠ p.code →
        codec.decode p src = .error (.packetTypeMismatch p.code header.packetType)) := by
  have hregistry := registry_of_ofConfig hcodec
  refine ⟨fun body n => ?_, fun hnone => ?_,
    fun header hopens => ⟨fun htype e => ?_, fun hne => ?_⟩⟩
  · by_cases hother : ∃ header n, run codec.readHeader src = .ok (header, n) ∧
        header.packetType ≠ p.code
    · -- behind a header of another packet, neither brings the expected one
      obtain ⟨header, m, hrun, hne⟩ := hother
      rw [decode_of_ne hrun hne]
      exact iff_of_false (fun h => nomatch h)
        fun h => hne (packetType_of_decodeAny hregistry hrun h)
    · -- no header can be read, or one of the expected packet
      have hexpected : ∀ header n, run codec.readHeader src = .ok (header, n) →
          header.packetType = p.code := fun header n hrun =>
        Classical.byContradiction fun hne => hother ⟨header, n, hrun, hne⟩
      rw [decodeAny_eq_of_expected hregistry hexpected]
      cases codec.decode p src with
      | error e => exact iff_of_false (fun h => nomatch h) (fun h => nomatch h)
      | ok answer => simp [Except.map, Prod.ext_iff]
  · cases hrun : run codec.readHeader src with
    | error e => exact ⟨e, decode_of_error hrun, decodeAny_of_error hrun⟩
    | ok answer => exact absurd (Header.opens_of_run_read hrun) (hnone _)
  · have hexpected : ∀ other n, run codec.readHeader src = .ok (other, n) →
        other.packetType = p.code := fun other n hrun => by
      rw [(Header.opens_of_run_read hrun).unique hopens, htype]
    rw [decodeAny_eq_of_expected hregistry hexpected]
    cases codec.decode p src with
    | error e' => simp [Except.map]
    | ok answer => exact iff_of_false (fun h => nomatch h) (fun h => nomatch h)
  · exact decode_of_ne (Header.run_read_of_opens hopens) hne

/-- A logout that was expected is the one that would have been taken anyway. Where a login is
expected, the header alone gets the logout refused. -/
theorem decode_iff_decodeAny_logout :
    let logout : Bytes := [67, 87, 3, 0, 0, 0, 6, 0, 0, 0, 1, 0, 0, 0, 98, 0]
    ofConfig .standard = .ok standard ∧
      standard.decodeAny logout = .ok (some ⟨.logoutRequest, ⟨"b", ⟨false⟩⟩⟩, 16) ∧
      standard.decode .loginRequest (logout.take 10) = .error (.packetTypeMismatch ⟨1⟩ ⟨3⟩) := by
  intro logout
  have hcodec : ofConfig .standard = .ok standard := rfl
  have hheader : run standard.readHeader [67, 87, 3, 0, 0, 0, 6, 0, 0, 0] =
      .ok (⟨⟨3⟩, none, 6⟩, 10) := rfl
  have hdecode : standard.decode .logoutRequest
      [67, 87, 3, 0, 0, 0, 6, 0, 0, 0, 1, 0, 0, 0, 98, 0] = .ok (⟨"b", ⟨false⟩⟩, 16) := rfl
  obtain ⟨hexpected, -⟩ := decode_iff_decodeAny hcodec .logoutRequest logout
  obtain ⟨-, -, hother⟩ := decode_iff_decodeAny hcodec .loginRequest (logout.take 10)
  have hrefused := (hother _ (Header.opens_of_run_read hheader)).2 (by decide)
  exact ⟨hcodec, (hexpected _ _).mp hdecode, hrefused⟩

end Codec

end ChatCodec
