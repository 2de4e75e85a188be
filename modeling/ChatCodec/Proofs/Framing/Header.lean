import ChatCodec.Proofs.RoundTrip.Takes
import ChatCodec.Proofs.Reading.Layouts
import ChatCodec.Proofs.Writing.Layouts

/-!
# Headers in bytes

`Header.bytes` is what a header looks like on the wire, the content size last. A header is read
from just these bytes, and replacing the last four of them replaces the content size.

* `Header.WellFormed` — what reading a header guarantees;
* `Header.bytes` — the header on the wire.

Main results: `Header.output_write`, `Header.takes_read` and its converse `Header.eq_of_run_read`,
`Header.overwrite_contentSize`, and from them `Header.read_inverts_write`: reader, writer, length
and the place of the content size keep in step.
-/

namespace ChatCodec

open Write (output)
open Read

namespace Header

/-- The header has an error code just if its type has one, and a content size within the limit. -/
structure WellFormed (h : Header) (limit : Nat) : Prop where
  errorCode : h.errorCode.isSome = h.packetType.hasErrorCode
  nonneg : 0 ≤ h.contentSize.toInt
  contentLength_le : h.contentLength ≤ limit

/-- The bytes of an error code, where the packet type has one. -/
def errorCodeBytes (h : Header) : Bytes :=
  if h.packetType.hasErrorCode then Primitive.i8.encode (h.errorCode.getD 0) else []

/-- The bytes in front of the content size. -/
def front (h : Header) (signature : UInt16) : Bytes :=
  Primitive.u16.encode signature ++ (Primitive.u32.encode h.packetType.code ++ h.errorCodeBytes)

/-- The bytes of the header. -/
def bytes (h : Header) (signature : UInt16) : Bytes :=
  h.front signature ++ Primitive.i32.encode h.contentSize

theorem length_errorCodeBytes (h : Header) :
    h.errorCodeBytes.length = if h.packetType.hasErrorCode then 1 else 0 := by
  unfold errorCodeBytes
  split <;> rfl

theorem length_front (h : Header) (signature : UInt16) :
    (h.front signature).length = h.contentSizeOffset := by
  rw [front, List.length_append, List.length_append, Primitive.length_encode,
    Primitive.length_encode, length_errorCodeBytes, contentSizeOffset, length,
    PacketType.headerLength]
  split <;> rfl

@[simp] theorem length_bytes (h : Header) (signature : UInt16) :
    (h.bytes signature).length = h.length := by
  rw [bytes, List.length_append, length_front, Primitive.length_encode, contentSizeOffset, length,
    PacketType.headerLength]
  split <;> rfl

/-! ## Writing -/

theorem output_writeErrorCode (h : Header) :
    output h.writeErrorCode = .ok ((), h.errorCodeBytes) := by
  unfold writeErrorCode errorCodeBytes
  split
  · exact Write.output_primitive _ _
  · rfl

theorem output_write (h : Header) (signature : UInt16) :
    output (h.write signature) = .ok ((), h.bytes signature) := by
  have hsize : Write.Local (Write.primitive .i32 h.contentSize) := Write.local_primitive _ _
  have hcode : Write.Local (do
      h.writeErrorCode
      Write.primitive .i32 h.contentSize) := h.local_writeErrorCode.bind fun _ => hsize
  have htype : Write.Local (do
      Write.primitive .u32 h.packetType.code
      h.writeErrorCode
      Write.primitive .i32 h.contentSize) := (Write.local_primitive _ _).bind fun _ => hcode
  rw [write, Write.output_atomic,
    Write.output_bind_of_ok (Write.local_primitive _ _) htype (Write.output_primitive _ _),
    Write.output_bind_of_ok (Write.local_primitive _ _) hcode (Write.output_primitive _ _),
    Write.output_bind_of_ok h.local_writeErrorCode hsize h.output_writeErrorCode,
    Write.output_primitive]
  simp only [Except.map, bytes, front, List.append_assoc]

/-- Overwriting the last four bytes of a header replaces its content size. -/
theorem overwrite_contentSize (h : Header) (signature : UInt16) (contentSize : Int32)
    (content : Bytes) :
    (h.bytes signature ++ content).overwrite h.contentSizeOffset
        (Primitive.i32.encode contentSize) =
      ({ h with contentSize } : Header).bytes signature ++ content := by
  have hlen : (Primitive.i32.encode h.contentSize).length =
      (Primitive.i32.encode contentSize).length := by
    rw [Primitive.length_encode, Primitive.length_encode]
  rw [bytes, bytes, List.append_assoc, List.append_assoc, ← h.length_front signature,
    Bytes.overwrite, List.take_left, ← List.drop_drop, List.drop_left, ← hlen, List.drop_left,
    List.append_assoc]
  rfl

/-! ## Reading -/

theorem takes_readErrorCode {h : Header} (hcode : h.errorCode.isSome = h.packetType.hasErrorCode) :
    Takes (readErrorCode h.packetType) h.errorCodeBytes h.errorCode := by
  unfold readErrorCode errorCodeBytes
  cases herror : h.errorCode with
  | none =>
    rw [herror] at hcode
    rw [← hcode]
    exact takes_pure none
  | some code =>
    rw [herror] at hcode
    rw [← hcode]
    exact (takes_primitive .i8 code).map (parses_primitive _).local some

section Fields

variable (limit : Nat) (packetType : PacketType) (errorCode : Option Int8)

/-- What is left to do once all bytes of a header are read. -/
theorem local_checkSize (contentSize : Int32) : Local (do
    let contentSize ← ofExcept (checkContentSize limit contentSize)
    return ({ packetType, errorCode, contentSize } : Header)) :=
  (parses_ofExcept _).local.bind_pure _

/-- What is left to read behind the error code. -/
theorem local_readSize : Local (do
    let contentSize ← ofExcept (checkContentSize limit (← Read.primitive .i32))
    return ({ packetType, errorCode, contentSize } : Header)) :=
  (parses_primitive .i32).local.bind (local_checkSize limit packetType errorCode)

/-- What is left to read behind the packet type. -/
theorem local_readCode : Local (do
    let errorCode ← readErrorCode packetType
    let contentSize ← ofExcept (checkContentSize limit (← Read.primitive .i32))
    return ({ packetType, errorCode, contentSize } : Header)) :=
  (local_readErrorCode packetType).bind (local_readSize limit packetType)

/-- What is left to read behind the signature. -/
theorem local_readType : Local (do
    let packetType : PacketType := ⟨← Read.primitive .u32⟩
    let errorCode ← readErrorCode packetType
    let contentSize ← ofExcept (checkContentSize limit (← Read.primitive .i32))
    return ({ packetType, errorCode, contentSize } : Header)) :=
  (parses_primitive .u32).local.bind fun code => local_readCode limit ⟨code⟩

end Fields

theorem bytes_eq (h : Header) (signature : UInt16) :
    h.bytes signature = Primitive.u16.encode signature ++
      (Primitive.u32.encode h.packetType.code ++ (h.errorCodeBytes ++
        Primitive.i32.encode h.contentSize)) := by
  simp only [bytes, front, List.append_assoc]

/-- A header comes back, whatever follows it. -/
theorem takes_read {h : Header} {limit : Nat} (hwell : h.WellFormed limit) (signature : UInt16) :
    Takes (read signature limit) (h.bytes signature) h := by
  have hsignature : checkSignature signature signature = .ok () := if_pos rfl
  have hsize : checkContentSize limit h.contentSize = .ok h.contentSize := by
    have hnot : ¬ h.contentSize < 0 := by
      rw [Int32.lt_iff_toInt_lt]
      exact Int.not_lt.mpr hwell.nonneg
    have hle : ¬ limit < h.contentSize.toInt.toNat := Nat.not_lt.mpr hwell.contentLength_le
    rw [checkContentSize, if_neg hnot, if_neg hle]
  rw [bytes_eq]
  -- field by field; the two checks in between consume nothing
  refine Takes.atomic ((takes_primitive .u16 signature).bind (parses_primitive _).local
    ((parses_ofExcept _).local.bind fun _ => local_readType limit) ?_)
  refine (takes_ofExcept hsignature).bind_first (parses_ofExcept _).local (local_readType limit) ?_
  refine (takes_primitive .u32 h.packetType.code).bind (parses_primitive _).local
    (local_readCode limit _) ?_
  refine (takes_readErrorCode hwell.errorCode).bind (local_readErrorCode _)
    (local_readSize limit _ _) ?_
  refine (takes_primitive .i32 h.contentSize).bind_last (parses_primitive _).local
    (local_checkSize limit _ _ _) ?_
  exact (takes_ofExcept hsize).bind_pure (parses_ofExcept _).local _

theorem run_ofExcept_bind_eq_ok {α β : Type} {result : Except CodecError α} {next : α → ReadM β}
    {bytes : Bytes} {answer : β × Nat} (h : run (ofExcept result >>= next) bytes = .ok answer) :
    ∃ a, result = .ok a ∧ run (next a) bytes = .ok answer := by
  cases result with
  | ok a => exact ⟨a, rfl, h⟩
  | error e => cases h

theorem eq_of_run_readErrorCode {packetType : PacketType} {bytes : Bytes}
    {errorCode : Option Int8} {n : Nat}
    (h : run (readErrorCode packetType) bytes = .ok (errorCode, n)) (contentSize : Int32) :
    errorCode.isSome = packetType.hasErrorCode ∧
      bytes.take n = (Header.mk packetType errorCode contentSize).errorCodeBytes ∧
      n = (Header.mk packetType errorCode contentSize).errorCodeBytes.length := by
  unfold readErrorCode at h
  unfold errorCodeBytes
  cases hcode : packetType.hasErrorCode with
  | true =>
    rw [hcode, if_pos rfl] at h
    obtain ⟨code, hrun, rfl⟩ := run_bind_pure_eq_ok (parses_primitive _).local h
    obtain ⟨htake, hn⟩ := eq_of_run_primitive hrun
    exact ⟨rfl, htake, hn⟩
  | false =>
    rw [hcode] at h
    cases h
    exact ⟨rfl, rfl, rfl⟩

theorem eq_of_checkSignature {expected actual : UInt16}
    (h : checkSignature expected actual = .ok ()) : actual = expected := by
  unfold checkSignature at h
  split at h
  · assumption
  · cases h

theorem eq_of_checkContentSize {limit : Nat} {size contentSize : Int32}
    (h : checkContentSize limit size = .ok contentSize) :
    contentSize = size ∧ 0 ≤ size.toInt ∧ size.toInt.toNat ≤ limit := by
  unfold checkContentSize at h
  split at h
  · cases h
  · next hnonneg =>
      split at h
      · cases h
      · next hle =>
          cases h
          rw [Int32.lt_iff_toInt_lt] at hnonneg
          exact ⟨rfl, Int.not_lt.mp hnonneg, Nat.le_of_not_lt hle⟩

/-- A header that is read is well-formed, and its bytes stand at the start of those it is read
from. -/
theorem eq_of_run_read {signature : UInt16} {limit : Nat} {src : Bytes} {h : Header} {n : Nat}
    (hrun : run (read signature limit) src = .ok (h, n)) :
    h.WellFormed limit ∧ n = h.length ∧ src.take n = h.bytes signature := by
  rw [read, run_atomic] at hrun
  -- the fields one after another, each read from what the one before left
  obtain ⟨actual, n₁, m₁, h₁, hrest, rfl⟩ := (run_bind_eq_ok (parses_primitive _).local
    fun _ => (parses_ofExcept _).local.bind fun _ => local_readType limit).mp hrun
  obtain ⟨_, hsignature, htype⟩ := run_ofExcept_bind_eq_ok hrest
  obtain ⟨code, n₂, m₂, h₂, hcode, rfl⟩ := (run_bind_eq_ok (parses_primitive _).local
    fun code => local_readCode limit ⟨code⟩).mp htype
  obtain ⟨errorCode, n₃, m₃, h₃, hsize, rfl⟩ := (run_bind_eq_ok (local_readErrorCode ⟨code⟩)
    (local_readSize limit ⟨code⟩)).mp hcode
  obtain ⟨size, n₄, m₄, h₄, hcheck, rfl⟩ := (run_bind_eq_ok (parses_primitive _).local
    (local_checkSize limit ⟨code⟩ errorCode)).mp hsize
  obtain ⟨contentSize, hok, hpure⟩ := run_ofExcept_bind_eq_ok hcheck
  cases hpure
  obtain ⟨hsize, hnonneg, hle⟩ := eq_of_checkContentSize hok
  have hactual := eq_of_checkSignature hsignature
  subst hsize hactual
  obtain ⟨ht₁, hn₁⟩ := eq_of_run_primitive h₁
  obtain ⟨ht₂, hn₂⟩ := eq_of_run_primitive h₂
  obtain ⟨hsome, ht₃, hn₃⟩ := eq_of_run_readErrorCode h₃ contentSize
  obtain ⟨ht₄, hn₄⟩ := eq_of_run_primitive h₄
  -- what each of them took, put together
  have htake : src.take (n₁ + (n₂ + (n₃ + (n₄ + 0)))) =
      (Header.mk ⟨code⟩ errorCode contentSize).bytes actual := by
    rw [Nat.add_zero, List.take_add, List.take_add, List.take_add, ht₁, ht₂, ht₃, ht₄, bytes_eq]
  refine ⟨⟨hsome, hnonneg, hle⟩, ?_, htake⟩
  rw [← length_bytes _ actual, bytes_eq, List.length_append, List.length_append,
    List.length_append, Primitive.length_encode, Primitive.length_encode, Primitive.length_encode,
    hn₁, hn₂, hn₃, hn₄]
  rfl

/-! ## Both ways -/

/-- Reading and writing headers are inverse to each other, under any signature and limit. A
well-formed header is read back from what was written, in front of anything, and takes just its
length; what is read is well-formed, and writing it gives the bytes it was read from; and
overwriting the last four bytes written, which stand at the offset of the content size, is writing
the header with another content size. -/
theorem read_inverts_write (signature : UInt16) (limit : Nat) :
    (∀ h : Header, h.WellFormed limit → ∃ src, output (h.write signature) = .ok ((), src) ∧
      ∀ rest, run (read signature limit) (src ++ rest) = .ok (h, h.length)) ∧
    (∀ src h n, run (read signature limit) src = .ok (h, n) → h.WellFormed limit ∧ n = h.length ∧
      output (h.write signature) = .ok ((), src.take n)) ∧
    ∀ (h : Header) (contentSize : Int32), ∃ src, output (h.write signature) = .ok ((), src) ∧
      src.length = h.contentSizeOffset + 4 ∧
      output (({ h with contentSize } : Header).write signature) =
        .ok ((), src.overwrite h.contentSizeOffset (Primitive.i32.encode contentSize)) := by
  refine ⟨fun h hwell => ⟨_, h.output_write signature, fun rest => ?_⟩, fun src h n hrun => ?_,
    fun h contentSize => ⟨_, h.output_write signature, ?_, ?_⟩⟩
  · rw [takes_read hwell signature rest, length_bytes]
  · obtain ⟨hwell, hn, htake⟩ := eq_of_run_read hrun
    exact ⟨hwell, hn, by rw [htake, output_write]⟩
  · rw [bytes, List.length_append, length_front, Primitive.length_encode]
    rfl
  · have hover := h.overwrite_contentSize signature contentSize []
    rw [List.append_nil, List.append_nil] at hover
    rw [hover, output_write]

/-- A response with error code -1 and seven bytes of content, whose header has eleven bytes. -/
theorem read_inverts_write_response :
    let h : Header := ⟨⟨0x01000003⟩, some (-1), 7⟩
    ∃ src, output (h.write defaultSignature) = .ok ((), src) ∧
      ∀ rest, run (read defaultSignature 64) (src ++ rest) = .ok (h, 11) :=
  (read_inverts_write defaultSignature 64).1 _ ⟨by decide, by decide, by decide⟩

end Header

end ChatCodec
