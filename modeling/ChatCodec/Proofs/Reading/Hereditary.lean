import ChatCodec.Proofs.Reading.Local
import ChatCodec.Proofs.Serializers.Composed

/-!
# What passes from reads to the reads made of them

Every value that travels in a packet is read by a few kinds of single reads, put one behind the
other or into blocks with rollback. A property that these have, and that passes on, holds of the
reading of all layouts, and of all serializers made of ones that have it.

* `CodecError.IsRefusal` — an error about what the bytes say, and not about how many there are;
* `Read.Hereditary` — a property of single reads that passes to sequences and blocks.

Main results: `Layout.hereditary_read`, `Header.hereditary_read` and
`Serializer.Composed.deserialize`.
-/

namespace ChatCodec

open Read

/-- The error is about what the bytes say: neither are there too few of them, nor too many. -/
def CodecError.IsRefusal : CodecError → Prop
  | insufficientData .. | contentSizeMismatch .. => False
  | _ => True

/-- The property holds of single reads, and of the reads made of those it holds of. -/
structure Read.Hereditary (P : (α : Type) → ReadM α → Prop) : Prop where
  pure : ∀ {α : Type} (a : α), P α (pure a)
  throw : ∀ {α : Type} {e : CodecError}, e.IsRefusal → P α (throw e)
  primitive : ∀ {α : Type} (p : Primitive α), P α (primitive p)
  bytes : ∀ len, P Bytes (bytes len)
  ensure : ∀ need, P Unit (ensure need)
  bind : ∀ {α β : Type} {read : ReadM α} {next : α → ReadM β}, P α read → (∀ a, P β (next a)) →
    P β (read >>= next)
  atomic : ∀ {α : Type} {read : ReadM α}, P α read → P α (atomic read)

namespace Read.Hereditary

variable {P : (α : Type) → ReadM α → Prop} (h : Hereditary P) {α β σ : Type}
include h

theorem map {read : ReadM α} (hread : P α read) (f : α → β) : P β (f <$> read) :=
  h.bind hread fun a => h.pure (f a)

theorem ofExcept {result : Except CodecError α} (hresult : ∀ e, result = .error e → e.IsRefusal) :
    P α (ofExcept result) := by
  cases result with
  | ok a => exact h.pure a
  | error e => exact h.throw (hresult e rfl)

theorem times {read : ReadM α} (hread : P α read) (n : Nat) : P (List α) (times read n) := by
  induction n with
  | zero => exact h.pure []
  | succ n ih => exact h.bind hread fun a => h.bind ih fun rest => h.pure (a :: rest)

theorem iterate {step : σ → ReadM σ} (hstep : ∀ s, P σ (step s)) (n : Nat) (s : σ) :
    P σ (iterate step n s) := by
  induction n generalizing s with
  | zero => exact h.pure s
  | succ n ih => exact h.bind (hstep s) ih

/-! ## Strings and counts -/

theorem textOfLength (length : Int32) : P (Option String) (textOfLength length) := by
  unfold Read.textOfLength
  simp only [throw_bind]
  split
  · exact h.pure none
  split
  · exact h.throw trivial
  refine h.bind (h.bytes _) fun content => ?_
  split
  · exact h.pure _
  · exact h.throw trivial

theorem text : P (Option String) text :=
  h.atomic (h.bind (h.primitive .i32) h.textOfLength)

theorem requiredText : P String requiredText := by
  refine h.atomic (h.bind h.text fun s => ?_)
  split
  · exact h.pure _
  · exact h.throw trivial

theorem countOfPrefix (minSize : Nat) (prefixed : Int32) :
    P Nat (countOfPrefix minSize prefixed) := by
  unfold Read.countOfPrefix
  simp only [throw_bind]
  split
  · exact h.throw trivial
  split
  · exact h.throw trivial
  split
  · exact h.throw trivial
  exact h.bind (h.ensure _) fun _ => h.pure _

theorem count (minSize : Nat) : P Nat (count minSize) :=
  h.atomic (h.bind (h.primitive .i32) (h.countOfPrefix minSize))

/-! ## Layouts -/

theorem orDuplicate (collection : CollectionKind) (result : Option α) :
    P α (Layout.orDuplicate collection result) := by
  unfold Layout.orDuplicate
  split
  · exact h.pure _
  · exact h.throw trivial

end Read.Hereditary

/-- What holds of single reads holds of the reading of every value. -/
theorem Layout.hereditary_read {P : (α : Type) → ReadM α → Prop} (h : Hereditary P) {α : Type}
    (layout : Layout α) : P α layout.read := by
  induction layout with
  | primitive p => exact h.primitive p
  | text => exact h.requiredText
  | nullableText => exact h.text
  | empty => exact h.pure ()
  | errorCode => exact h.map (h.primitive .i8) ErrorCode.ofInt8
  | enumeration e =>
    refine h.atomic (h.bind (h.primitive .u8) fun byte => ?_)
    split
    · exact h.pure _
    · exact h.throw trivial
  | pair first second ihFirst ihSecond =>
    exact h.atomic (h.bind ihFirst fun a => h.bind ihSecond fun b => h.pure (a, b))
  | record shape fields ih => exact h.map ih shape.ofTuple
  | list element ih => exact h.atomic (h.bind (h.count _) fun n => h.times ih n)
  | set element ih =>
    refine h.atomic (h.bind (h.count _) fun n => h.iterate (fun s => ?_) n _)
    exact h.bind ih fun a => h.orDuplicate .set _
  | map key value ihKey ihValue | orderedMap key value ihKey ihValue =>
    refine h.atomic (h.bind (h.count _) fun n => h.iterate (fun m => ?_) n _)
    exact h.bind ihKey fun k => h.bind ihValue fun v => h.orDuplicate .map _

/-! ## Headers -/

namespace Header

variable {P : (α : Type) → ReadM α → Prop}

theorem isRefusal_of_checkSignature {expected actual : UInt16} {e : CodecError}
    (h : checkSignature expected actual = .error e) : e.IsRefusal := by
  unfold checkSignature at h
  split at h <;> cases h
  trivial

theorem isRefusal_of_checkContentSize {limit : Nat} {contentSize : Int32} {e : CodecError}
    (h : checkContentSize limit contentSize = .error e) : e.IsRefusal := by
  unfold checkContentSize at h
  split at h
  · cases h
    trivial
  · split at h <;> cases h
    trivial

theorem hereditary_readErrorCode (h : Hereditary P) (packetType : PacketType) :
    P (Option Int8) (readErrorCode packetType) := by
  unfold readErrorCode
  split
  · exact h.map (h.primitive .i8) some
  · exact h.pure none

/-- What holds of single reads holds of the reading of headers. -/
theorem hereditary_read (h : Hereditary P) (signature : UInt16) (limit : Nat) :
    P Header (read signature limit) :=
  h.atomic <| h.bind (h.primitive .u16) fun _ =>
    h.bind (h.ofExcept fun _ => isRefusal_of_checkSignature) fun _ =>
      h.bind (h.primitive .u32) fun _ => h.bind (hereditary_readErrorCode h _) fun _ =>
        h.bind (h.primitive .i32) fun _ =>
          h.bind (h.ofExcept fun _ => isRefusal_of_checkContentSize) fun _ => h.pure _

end Header

/-! ## Serializers -/

namespace Serializer

variable {P : (α : Type) → ReadM α → Prop} {α : Type} {s : Serializer α}

theorem hereditary_readMessage (h : Hereditary P) (style : ResponseStyle) :
    P (Option String) (readMessage style) := by
  cases style with
  | codeOnly => exact h.pure none
  | detailed => exact h.text

theorem hereditary_readPayload (h : Hereditary P) (hpayload : P α s.deserialize)
    (error : ErrorCode) : P (Option α) (readPayload s error) := by
  unfold readPayload
  split
  · exact h.map hpayload some
  · exact h.pure none

/-- What holds of single reads, and of the leaves, holds of the reading of every body. -/
theorem Composed.deserialize (h : Hereditary P)
    (hs : s.Composed fun α leaf => P α leaf.deserialize) : P α s.deserialize := by
  -- on the composition: each part is read behind the one before it
  induction hs with
  | leaf hleaf => exact hleaf
  | ofLayout layout => exact layout.hereditary_read h
  | through _ _ ofWire ih => exact h.map ih ofWire
  | groupRoom => exact h.map (CreateGroupRoom.layout.hereditary_read h) CreateRoom.group
  | directRoom => exact h.map (CreateDirectRoom.layout.hereditary_read h) CreateRoom.direct
  | createRoom _ ih =>
    refine h.atomic (h.bind (Layout.roomKind.hereditary_read h) fun kind => ?_)
    rw [RoomForms.form]
    cases hform : RoomForms.get? _ kind with
    | some form => exact ih kind form hform
    | none => exact h.throw trivial
  | list _ ih => exact h.atomic (h.bind (h.count _) fun n => h.times ih n)
  | tokenRequest _ ih =>
    exact h.atomic (h.bind h.requiredText fun _ => h.bind ih fun _ => h.pure _)
  | sessionRequest _ ih =>
    exact h.atomic (h.bind (h.primitive .snowflake) fun _ => h.bind (h.primitive .uuid) fun _ =>
      h.bind ih fun _ => h.pure _)
  | response style _ ih =>
    exact h.atomic (h.bind (Layout.errorCode.hereditary_read h) fun error =>
      h.bind (hereditary_readMessage h style) fun _ =>
        h.bind (hereditary_readPayload h ih error) fun _ => h.pure _)

end Serializer

end ChatCodec
