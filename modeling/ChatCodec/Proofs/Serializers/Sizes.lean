import ChatCodec.Proofs.RoundTrip.Serializers
import ChatCodec.Proofs.Serializers.Composed
import ChatCodec.Proofs.Writing.Bounded

/-!
# Sizes that can be relied on

A serializer announces the most bytes a value takes and the fewest that any value takes. A receiver
believes the least size, and a sender gets a destination by the size of its value, so neither may be
off by a byte, also where a value is refused after a part of it was written.

* `Write.Upfront` — a write of bytes that go by the value alone, and that refuses before it writes;
* `Serializer.IsOfFunctions` — a serializer made of functions whose sizes can be relied on;
* `Serializer.Sized` — the sizes of a serializer can be relied on;
* `Serializer.appended` — what a growing buffer gets of a value;
* `Serializer.padded`, `Serializer.cramped` — serializers of functions that cannot be relied on.

Sizes are right for whatever is composed of parts with right sizes (`Serializer.Composed.sized`).
Main result: `Serializer.Composed.fits_announced`. The size of a function's value is measured where
nothing else is written, so the size is right elsewhere only if the bytes go by the value alone.
-/

namespace ChatCodec

open Write (output IsShort)

variable {α β : Type}

/-- A write of bytes that go by the value alone, and that refuses a value before it writes any.
Being refused is no lack of space, of which only the writer knows. -/
structure Write.Upfront (write : WriteM Unit) : Prop where
  -- neither the place of the bytes nor the space left for them changes what they are
  locally : Write.Local write
  refuses : ∀ {w e}, w.Valid → output write = .error e → write w = .error e w
  not_short : ∀ {e}, output write = .error e → ¬ IsShort e

namespace Write

theorem upfront_primitive (p : Primitive α) (a : α) : Upfront (primitive p a) where
  locally := local_primitive p a
  refuses _ hout := by
    rw [output_primitive] at hout
    cases hout
  not_short hout := by
    rw [output_primitive] at hout
    cases hout

theorem upfront_throw {e : CodecError} (h : ¬ IsShort e) : Upfront (throw e) where
  locally := local_throw e
  refuses _ hout := by
    cases hout
    rfl
  not_short hout := by
    cases hout
    exact h

end Write

namespace Serializer

/-- A serializer made of two functions. The first writes or refuses each value upfront, by the value
alone, and never writes fewer bytes than the least size; nothing is asked of the second, which
reads. -/
inductive IsOfFunctions : {α : Type} → Serializer α → Prop
  | ofFunctions {α : Type} {minSize : Nat} {write : α → WriteM Unit} {read : ReadM α}
      (hwrite : ∀ a, Write.Upfront (write a))
      (hleast : ∀ a src, output (write a) = .ok ((), src) → minSize ≤ src.length) :
      IsOfFunctions (.ofFunctions minSize write read)

/-- The sizes are right: the one announced for a value is enough to write it or to refuse it as a
buffer does, and no value takes fewer bytes than the least size. -/
structure Sized (s : Serializer α) : Prop where
  bounded : s.Bounded
  least : s.LeastSize

/-! ## Functions -/

section Functions

variable {minSize : Nat} {write : α → WriteM Unit} {read : ReadM α} {a : α} {src : Bytes}

/-- The size of a value is measured by writing it. -/
theorem maxSize_ofFunctions (h : Write.Local (write a)) (hout : output (write a) = .ok ((), src)) :
    (ofFunctions minSize write read).maxSize a = src.length := by
  have hwrite := h.ok (Writer.valid_growable .empty) hout (Write.growable_fits _ _)
  simp only [ofFunctions, hwrite]
  exact Nat.zero_add _

theorem bounded_ofFunctions (h : ∀ a, Write.Upfront (write a)) :
    (ofFunctions minSize write read).Bounded := fun a => {
  locally := (h a).locally
  length_le := fun hout => Nat.le_of_eq (maxSize_ofFunctions (h a).locally hout).symm
  error := fun hw _ hout => ⟨_, (h a).refuses hw hout⟩
  not_short := (h a).not_short }

theorem IsOfFunctions.sized {s : Serializer α} (h : s.IsOfFunctions) : s.Sized := by
  obtain ⟨hwrite, hleast⟩ := h
  exact ⟨bounded_ofFunctions hwrite, hleast⟩

end Functions

/-! ## Functions whose sizes cannot be relied on -/

/-- Units as one byte where nothing is written yet, and as two behind other bytes. -/
def padded : Serializer Unit :=
  .ofFunctions 1
    (fun _ => do
      let w ← get
      if w.offset = 0 then Write.primitive .u8 0 else Write.primitive .u16 0)
    (Read.skip 1)

/-- Refuses all units for want of space, wherever they are written. -/
def cramped : Serializer Unit :=
  .ofFunctions 1 (fun _ => throw (.insufficientSpace 2 1)) (Read.skip 1)

theorem serialize_padded (w : Writer) :
    ∃ src, 1 ≤ src.length ∧ padded.serialize () w = Write.bytes src w := by
  by_cases hfirst : w.offset = 0
  · exact ⟨Primitive.u8.encode 0, Nat.le_refl 1, congrFun (if_pos hfirst) w⟩
  · exact ⟨Primitive.u16.encode 0, Nat.le_succ 1, congrFun (if_neg hfirst) w⟩

/-! ## Compositions -/

variable {s : Serializer α} {a : α}

theorem Sized.writesLocally (h : s.Sized) : s.WritesLocally :=
  fun a => (h.bounded a).locally

/-- A serializer made of ones whose sizes are right has right sizes. -/
theorem Composed.sized {Leaf : (α : Type) → Serializer α → Prop} (h : s.Composed Leaf)
    (hleaf : ∀ {α : Type} {leaf : Serializer α}, Leaf α leaf → leaf.Sized) : s.Sized := by
  -- on the composition: an envelope adds to both sizes just what it writes around its payload
  induction h with
  | leaf h => exact hleaf h
  | ofLayout layout => exact ⟨bounded_ofLayout layout, leastSize_ofLayout layout⟩
  | through _ toWire _ ih =>
    exact ⟨fun b => ih.bounded (toWire b), fun b => ih.least (toWire b)⟩
  | groupRoom => exact ⟨bounded_groupRoom, leastSize_groupRoom⟩
  | directRoom => exact ⟨bounded_directRoom, leastSize_directRoom⟩
  | createRoom _ ih =>
    exact ⟨bounded_createRoom fun kind form hform => (ih kind form hform).bounded,
      leastSize_createRoom (fun kind form hform => (ih kind form hform).writesLocally)
        fun kind form hform => (ih kind form hform).least⟩
  | list _ ih => exact ⟨bounded_list ih.bounded, leastSize_list ih.writesLocally⟩
  | tokenRequest _ ih =>
    exact ⟨bounded_tokenRequest ih.bounded, leastSize_tokenRequest ih.writesLocally ih.least⟩
  | sessionRequest _ ih =>
    exact ⟨bounded_sessionRequest ih.bounded, leastSize_sessionRequest ih.writesLocally ih.least⟩
  | response style _ ih =>
    exact ⟨bounded_response ih.bounded style, leastSize_response ih.writesLocally style⟩

/-! ## Destinations of the announced size -/

/-- What a value becomes at the end of a buffer that grows. -/
def appended (s : Serializer α) (a : α) (buffer : Buffer) : Except CodecError Bytes :=
  match s.serialize a (.growable buffer) with
  | .ok _ w => .ok w.written
  | .error e _ => .error e

theorem appended_eq (h : s.WritesLocally) (a : α) (buffer : Buffer) :
    s.appended a buffer = (output (s.serialize a)).map Prod.snd := by
  have hvalid := Writer.valid_growable buffer
  rw [appended]
  cases hout : output (s.serialize a) with
  | ok answer =>
    obtain ⟨⟨⟩, src⟩ := answer
    have hfits := Write.growable_fits buffer src.length
    have hempty : (Writer.growable buffer).written = [] := List.drop_length
    rw [(h a).ok hvalid hout hfits]
    show Except.ok ((Writer.growable buffer).append src).written = .ok src
    rw [Writer.written_append hvalid hfits, hempty, List.nil_append]
  | error e =>
    obtain ⟨e', w', herror, rfl | ⟨hspace, -⟩⟩ := (h a).error hvalid hout
    · rw [herror]
      rfl
    · -- a growable buffer does not run out of space
      exact absurd rfl hspace

theorem trySerialize_eq (h : s.Bounded) {size : Nat} (hsize : s.maxSize a ≤ size) :
    s.trySerialize a size = (output (s.serialize a)).map Prod.snd := by
  have hvalid : (Writer.ofSize size).Valid := Nat.zero_le _
  -- bounded writes end alike wherever the announced size fits, and in a slice of it, it does
  have hfits : (Writer.ofSize size).Fits (s.maxSize a) := by
    rw [Writer.ofSize, Writer.fixed, Writer.fits_fixed (Nat.zero_le _), List.length_replicate,
      Nat.zero_add]
    exact hsize
  rw [trySerialize, Write.atomic]
  cases hout : output (s.serialize a) with
  | ok answer =>
    obtain ⟨⟨⟩, src⟩ := answer
    have hsrc := hfits.mono ((h a).length_le hout)
    rw [(h a).locally.ok hvalid hout hsrc]
    exact congrArg Except.ok (Writer.written_append hvalid hsrc)
  | error e =>
    obtain ⟨w', herror⟩ := (h a).error hvalid hfits hout
    rw [herror]
    rfl

/-- Serializers keep to the sizes they announce, whatever they are composed of. Of the functions
among them four things are asked: they refuse a value before they write any of it, for another
reason than a lack of space, what they write goes by the value alone and not by the writer, and it
is no less than their least size.

In a destination of the size announced for a value, or a larger one, the value is written as it is
to a growing buffer, to the same bytes or refused with the same error, which is never a lack of
space. Wherever it is written, it takes no fewer bytes than the least size and no more than
announced. By a layout it takes exactly its size. -/
theorem Composed.fits_announced (h : s.Composed @IsOfFunctions) :
    (∀ (a : α) (size : Nat) (buffer : Buffer), s.maxSize a ≤ size →
      s.trySerialize a size = s.appended a buffer ∧
        ∀ e, s.trySerialize a size = .error e → ¬ IsShort e) ∧
    (∀ (a : α) (w w' : Writer), w.Valid → s.serialize a w = .ok () w' →
      ∃ src, w' = w.append src ∧ s.minSize ≤ src.length ∧ src.length ≤ s.maxSize a) ∧
    ∀ {β : Type} (layout : Layout β) (b : β),
      layout.minSize ≤ layout.size b ∧ layout.size b ≤ (Serializer.ofLayout layout).maxSize b ∧
      ∀ w w' : Writer, w.Valid → layout.write b w = .ok () w' →
        ∃ src, w' = w.append src ∧ src.length = layout.size b := by
  have hsized := h.sized IsOfFunctions.sized
  refine ⟨fun a size buffer hsize => ⟨?_, fun e herror => ?_⟩, fun a w w' hw hwrite => ?_,
    fun layout b => ⟨layout.minSize_le_size b, Nat.le_refl _, fun w w' hw hwrite => ?_⟩⟩
  · rw [trySerialize_eq hsized.bounded hsize, appended_eq hsized.writesLocally]
  · rw [trySerialize_eq hsized.bounded hsize] at herror
    exact (hsized.bounded a).not_short (error_of_map herror)
  · obtain ⟨src, hout, -, rfl⟩ := (hsized.writesLocally a).of_ok hw hwrite
    exact ⟨src, rfl, hsized.least a src hout, (hsized.bounded a).length_le hout⟩
  · obtain ⟨src, hout, -, rfl⟩ := (layout.local_write b).of_ok hw hwrite
    exact ⟨src, rfl, layout.length_output hout⟩

/-- A token and a list of numbers, each written as a tenth of it in one byte. A number that is too
large counts as one byte, so ten bytes are announced also for a list whose second number is refused
after the first was written. -/
theorem Composed.fits_announced_tens :
    let write (n : UInt32) : WriteM Unit :=
      if n < 2560 then Write.primitive .u8 (n / 10).toUInt8
      else throw (.invalidLength (.ofNat n.toNat))
    let tens : Serializer UInt32 :=
      .ofFunctions 1 write ((fun byte => byte.toUInt32 * 10) <$> Read.primitive .u8)
    let s : Serializer (TokenRequest (List UInt32)) := .tokenRequest (.list tens)
    s.Composed @IsOfFunctions ∧ s.maxSize ⟨"", [70, 120]⟩ = 10 ∧
      s.trySerialize ⟨"", [70, 120]⟩ 10 = .ok [0, 0, 0, 0, 2, 0, 0, 0, 7, 12] ∧
      s.maxSize ⟨"", [70, 2560]⟩ = 10 ∧
      s.trySerialize ⟨"", [70, 2560]⟩ 10 = .error (.invalidLength 2560) := by
  intro write tens s
  have hwrite (n : UInt32) : Write.Upfront (write n) := by
    show Write.Upfront (if n < 2560 then _ else _)
    split
    · exact Write.upfront_primitive .u8 _
    · exact Write.upfront_throw fun ⟨_, _, hshort⟩ => nomatch hshort
  have hleast (n : UInt32) (src : Bytes) (hout : output (write n) = .ok ((), src)) :
      1 ≤ src.length := by
    change output (if n < 2560 then _ else _) = _ at hout
    split at hout
    · rw [Write.output_primitive] at hout
      cases hout
      exact Nat.le_refl 1
    · cases hout
  have hs : s.Composed @IsOfFunctions := .tokenRequest (.list (.leaf (.ofFunctions hwrite hleast)))
  obtain ⟨hannounced, -, -⟩ := Composed.fits_announced hs
  have hmax : s.maxSize ⟨"", [70, 120]⟩ = 10 := rfl
  have hmax' : s.maxSize ⟨"", [70, 2560]⟩ = 10 := rfl
  have hok : s.appended ⟨"", [70, 120]⟩ .empty = .ok [0, 0, 0, 0, 2, 0, 0, 0, 7, 12] := rfl
  have herror : s.appended ⟨"", [70, 2560]⟩ .empty = .error (.invalidLength 2560) := rfl
  refine ⟨hs, hmax, ?_, hmax', ?_⟩
  · rw [(hannounced _ 10 .empty (Nat.le_of_eq hmax)).1, hok]
  · rw [(hannounced _ 10 .empty (Nat.le_of_eq hmax')).1, herror]

/-- It is not enough that functions refuse before they write and keep to their least size. Some that
do write more behind other bytes than where they are measured: a list of one unit takes six bytes of
a buffer, but five are announced, in which it finds no space. And some call a refusal a lack of
space where there is none. -/
theorem exceeds_announced_of_padded :
    (∀ (a : Unit) (e : CodecError) (w w' : Writer),
      padded.serialize a w = .error e w' ∨ cramped.serialize a w = .error e w' → w' = w) ∧
    (∀ (a : Unit) (w w' : Writer), w.Valid →
      padded.serialize a w = .ok () w' ∨ cramped.serialize a w = .ok () w' →
      w.offset + 1 ≤ w'.offset) ∧
    (list padded).maxSize [()] = 5 ∧
    (list padded).appended [()] .empty = .ok [1, 0, 0, 0, 0, 0] ∧
    (list padded).trySerialize [()] 5 = .error (.insufficientSpace 2 1) ∧
    cramped.trySerialize () (cramped.maxSize ()) = .error (.insufficientSpace 2 1) := by
  refine ⟨fun a e w w' hwrite => ?_, fun a w w' hw hwrite => ?_, rfl, rfl, rfl, rfl⟩
  · obtain ⟨src, -, heq⟩ := serialize_padded w
    rcases hwrite with hwrite | hwrite
    · by_cases hfits : w.Fits src.length
      · rw [heq, Write.bytes_apply hfits] at hwrite
        cases hwrite
      · obtain ⟨e', hspace, -⟩ := Write.ensureSpace_of_not_fits hfits
        rw [heq, Write.bytes_of_no_space hspace] at hwrite
        cases hwrite
        rfl
    · cases hwrite
      rfl
  · obtain ⟨src, hleast, heq⟩ := serialize_padded w
    rcases hwrite with hwrite | hwrite
    · obtain ⟨src', hout, -, rfl⟩ := (Write.local_bytes src).of_ok hw (heq.symm.trans hwrite)
      rw [Write.output_bytes] at hout
      cases hout
      rw [Writer.offset_append]
      exact Nat.add_le_add_left hleast _
    · cases hwrite

end Serializer

end ChatCodec
