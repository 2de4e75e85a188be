import ChatCodec.Proofs.Reading.Final

/-!
# Values that arrive in parts

A receiver that was answered anything but a shortage need not ask again when more bytes arrive. It
would get the same value at the same place, or the same error. So while a value is still on its way,
it is answered a shortage and nothing else: no part of the value is taken for a shorter one, or for
one that is malformed.

This is not plain from the reading of collections, where a count is compared with the number of
bytes ahead; but a count is refused for a shortage only, and each element is read by bytes of its
own.

* `Read.Incremental` — a read that may be tried on what has arrived so far.

Reads are incremental because they are final. Main result: `Serializer.Composed.incremental`.
-/

namespace ChatCodec

open Read

variable {α β : Type}

namespace Read

/-- What has arrived is answered for good, or is short and still ahead of the cursor. -/
structure Incremental (read : ReadM α) : Prop where
  /-- More bytes change neither a value, nor the bytes it took, nor an error but a shortage. -/
  append : ∀ src more, ¬ IsShort (run read src) → run read (src ++ more) = run read src
  /-- A part of bytes that are all consumed is short, and nothing of it is consumed. -/
  part : ∀ {src part a}, run read src = .ok (a, src.length) → part <+: src → part ≠ src →
    ∃ need available, read (.ofBytes part) =
      .error (.insufficientData need available) (.ofBytes part)

theorem Final.toIncremental {read : ReadM α} (h : Final read) (hclean : Clean read) :
    Incremental read where
  append _ more hshort := h.append hshort more
  part {src part a} hrun hpart hne := by
    obtain ⟨need, available, herror⟩ := h.isShort_part hrun hpart hne
    refine ⟨need, available, ?_⟩
    -- final says what is answered; that nothing is consumed is what clean adds
    rw [hclean.eq (Reader.valid_ofBytes part), Reader.rest_ofBytes, herror]
    rfl

/-- A read that is final is incremental in a block with rollback. -/
theorem Final.incremental_atomic {read : ReadM α} (h : Final read) :
    Incremental (Read.atomic read) :=
  h.atomic.toIncremental h.toLocal

end Read

namespace Serializer

variable {s : Serializer α}

/-- A serializer made of ones that stay where they are when they fail stays there as well. -/
theorem Composed.clean (h : s.Composed fun _ leaf => Clean leaf.deserialize) :
    Clean s.deserialize := by
  induction h with
  | leaf h => exact h
  | ofLayout layout => exact layout.clean_read
  | through _ _ ofWire ih => exact ih.map ofWire
  | groupRoom => exact CreateGroupRoom.layout.clean_read.map CreateRoom.group
  | directRoom => exact CreateDirectRoom.layout.clean_read.map CreateRoom.direct
  | createRoom _ ih => exact clean_createRoom fun kind form hform => (ih kind form hform).local
  | list _ ih => exact clean_list ih.local
  | tokenRequest _ ih => exact clean_tokenRequest ih.local
  | sessionRequest _ ih => exact clean_sessionRequest ih.local
  | response style _ ih => exact clean_response style ih.local

/-- Values of every layout, and of every serializer made of final ones, may be read from what has
arrived so far. More input changes the answer only where it was a shortage. While a value that comes
back has arrived in part, the answer is a shortage, and the cursor stays at the start of the
value. -/
theorem Composed.incremental (h : s.Composed fun _ leaf => Final leaf.deserialize) :
    (∀ {β : Type} (layout : Layout β), Incremental layout.read ∧ Incremental (Read.value layout)) ∧
    Incremental (Read.atomic s.deserialize) ∧
    ((s.Composed fun _ leaf => Clean leaf.deserialize) → Incremental s.deserialize) ∧
    ∀ (a b : α) (buffer : Buffer) (w : Writer), s.serialize a (.growable buffer) = .ok () w →
      s.tryDeserialize w.written = .ok (b, w.written.length) →
      ∀ part, part <+: w.written → part ≠ w.written → IsShort (s.tryDeserialize part) := by
  have hfinal : Final s.deserialize := h.deserialize hereditary_final
  refine ⟨fun layout => ⟨?_, layout.final_read.incremental_atomic⟩, hfinal.incremental_atomic,
    fun hclean => hfinal.toIncremental hclean.clean, fun a b buffer w _ hback part hpart hne => ?_⟩
  · exact layout.final_read.toIncremental layout.clean_read
  · exact hfinal.atomic.isShort_part hback hpart hne

/-- Two numbers, each read from a byte. With one of them missing the count is not believed yet; with
both there, it does not matter what follows. -/
theorem Composed.incremental_tens :
    let tens : Serializer UInt32 := .ofFunctions 1 (fun n => Write.primitive .u8 (n / 10).toUInt8)
      ((fun byte => byte.toUInt32 * 10) <$> Read.primitive .u8)
    let s : Serializer (List UInt32) := .list tens
    (s.Composed fun _ leaf => Final leaf.deserialize) ∧
      (∀ more, run s.deserialize ([2, 0, 0, 0, 7, 12] ++ more) = .ok ([70, 120], 6)) ∧
      ∃ need available, s.deserialize (.ofBytes [2, 0, 0, 0, 7]) =
        .error (.insufficientData need available) (.ofBytes [2, 0, 0, 0, 7]) := by
  intro tens s
  have hs : s.Composed fun _ leaf => Final leaf.deserialize :=
    .list (.leaf ((final_primitive .u8).map _))
  have hclean : s.Composed fun _ leaf => Clean leaf.deserialize :=
    .list (.leaf ((parses_primitive .u8).clean.map _))
  obtain ⟨-, -, hincremental, -⟩ := Composed.incremental hs
  have hwhole : run s.deserialize [2, 0, 0, 0, 7, 12] = .ok ([70, 120], 6) := rfl
  refine ⟨hs, fun more => ?_, (hincremental hclean).part hwhole ⟨[12], rfl⟩ (by decide)⟩
  rw [(hincremental hclean).append _ more (hwhole ▸ not_isShort_ok _), hwhole]

end Serializer

end ChatCodec
