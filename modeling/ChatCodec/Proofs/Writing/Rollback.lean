import ChatCodec.Proofs.Writing.Layouts

/-!
# Writes that fail write nothing

A write that fails in the middle has put out a part already; a block with rollback takes it back.
This is shown of writes about which nothing is known but that they put their bytes behind the ones
that are written: no assumption is made on which bytes these are, nor that they are the same in
every writer.

* `Writer.Adds` — one writer is another with some bytes behind those written;
* `Writer.Scope` — the writers that are spoken of: buffers alone, or destinations of fixed size too;
* `Write.Puts` — a write that adds bytes of a certain kind, and may leave a part when it fails;
* `Write.Whole` — one that leaves nothing.

Main results: `Write.Puts.atomic` and `Layout.whole_write`.
-/

namespace ChatCodec

open Write (output)

variable {α β : Type}

/-! ## Writers -/

namespace Writer

/-- What stays as it is while bytes are written: where a buffer was taken up, or how long a
destination is. -/
def bounds (w : Writer) : Nat ⊕ Nat :=
  match w.sink with
  | .growable _ start => .inl start
  | .fixed destination => .inr destination.length

/-- The writer `w'` is `w` with `src` behind the bytes written. What the buffer held before, or the
filled part of the destination, is the same. -/
structure Adds (w : Writer) (src : Bytes) (w' : Writer) : Prop where
  offset : w'.offset = w.offset + src.length
  visible : w'.visible = w.visible ++ src
  bounds : w'.bounds = w.bounds

variable {w w' w'' : Writer} {src src' more new : Bytes} {pos n : Nat}

theorem Adds.refl (w : Writer) : w.Adds [] w where
  offset := rfl
  visible := (List.append_nil _).symm
  bounds := rfl

theorem Adds.trans (h : w.Adds src w') (h' : w'.Adds more w'') : w.Adds (src ++ more) w'' where
  offset := by rw [h'.offset, h.offset, List.length_append, Nat.add_assoc]
  visible := by rw [h'.visible, h.visible, List.append_assoc]
  bounds := h'.bounds.trans h.bounds

theorem adds_append (hw : w.Valid) (h : w.Fits src.length) : w.Adds src (w.append src) := by
  obtain ⟨sink, offset⟩ := w
  cases sink with
  | growable buffer start => exact ⟨rfl, rfl, rfl⟩
  | fixed destination =>
    have hfits := (fits_fixed hw).mp h
    exact ⟨rfl, Bytes.take_overwrite hfits, congrArg Sum.inr (Bytes.length_overwrite hfits)⟩

theorem Adds.valid (h : w.Adds src w') (hw : w.Valid) : w'.Valid := by
  obtain ⟨sink, offset⟩ := w
  obtain ⟨sink', offset'⟩ := w'
  obtain ⟨hoffset, hvisible, hbounds⟩ := h
  -- what is visible tells how far the bytes reach
  have hlength := congrArg List.length hvisible
  rw [List.length_append] at hlength
  cases sink with
  | growable buffer start =>
    cases sink' <;> cases hbounds
    next buffer' =>
    have hbuffer : buffer.bytes.length = start + offset := hw
    have hbuffer' : buffer'.bytes.length = buffer.bytes.length + src.length := hlength
    show buffer'.bytes.length = start + offset'
    dsimp only at hoffset
    omega
  | fixed destination =>
    cases sink' with
    | growable => cases hbounds
    | fixed destination' =>
      have hroom : offset ≤ destination.length := hw
      have hfilled : (destination'.take offset').length =
          (destination.take offset).length + src.length := hlength
      rw [List.length_take, List.length_take] at hfilled
      show offset' ≤ destination'.length
      dsimp only at hoffset
      omega

/-- Of what was added, a first part stays when the rest is taken back. -/
theorem Adds.take (h : w.Adds src w') (hw : w.Valid) (hn : n ≤ src.length) :
    w.Adds (src.take n) (w'.truncate (w.offset + n)) := by
  have hlen : (src.take n).length = n := by rw [List.length_take, Nat.min_eq_left hn]
  obtain ⟨sink, offset⟩ := w
  obtain ⟨sink', offset'⟩ := w'
  obtain ⟨hoffset, hvisible, hbounds⟩ := h
  cases sink with
  | growable buffer start =>
    cases sink' <;> cases hbounds
    next buffer' =>
    have hbuffer : buffer.bytes.length = start + offset := hw
    have hbytes : buffer'.bytes = buffer.bytes ++ src := hvisible
    refine ⟨congrArg (offset + ·) hlen.symm, ?_, rfl⟩
    -- the buffer is cut inside what was added
    show buffer'.bytes.take (start + (offset + n)) = buffer.bytes ++ src.take n
    rw [hbytes, ← Nat.add_assoc, ← hbuffer, List.take_length_add_append]
  | fixed destination =>
    cases sink' with
    | growable => cases hbounds
    | fixed destination' =>
      have hroom : offset ≤ destination.length := hw
      have hfront : (destination.take offset).length = offset := by
        rw [List.length_take]
        omega
      have hfilled : destination'.take offset' = destination.take offset ++ src := hvisible
      have hle : offset + n ≤ offset' := by
        dsimp only at hoffset
        omega
      refine ⟨congrArg (offset + ·) hlen.symm, ?_, hbounds⟩
      show destination'.take (offset + n) = destination.take offset ++ src.take n
      calc destination'.take (offset + n) = (destination'.take offset').take (offset + n) := by
            rw [List.take_take, Nat.min_eq_left hle]
        _ = (destination.take offset ++ src).take ((destination.take offset).length + n) := by
            rw [hfilled, hfront]
        _ = destination.take offset ++ src.take n := List.take_length_add_append n

/-- What is taken back was never written. -/
theorem Adds.truncate (h : w.Adds src w') (hw : w.Valid) : w.Adds [] (w'.truncate w.offset) :=
  h.take hw (Nat.zero_le _)

/-- What was added shows from the writers before and after. -/
theorem Adds.unique (h : w.Adds src w') (h' : w.Adds src' w') : src = src' :=
  List.append_cancel_left (h.visible.symm.trans h'.visible)

/-- Replacing some of the bytes that were added is adding them replaced. -/
theorem Adds.replace (h : w.Adds src w') (hw : w.Valid) (hpos : pos + new.length ≤ src.length) :
    w.Adds (src.overwrite pos new) (w'.replace (w.offset + pos) new) := by
  have hlen : (src.overwrite pos new).length = src.length := Bytes.length_overwrite hpos
  have hvalid := h.valid hw
  obtain ⟨sink, offset⟩ := w
  obtain ⟨sink', offset'⟩ := w'
  obtain ⟨hoffset, hvisible, hbounds⟩ := h
  cases sink with
  | growable buffer start =>
    cases sink' <;> cases hbounds
    next buffer' =>
    have hbuffer : buffer.bytes.length = start + offset := hw
    have hbytes : buffer'.bytes = buffer.bytes ++ src := hvisible
    have hreplaced : buffer'.bytes.overwrite (start + (offset + pos)) new =
        buffer.bytes ++ src.overwrite pos new := by
      have hmiddle := Bytes.overwrite_append buffer.bytes [] hpos
      rwa [List.append_nil, List.append_nil, hbuffer, Nat.add_assoc, ← hbytes] at hmiddle
    have hle : start + (offset + pos) + new.length ≤ buffer'.bytes.length := by
      rw [hbytes, List.length_append]
      omega
    refine ⟨hoffset.trans (by rw [hlen]), ?_, rfl⟩
    show (buffer'.overwrite (start + (offset + pos)) new).bytes = _
    rw [Buffer.overwrite, dif_pos hle]
    exact hreplaced
  | fixed destination =>
    cases sink' with
    | growable => cases hbounds
    | fixed destination' =>
      have hroom : offset ≤ destination.length := hw
      have hroom' : offset' ≤ destination'.length := hvalid
      have hfront : (destination.take offset).length = offset := by
        rw [List.length_take]
        omega
      have hfilled : destination'.take offset' = destination.take offset ++ src := hvisible
      dsimp only at hoffset
      -- the destination is what was filled before, what was added, and the rest
      have hreplaced : destination'.overwrite (offset + pos) new =
          destination.take offset ++ src.overwrite pos new ++ destination'.drop offset' := by
        have hmiddle := Bytes.overwrite_append (destination.take offset)
          (destination'.drop offset') hpos
        rwa [hfront, ← hfilled, List.take_append_drop] at hmiddle
      have hkept : (destination.take offset ++ src.overwrite pos new).length = offset' := by
        rw [List.length_append, hfront, hlen, hoffset]
      have hinside : offset + pos + new.length ≤ destination'.length := by omega
      refine ⟨hoffset.trans (by rw [hlen]), ?_, ?_⟩
      · show (destination'.overwrite (offset + pos) new).take offset' = _
        rw [hreplaced, List.take_left' hkept]
        rfl
      · show Sum.inr (destination'.overwrite (offset + pos) new).length = _
        rw [Bytes.length_overwrite hinside]
        exact hbounds

/-- There was room for what was added. -/
theorem Adds.fits (h : w.Adds src w') (hw : w.Valid) : w.Fits src.length := by
  have hvalid := h.valid hw
  obtain ⟨sink, offset⟩ := w
  obtain ⟨sink', offset'⟩ := w'
  obtain ⟨hoffset, -, hbounds⟩ := h
  cases sink with
  | growable buffer start => exact fits_of_space rfl _
  | fixed destination =>
    cases sink' with
    | growable => cases hbounds
    | fixed destination' =>
      have hlength : destination'.length = destination.length := Sum.inr.inj hbounds
      have hroom : offset' ≤ destination'.length := hvalid
      exact (fits_fixed hw).mpr (by rw [← hlength, ← hoffset]; exact hroom)

theorem offset_replace (w : Writer) (pos : Nat) (src : Bytes) :
    (w.replace pos src).offset = w.offset := by
  obtain ⟨sink, offset⟩ := w
  cases sink <;> rfl

/-- The writers that are spoken of. -/
inductive Scope where
  /-- Buffers, which have space for everything. -/
  | buffers
  /-- Destinations of fixed size as well. -/
  | all

/-- The writer is one of those spoken of. -/
def Scope.Covers (scope : Scope) (w : Writer) : Prop :=
  w.Valid ∧ (scope = .buffers → w.space? = none)

theorem space?_eq_none_iff : w.space? = none ↔ ∃ start, w.bounds = .inl start := by
  obtain ⟨sink, offset⟩ := w
  cases sink <;> simp [space?, bounds]

theorem Adds.covers {scope : Scope} (h : w.Adds src w') (hw : scope.Covers w) :
    scope.Covers w' := by
  refine ⟨h.valid hw.1, fun hscope => ?_⟩
  rw [space?_eq_none_iff, h.bounds, ← space?_eq_none_iff]
  exact hw.2 hscope

end Writer

/-! ## Writes -/

namespace Write

variable {scope : Writer.Scope} {write : WriteM α} {next : α → WriteM β}
variable {Done Done' : Bytes → Prop}

/-- The write adds bytes that are `Done`, and where it fails perhaps a part of such. -/
structure Puts (scope : Writer.Scope) (write : WriteM α) (Done : Bytes → Prop) : Prop where
  ok : ∀ {w a w'}, scope.Covers w → write w = .ok a w' → ∃ src, w.Adds src w' ∧ Done src
  error : ∀ {w e w'}, scope.Covers w → write w = .error e w' → ∃ src, w.Adds src w'

/-- The write adds bytes that are `Done`, and nothing where it fails. -/
structure Whole (scope : Writer.Scope) (write : WriteM α) (Done : Bytes → Prop) : Prop where
  ok : ∀ {w a w'}, scope.Covers w → write w = .ok a w' → ∃ src, w.Adds src w' ∧ Done src
  error : ∀ {w e w'}, scope.Covers w → write w = .error e w' → w.Adds [] w'

theorem Whole.puts (h : Whole scope write Done) : Puts scope write Done where
  ok := h.ok
  error hw herror := ⟨[], h.error hw herror⟩

theorem Whole.mono (h : Whole scope write Done) (hdone : ∀ src, Done src → Done' src) :
    Whole scope write Done' where
  ok hw hok := (h.ok hw hok).imp fun src hsrc => ⟨hsrc.1, hdone src hsrc.2⟩
  error := h.error

theorem Puts.mono (h : Puts scope write Done) (hdone : ∀ src, Done src → Done' src) :
    Puts scope write Done' where
  ok hw hok := (h.ok hw hok).imp fun src hsrc => ⟨hsrc.1, hdone src hsrc.2⟩
  error := h.error

/-- The first write adds its bytes, and the second one those behind them. If it is the second one
that fails, those of the first stay. -/
theorem Puts.bind (h : Puts scope write Done) (hnext : ∀ a, Puts scope (next a) Done') :
    Puts scope (write >>= next)
      fun src => ∃ first second, Done first ∧ Done' second ∧ src = first ++ second where
  ok hw hok := by
    obtain ⟨a, v, hwrite, hlast⟩ := ok_of_bind hok
    obtain ⟨first, hfirst, hdone⟩ := h.ok hw hwrite
    obtain ⟨second, hsecond, hdone'⟩ := (hnext a).ok (hfirst.covers hw) hlast
    exact ⟨first ++ second, hfirst.trans hsecond, first, second, hdone, hdone', rfl⟩
  error {w e w'} hw herror := by
    rw [bind_apply] at herror
    cases hwrite : write w with
    | ok a v =>
      rw [hwrite] at herror
      obtain ⟨first, hfirst, -⟩ := h.ok hw hwrite
      obtain ⟨second, hsecond⟩ := (hnext a).error (hfirst.covers hw) herror
      exact ⟨first ++ second, hfirst.trans hsecond⟩
    | error e' v =>
      rw [hwrite] at herror
      cases herror
      exact h.error hw hwrite

/-- A block with rollback takes back what it wrote before it failed. -/
theorem Puts.atomic (h : Puts scope write Done) : Whole scope (atomic write) Done where
  ok hw hok := h.ok hw (ok_of_atomic hok)
  error {w e w'} hw herror := by
    rw [Write.atomic] at herror
    split at herror
    · cases herror
    · next hwrite =>
      cases herror
      obtain ⟨src, hsrc⟩ := h.error hw hwrite
      exact hsrc.truncate hw.1

/-- Bytes that are what is put out for each value of a list, one after another. -/
def Parts (Done : α → Bytes → Prop) : List α → Bytes → Prop
  | [], src => src = []
  | a :: rest, src => ∃ first more, Done a first ∧ Parts Done rest more ∧ src = first ++ more

theorem whole_pure (a : α) : Whole scope (pure a : WriteM α) (· = []) where
  ok {w a' w'} _ hok := by
    cases hok
    exact ⟨[], .refl w, rfl⟩
  error _ herror := by cases herror

theorem whole_throw (e : CodecError) : Whole scope (throw e : WriteM α) Done where
  ok _ hok := by cases hok
  error {w e' w'} _ herror := by
    cases herror
    exact .refl w

theorem Puts.each {write : α → WriteM Unit} {Done : α → Bytes → Prop}
    (h : ∀ a, Puts scope (write a) (Done a)) (values : List α) :
    Puts scope (each write values) (Parts Done values) := by
  induction values with
  | nil => exact (whole_pure ()).puts
  | cons a rest ih => exact (h a).bind fun _ => ih

/-! ## The writes all others are made of -/

section Local

variable {write : WriteM Unit}

/-- Of a local write it is known what it adds. -/
theorem Whole.output (h : Whole scope write Done) (hlocal : Local write) :
    Whole scope write fun src => output write = .ok ((), src) where
  ok {w a w'} hw hok := by
    obtain ⟨src, hout, hfits, rfl⟩ := hlocal.of_ok hw.1 hok
    exact ⟨src, Writer.adds_append hw.1 hfits, hout⟩
  error := h.error

theorem whole_bytes (src : Bytes) : Whole scope (bytes src) (· = src) where
  ok {w a w'} hw hok := by
    obtain ⟨src', hout, hfits, rfl⟩ := (local_bytes src).of_ok hw.1 hok
    rw [output_bytes] at hout
    cases hout
    exact ⟨src, Writer.adds_append hw.1 hfits, rfl⟩
  error {w e w'} _ herror := by
    by_cases hfits : w.Fits src.length
    · rw [bytes_apply hfits] at herror
      cases herror
    · -- refused before anything is written
      obtain ⟨e', hspace, -⟩ := ensureSpace_of_not_fits hfits
      rw [bytes_of_no_space hspace] at herror
      cases herror
      exact .refl w

theorem whole_primitive (p : Primitive α) (a : α) :
    Whole scope (primitive p a) (· = p.encode a) :=
  whole_bytes (p.encode a)

theorem whole_count (n : Nat) :
    Whole scope (count n) fun src => output (count n) = .ok ((), src) := by
  have hwhole : Whole scope (count n) fun _ => True := by
    unfold count
    split
    · exact (whole_primitive .i32 _).mono fun _ _ => trivial
    · exact whole_throw _
  exact hwhole.output (local_count n)

theorem whole_text (s : String) :
    Whole scope (text s) fun src => output (text s) = .ok ((), src) := by
  cases h : prefix32 (Text.toBytes s).length with
  | ok length =>
    -- the prefix and the text are refused or written at once
    have hwhole : Whole scope (text s) (· = Primitive.i32.encode length ++ Text.toBytes s) := by
      constructor
      · intro w a w' hw hok
        rw [text_apply hw.1 h] at hok
        exact (whole_bytes _).ok hw hok
      · intro w e w' hw herror
        rw [text_apply hw.1 h] at herror
        exact (whole_bytes _).error hw herror
    exact hwhole.output (local_text s)
  | error e =>
    have hthrow : text s = throw e := by rw [text, h]
    rw [hthrow]
    exact whole_throw e

theorem whole_nullableText (s : Option String) :
    Whole scope (nullableText s) fun src => output (nullableText s) = .ok ((), src) := by
  cases s with
  | some s => exact whole_text s
  | none => exact (whole_primitive .i32 (-1)).output (local_primitive _ _)

end Local

end Write

open Write

/-- A value is written whole or not at all. -/
theorem Layout.whole_write {scope : Writer.Scope} (layout : Layout α) (v : α) :
    Whole scope (layout.write v) fun src => output (layout.write v) = .ok ((), src) := by
  induction layout with
  | primitive p => exact (whole_primitive p v).output (local_primitive p v)
  | text => exact whole_text v
  | nullableText => exact whole_nullableText v
  | empty => exact (whole_pure ()).output (local_pure ())
  | errorCode => exact (whole_primitive .i8 _).output (local_primitive _ _)
  | enumeration e => exact (whole_primitive .u8 _).output (local_primitive _ _)
  | pair first second ihFirst ihSecond =>
    have hfields := (ihFirst v.1).puts.bind fun _ => (ihSecond v.2).puts
    exact hfields.atomic.output ((first.pair second).local_write v)
  | record shape fields ih => exact ih (shape.toTuple v)
  | list element ih =>
    have helements := Puts.each (fun a => (ih a).puts) v
    exact ((whole_count _).puts.bind fun _ => helements).atomic.output (element.list.local_write v)
  | set element ih =>
    have helements := Puts.each (fun a => (ih a).puts) v.elements
    exact ((whole_count _).puts.bind fun _ => helements).atomic.output (element.set.local_write v)
  | map key value ihKey ihValue =>
    have hentries := Puts.each
      (fun e => (ihKey e.1).puts.bind fun _ => (ihValue e.2).puts) v.entries
    exact ((whole_count _).puts.bind fun _ => hentries).atomic.output
      ((key.map value).local_write v)
  | orderedMap key value ihKey ihValue =>
    have hentries := Puts.each
      (fun e => (ihKey e.1).puts.bind fun _ => (ihValue e.2).puts) v.entries
    exact ((whole_count _).puts.bind fun _ => hentries).atomic.output
      ((key.orderedMap value).local_write v)

theorem Serializer.whole_writeMessage {scope : Writer.Scope} (style : ResponseStyle)
    (message : Option String) : Whole scope (writeMessage style message)
      fun src => output (writeMessage style message) = .ok ((), src) := by
  cases style with
  | codeOnly => exact (whole_pure ()).output (local_pure ())
  | detailed => exact whole_nullableText message

end ChatCodec
