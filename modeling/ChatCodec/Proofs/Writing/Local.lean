import ChatCodec.Writer

/-!
# Writes do the same to every writer

A write is *local* when it puts the same bytes after whatever is written already, be it into a
buffer or into a destination of fixed size that has space for them. `Write.output`, what it puts
into an empty buffer, then says all there is to say about a write that succeeds.

* `Writer.Valid` — the offset agrees with the sink;
* `Writer.Fits` — so many bytes fit;
* `Write.Local` — the write appends its output where it fits, is refused where it does not, and
  fails elsewhere as it fails on an empty buffer unless the space runs out before.

Main results: the writes all others are made of are local (`local_bytes`, `local_text`, …), and so
are sequences, blocks with rollback and repetitions of local writes (`Local.bind`, `Local.atomic`,
`Local.each`).
-/

namespace ChatCodec

variable {α β : Type}

/-! ## Writers -/

namespace Writer

/-- The offset agrees with the sink. -/
def Valid (w : Writer) : Prop :=
  match w.sink with
  | .growable buffer start => buffer.length = start + w.offset
  | .fixed destination => w.offset ≤ destination.length

/-- The sink has space for `n` more bytes. -/
def Fits (w : Writer) (n : Nat) : Prop :=
  match w.space? with
  | none => True
  | some available => n ≤ available

variable {w : Writer} {n : Nat}

theorem fits_of_space (h : w.space? = none) (n : Nat) : w.Fits n := by
  rw [Fits, h]
  trivial

theorem Fits.mono {m : Nat} (h : w.Fits n) (hle : m ≤ n) : w.Fits m := by
  unfold Fits at *
  split at h
  · trivial
  · exact Nat.le_trans hle h

theorem valid_growable (buffer : Buffer) : (growable buffer).Valid :=
  rfl

theorem space_append (w : Writer) (src : Bytes) :
    (w.append src).space? = none ↔ w.space? = none := by
  obtain ⟨sink, offset⟩ := w
  cases sink <;> simp [append, space?]

@[simp] theorem offset_append (w : Writer) (src : Bytes) :
    (w.append src).offset = w.offset + src.length := by
  obtain ⟨sink, offset⟩ := w
  cases sink <;> rfl

theorem fits_zero (w : Writer) : w.Fits 0 := by
  unfold Fits
  split
  · trivial
  · exact Nat.zero_le _

/-- In a destination of fixed size, bytes fit that do not reach beyond its end. -/
theorem fits_fixed {destination : Bytes} {offset : Nat} (h : offset ≤ destination.length) :
    (⟨.fixed destination, offset⟩ : Writer).Fits n ↔ offset + n ≤ destination.length := by
  simp only [Fits, space?]
  omega

theorem Valid.append {src : Bytes} (hw : w.Valid) (h : w.Fits src.length) :
    (w.append src).Valid := by
  obtain ⟨sink, offset⟩ := w
  cases sink with
  | growable buffer start =>
    have hlen : buffer.bytes.length = start + offset := hw
    simp only [Valid, Writer.append, Buffer.length, Buffer.append, List.length_append]
    omega
  | fixed destination =>
    have hfits := (fits_fixed hw).mp h
    simp only [Valid, Writer.append, Bytes.length_overwrite hfits]
    exact hfits

theorem fits_append {src : Bytes} (hw : w.Valid) (h : w.Fits src.length) :
    (w.append src).Fits n ↔ w.Fits (src.length + n) := by
  have happend := hw.append h
  obtain ⟨sink, offset⟩ := w
  cases sink with
  | growable buffer start => exact Iff.rfl
  | fixed destination =>
    have hfits := (fits_fixed hw).mp h
    have hend : offset + src.length ≤ (destination.overwrite offset src).length := happend
    show Fits ⟨.fixed (destination.overwrite offset src), offset + src.length⟩ n ↔ _
    rw [fits_fixed hend, fits_fixed hw, Bytes.length_overwrite hfits, Nat.add_assoc]

theorem append_append {src : Bytes} (hw : w.Valid) (h : w.Fits src.length) (more : Bytes) :
    (w.append src).append more = w.append (src ++ more) := by
  obtain ⟨sink, offset⟩ := w
  cases sink with
  | growable buffer start =>
    have hbuffer : (buffer.append src).append more = buffer.append (src ++ more) := by
      simp only [Buffer.append, List.append_assoc, List.length_append, Buffer.mk.injEq, true_and]
      omega
    simp only [append, hbuffer, List.length_append, Nat.add_assoc]
  | fixed destination =>
    have hfits := (fits_fixed hw).mp h
    simp only [append, Bytes.overwrite_overwrite hfits, List.length_append, Nat.add_assoc]

theorem append_nil (hw : w.Valid) : w.append [] = w := by
  obtain ⟨sink, offset⟩ := w
  cases sink with
  | growable buffer start =>
    -- the capacity is at least the length already, so it does not grow either
    have hbuffer : buffer.append [] = buffer := by
      have hle := buffer.length_le
      obtain ⟨bytes, capacity, _⟩ := buffer
      simp only [Buffer.append, List.append_nil, List.length_nil, Nat.add_zero, Buffer.mk.injEq,
        true_and]
      omega
    simp only [append, hbuffer, List.length_nil, Nat.add_zero]
  | fixed destination =>
    have hdestination : destination.overwrite offset [] = destination := by
      simp [Bytes.overwrite]
    simp only [append, hdestination, List.length_nil, Nat.add_zero]

theorem written_append {src : Bytes} (hw : w.Valid) (h : w.Fits src.length) :
    (w.append src).written = w.written ++ src := by
  obtain ⟨sink, offset⟩ := w
  cases sink with
  | growable buffer start =>
    have hlen : buffer.bytes.length = start + offset := hw
    simp only [written, append, Buffer.append]
    rw [List.drop_append_of_le_length (by omega)]
  | fixed destination => exact Bytes.take_overwrite ((fits_fixed hw).mp h)

end Writer

/-! ## Local writes -/

namespace Write

/-- What a write answers on an empty buffer, with the bytes it puts there. -/
def output (write : WriteM α) : Except CodecError (α × Bytes) :=
  match write (.growable .empty) with
  | .ok a w => .ok (a, w.written)
  | .error e _ => .error e

/-- The error of a write that ran out of space. -/
def IsShort (e : CodecError) : Prop :=
  ∃ need available, e = .insufficientSpace need available

/-- The write appends its output to every writer it fits, is refused by any other, and fails where
it fails on an empty buffer. -/
structure Local (write : WriteM α) : Prop where
  ok : ∀ {w a src}, w.Valid → output write = .ok (a, src) → w.Fits src.length →
    write w = .ok a (w.append src)
  short : ∀ {w a src}, w.Valid → output write = .ok (a, src) → ¬ w.Fits src.length →
    ∃ e w', write w = .error e w' ∧ IsShort e
  error : ∀ {w e}, w.Valid → output write = .error e →
    ∃ e' w', write w = .error e' w' ∧ (e' = e ∨ w.space? ≠ none ∧ IsShort e')

section Local

variable {write : WriteM α} {next : α → WriteM β} {w w' : Writer} {a : α} {b : β} {src : Bytes}
variable {e : CodecError}

theorem bind_apply (write : WriteM α) (next : α → WriteM β) (w : Writer) :
    (write >>= next) w = match write w with
      | .ok a w' => next a w'
      | .error e w' => .error e w' := by
  simp only [Bind.bind, EStateM.bind]
  cases write w <;> rfl

@[simp] theorem throw_bind (e : CodecError) (next : α → WriteM β) :
    ((throw e : WriteM α) >>= next) = throw e := rfl

theorem bind_of_ok (h : write w = .ok a w') : (write >>= next) w = next a w' := by
  rw [bind_apply, h]

theorem ok_of_bind (h : (write >>= next) w = .ok b w') :
    ∃ a v, write w = .ok a v ∧ next a v = .ok b w' := by
  rw [bind_apply] at h
  split at h
  · next a v hwrite => exact ⟨a, v, hwrite, h⟩
  · cases h

theorem ok_of_atomic (h : atomic write w = .ok a w') : write w = .ok a w' := by
  rw [atomic] at h
  split at h
  · next hwrite => rw [hwrite, h]
  · cases h

/-- What a local write put into a writer is its output. -/
theorem Local.of_ok (h : Local write) (hw : w.Valid) (hwrite : write w = .ok a w') :
    ∃ src, output write = .ok (a, src) ∧ w.Fits src.length ∧ w' = w.append src := by
  cases hout : output write with
  | ok answer =>
    obtain ⟨a', src⟩ := answer
    by_cases hfits : w.Fits src.length
    · rw [h.ok hw hout hfits] at hwrite
      cases hwrite
      exact ⟨src, rfl, hfits, rfl⟩
    · obtain ⟨e, v, herror, -⟩ := h.short hw hout hfits
      rw [herror] at hwrite
      cases hwrite
  | error e =>
    obtain ⟨e', v, herror, -⟩ := h.error hw hout
    rw [herror] at hwrite
    cases hwrite

theorem growable_fits (buffer : Buffer) (n : Nat) : (Writer.growable buffer).Fits n :=
  Writer.fits_of_space rfl n

theorem output_eq_of_ok
    (h : write (.growable .empty) = .ok a ((Writer.growable .empty).append src)) :
    output write = .ok (a, src) := by
  rw [output, h]
  dsimp only
  rw [Writer.written_append (Writer.valid_growable _) (growable_fits _ _)]
  rfl

theorem output_bind_of_error (h : output write = .error e) :
    output (write >>= next) = .error e := by
  unfold output at *
  rw [bind_apply]
  cases hw : write (.growable .empty) with
  | ok a w => rw [hw] at h; cases h
  | error e' w =>
    rw [hw] at h
    cases h
    rfl

/-- After a write, the next one puts its output behind. -/
theorem output_bind_of_ok (hwrite : Local write) (hnext : Local (next a))
    (h : output write = .ok (a, src)) :
    output (write >>= next) =
      (output (next a)).map fun answer => (answer.1, src ++ answer.2) := by
  have hvalid := Writer.valid_growable .empty
  have hfits := growable_fits .empty src.length
  have hfirst := hwrite.ok hvalid h hfits
  cases hout : output (next a) with
  | ok answer =>
    obtain ⟨b, more⟩ := answer
    apply output_eq_of_ok
    have hmore : ((Writer.growable .empty).append src).Fits more.length :=
      (Writer.fits_append hvalid hfits).mpr (growable_fits _ _)
    rw [bind_of_ok hfirst, hnext.ok (hvalid.append hfits) hout hmore,
      Writer.append_append hvalid hfits]
  | error e =>
    obtain ⟨e', w', herror, rfl | ⟨hspace, -⟩⟩ := hnext.error (hvalid.append hfits) hout
    · rw [output, bind_of_ok hfirst, herror]
      rfl
    · -- a growable buffer does not run out of space
      exact absurd ((Writer.space_append _ _).mpr rfl) hspace

theorem output_bind_eq_ok (hwrite : Local write) (hnext : ∀ a, Local (next a)) :
    output (write >>= next) = .ok (b, src) ↔
      ∃ a first second, output write = .ok (a, first) ∧ output (next a) = .ok (b, second) ∧
        src = first ++ second := by
  constructor
  · intro h
    cases hout : output write with
    | error e => rw [output_bind_of_error hout] at h; cases h
    | ok answer =>
      rw [output_bind_of_ok hwrite (hnext _) hout] at h
      obtain ⟨second, hsecond, hanswer⟩ := ok_of_map h
      cases hanswer
      exact ⟨answer.1, answer.2, second.2, rfl, hsecond, rfl⟩
  · rintro ⟨a, first, second, h₁, h₂, rfl⟩
    rw [output_bind_of_ok hwrite (hnext a) h₁, h₂]
    rfl

/-- A write that does not fit has no unlimited space. -/
theorem space_of_not_fits {n : Nat} (h : ¬ w.Fits n) : w.space? ≠ none :=
  fun hspace => h (Writer.fits_of_space hspace n)

theorem Local.bind (hwrite : Local write) (hnext : ∀ a, Local (next a)) :
    Local (write >>= next) where
  ok {w b src} hw hout hfits := by
    obtain ⟨a, first, second, h₁, h₂, rfl⟩ := (output_bind_eq_ok hwrite hnext).mp hout
    rw [List.length_append] at hfits
    have hfirst : w.Fits first.length := hfits.mono (Nat.le_add_right _ _)
    have hsecond := (Writer.fits_append hw hfirst).mpr hfits
    rw [bind_apply, hwrite.ok hw h₁ hfirst, ← Writer.append_append hw hfirst]
    exact (hnext a).ok (hw.append hfirst) h₂ hsecond
  short {w b src} hw hout hfits := by
    obtain ⟨a, first, second, h₁, h₂, rfl⟩ := (output_bind_eq_ok hwrite hnext).mp hout
    rw [List.length_append] at hfits
    rw [bind_apply]
    -- the space ends in the second output, or already in the first
    by_cases hfirst : w.Fits first.length
    · have hsecond := mt (Writer.fits_append hw hfirst).mp hfits
      rw [hwrite.ok hw h₁ hfirst]
      exact (hnext a).short (hw.append hfirst) h₂ hsecond
    · obtain ⟨e, w', herror, hshort⟩ := hwrite.short hw h₁ hfirst
      exact ⟨e, w', by rw [herror], hshort⟩
  error {w e} hw hout := by
    rw [bind_apply]
    cases h₁ : output write with
    | error e₁ =>
      rw [output_bind_of_error h₁] at hout
      cases hout
      obtain ⟨e', w', herror, he⟩ := hwrite.error hw h₁
      exact ⟨e', w', by rw [herror], he⟩
    | ok answer =>
      obtain ⟨a, first⟩ := answer
      have h₂ : output (next a) = .error e := by
        rw [output_bind_of_ok hwrite (hnext a) h₁] at hout
        exact error_of_map hout
      by_cases hfirst : w.Fits first.length
      · obtain ⟨e', w', herror, he⟩ := (hnext a).error (hw.append hfirst) h₂
        rw [hwrite.ok hw h₁ hfirst]
        exact ⟨e', w', herror, he.imp_right fun h =>
          ⟨mt (Writer.space_append w first).mpr h.1, h.2⟩⟩
      · -- the error of the second write is never met: the first runs out of space before
        obtain ⟨e', w', herror, hshort⟩ := hwrite.short hw h₁ hfirst
        exact ⟨e', w', by rw [herror], .inr ⟨space_of_not_fits hfirst, hshort⟩⟩

theorem local_pure (a : α) : Local (pure a : WriteM α) where
  ok {w a' src} hw hout _ := by
    cases hout
    show EStateM.Result.ok a w = _
    rw [show (Writer.growable .empty).written = [] from rfl, Writer.append_nil hw]
  short _ hout hfits := by
    cases hout
    exact absurd (Writer.fits_zero _) hfits
  error _ hout := by cases hout

theorem local_throw (e : CodecError) : Local (throw e : WriteM α) where
  ok _ hout _ := by cases hout
  short _ hout _ := by cases hout
  error {w e'} _ hout := by
    cases hout
    exact ⟨e, w, rfl, .inl rfl⟩

theorem output_atomic (write : WriteM α) : output (atomic write) = output write := by
  rw [output, output, atomic]
  cases write (.growable .empty) <;> rfl

/-- Writes that do the same to every valid writer are local together. -/
theorem Local.congr {write' : WriteM α} (h : Local write)
    (heq : ∀ {w}, w.Valid → write' w = write w) : Local write' := by
  have hout : output write' = output write := by
    rw [output, output, heq (Writer.valid_growable .empty)]
  constructor
  · intro w a src hw h₁ h₂
    rw [heq hw, h.ok hw (hout ▸ h₁) h₂]
  · intro w a src hw h₁ h₂
    rw [heq hw]
    exact h.short hw (hout ▸ h₁) h₂
  · intro w e hw h₁
    rw [heq hw]
    exact h.error hw (hout ▸ h₁)

theorem Local.atomic (h : Local write) : Local (atomic write) where
  ok hw hout hfits := by
    rw [output_atomic] at hout
    rw [Write.atomic, h.ok hw hout hfits]
  short {w a src} hw hout hfits := by
    rw [output_atomic] at hout
    obtain ⟨e, w', herror, hshort⟩ := h.short hw hout hfits
    exact ⟨e, w'.truncate w.offset, by rw [Write.atomic, herror], hshort⟩
  error {w e} hw hout := by
    rw [output_atomic] at hout
    obtain ⟨e', w', herror, he⟩ := h.error hw hout
    exact ⟨e', w'.truncate w.offset, by rw [Write.atomic, herror], he⟩

theorem Local.each {write : α → WriteM Unit} (h : ∀ a, Local (write a)) (values : List α) :
    Local (each write values) := by
  induction values with
  | nil => exact local_pure ()
  | cons a rest ih => exact (h a).bind fun _ => ih

end Local

/-! ## The writes all others are made of -/

section Values

variable {w : Writer}

theorem get_bind_apply {β : Type} (next : Writer → WriteM β) (w : Writer) :
    ((get : WriteM Writer) >>= next) w = next w w := rfl

theorem ensureSpace_of_fits {need : Nat} (h : w.Fits need) : ensureSpace need w = .ok () w := by
  unfold Writer.Fits at h
  rw [ensureSpace, get_bind_apply]
  split at h
  · next hspace => rw [hspace]; rfl
  · next available hspace =>
      rw [hspace]
      dsimp only
      rw [if_neg (Nat.not_lt.mpr h)]
      rfl

theorem ensureSpace_of_not_fits {need : Nat} (h : ¬ w.Fits need) :
    ∃ e, ensureSpace need w = .error e w ∧ IsShort e := by
  unfold Writer.Fits at h
  split at h
  · exact absurd trivial h
  · next available hspace =>
      refine ⟨_, ?_, need, available, rfl⟩
      rw [ensureSpace, get_bind_apply, hspace]
      dsimp only
      rw [if_pos (Nat.not_le.mp h)]
      rfl

theorem bytes_apply {src : Bytes} (h : w.Fits src.length) :
    bytes src w = .ok () (w.append src) := by
  rw [bytes, bind_apply, ensureSpace_of_fits h]
  rfl

theorem bytes_of_no_space {src : Bytes} {e : CodecError}
    (h : ensureSpace src.length w = .error e w) : bytes src w = .error e w := by
  rw [bytes, bind_apply, h]

@[simp] theorem output_bytes (src : Bytes) : output (bytes src) = .ok ((), src) :=
  output_eq_of_ok (bytes_apply (growable_fits .empty _))

theorem local_bytes (src : Bytes) : Local (bytes src) where
  ok _ hout hfits := by
    rw [output_bytes] at hout
    cases hout
    exact bytes_apply hfits
  short {w a src'} _ hout hfits := by
    rw [output_bytes] at hout
    cases hout
    obtain ⟨e, herror, hshort⟩ := ensureSpace_of_not_fits hfits
    exact ⟨e, w, bytes_of_no_space herror, hshort⟩
  error _ hout := by
    rw [output_bytes] at hout
    cases hout

theorem local_primitive (p : Primitive α) (a : α) : Local (primitive p a) :=
  local_bytes _

@[simp] theorem output_primitive (p : Primitive α) (a : α) :
    output (primitive p a) = .ok ((), p.encode a) :=
  output_bytes _

/-- A string as it is written: its prefix and its bytes at once. -/
theorem text_apply {s : String} {length : Int32} (hw : w.Valid)
    (h : prefix32 (Text.toBytes s).length = .ok length) :
    text s w = bytes (Primitive.i32.encode length ++ Text.toBytes s) w := by
  have hprefixed : (Primitive.i32.encode length).length = 4 := Primitive.length_encode _ _
  have htotal : (Primitive.i32.encode length ++ Text.toBytes s).length =
      4 + (Text.toBytes s).length := by rw [List.length_append, hprefixed]
  have htext : text s = ensureSpace (4 + (Text.toBytes s).length) >>= fun _ =>
      primitive .i32 length >>= fun _ => bytes (Text.toBytes s) := by rw [text, h]
  rw [htext]
  by_cases hfits : w.Fits (4 + (Text.toBytes s).length)
  · -- space for both was checked, so neither of the two is refused
    have hfirst : w.Fits (Primitive.i32.encode length).length :=
      hfits.mono (hprefixed ▸ Nat.le_add_right _ _)
    have hsecond : (w.append (Primitive.i32.encode length)).Fits (Text.toBytes s).length :=
      (Writer.fits_append hw hfirst).mpr (hprefixed ▸ hfits)
    rw [bind_of_ok (ensureSpace_of_fits hfits), primitive, bind_of_ok (bytes_apply hfirst),
      bytes_apply hsecond, Writer.append_append hw hfirst, bytes_apply (htotal ▸ hfits)]
  · -- both are refused for the same total
    obtain ⟨e, herror, -⟩ := ensureSpace_of_not_fits hfits
    rw [bind_apply, herror, bytes_of_no_space (htotal ▸ herror)]

theorem patchI32_apply {pos : Nat} {value : Int32} (h : pos + 4 ≤ w.offset) :
    patchI32 pos value w = .ok () (w.replace pos (Primitive.i32.encode value)) := by
  show (if w.offset < pos + 4 then _ else _ : WriteM Unit) w = _
  rw [if_neg (Nat.not_lt.mpr h)]
  rfl

theorem patchI32_of_lt {pos : Nat} {value : Int32} (h : w.offset < pos + 4) :
    patchI32 pos value w = .error (.invalidSeek pos w.offset) w := by
  show (if w.offset < pos + 4 then _ else _ : WriteM Unit) w = _
  rw [if_pos h]
  rfl

theorem local_count (n : Nat) : Local (count n) := by
  unfold count
  split
  · exact local_primitive _ _
  · exact local_throw _

theorem local_text (s : String) : Local (text s) := by
  cases h : prefix32 (Text.toBytes s).length with
  | ok length => exact (local_bytes _).congr fun hw => text_apply hw h
  | error e =>
    have hthrow : text s = throw e := by rw [text, h]
    rw [hthrow]
    exact local_throw e

theorem local_nullableText (s : Option String) : Local (nullableText s) := by
  cases s with
  | some s => exact local_text s
  | none => exact local_primitive _ _

end Values

end Write

end ChatCodec
