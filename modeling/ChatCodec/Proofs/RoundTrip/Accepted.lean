import ChatCodec.Proofs.RoundTrip.Layouts

/-!
# Which values can be written

A writer with space enough refuses a value for one reason only: some string or collection in it is
too long for a 32-bit prefix. In particular it does not mind any number of elements that take no
bytes, although a reader does.

* `Write.Accepted` — the write succeeds where space does not run out;
* `Layout.LengthsFit` — every length and count in the value fits its prefix.

Main result: `Layout.accepted_iff`.
-/

namespace ChatCodec

variable {α : Type}

namespace Write

/-- The write succeeds on a buffer, which grows as it has to. -/
def Accepted (write : WriteM Unit) : Prop :=
  ∃ src, output write = .ok ((), src)

section Accepted

variable {write next : WriteM Unit}

/-- What one buffer accepts every buffer accepts, whatever it holds already. -/
theorem Local.accepted_iff (h : Local write) (buffer : Buffer) :
    (∃ w, write (.growable buffer) = .ok () w) ↔ Accepted write := by
  have hvalid := Writer.valid_growable buffer
  constructor
  · rintro ⟨w, hwrite⟩
    obtain ⟨src, hout, -, -⟩ := h.of_ok hvalid hwrite
    exact ⟨src, hout⟩
  · rintro ⟨src, hout⟩
    exact ⟨_, h.ok hvalid hout (growable_fits buffer _)⟩

theorem accepted_atomic : Accepted (atomic write) ↔ Accepted write := by
  rw [Accepted, output_atomic, Accepted]

theorem accepted_bind (hwrite : Local write) (hnext : Local next) :
    Accepted (write >>= fun _ => next) ↔ Accepted write ∧ Accepted next := by
  constructor
  · rintro ⟨src, hout⟩
    obtain ⟨_, first, second, h₁, h₂, -⟩ := (output_bind_eq_ok hwrite fun _ => hnext).mp hout
    exact ⟨⟨first, h₁⟩, ⟨second, h₂⟩⟩
  · rintro ⟨⟨first, h₁⟩, ⟨second, h₂⟩⟩
    exact ⟨_, (output_bind_eq_ok hwrite fun _ => hnext).mpr ⟨(), first, second, h₁, h₂, rfl⟩⟩

theorem accepted_primitive (p : Primitive α) (a : α) : Accepted (primitive p a) :=
  ⟨_, output_primitive p a⟩

/-- A prefix holds the numbers up to the largest one. -/
theorem exists_prefix32 {n : Nat} : (∃ length, prefix32 n = .ok length) ↔ n ≤ maxPrefix := by
  unfold prefix32
  split <;> simp_all

theorem accepted_count {n : Nat} : Accepted (count n) ↔ n ≤ maxPrefix := by
  rw [← exists_prefix32]
  constructor
  · rintro ⟨src, hout⟩
    obtain ⟨length, hprefixed, -⟩ := output_count_eq_ok hout
    exact ⟨length, hprefixed⟩
  · rintro ⟨length, hprefixed⟩
    rw [count, hprefixed]
    exact accepted_primitive .i32 length

theorem accepted_text {s : String} : Accepted (text s) ↔ s.utf8ByteSize ≤ maxPrefix := by
  rw [← Text.length_toBytes, ← exists_prefix32]
  constructor
  · rintro ⟨src, hout⟩
    obtain ⟨length, hprefixed, -⟩ := output_text_eq_ok hout
    exact ⟨length, hprefixed⟩
  · rintro ⟨length, hprefixed⟩
    exact ⟨_, output_text hprefixed⟩

theorem accepted_each {write : α → WriteM Unit} (hwrite : ∀ a, Local (write a)) {values : List α} :
    Accepted (each write values) ↔ ∀ a ∈ values, Accepted (write a) := by
  induction values with
  | nil =>
    have hnil : Accepted (each write []) := ⟨[], rfl⟩
    simp [hnil]
  | cons a values ih =>
    rw [List.forall_mem_cons, ← ih]
    exact accepted_bind (hwrite a) (Local.each hwrite values)

/-- A collection is accepted if its count and all of its elements are. -/
theorem accepted_counted {write : α → WriteM Unit} (hwrite : ∀ a, Local (write a))
    {values : List α} :
    Accepted (atomic do
      count values.length
      each write values) ↔ values.length ≤ maxPrefix ∧ ∀ a ∈ values, Accepted (write a) := by
  rw [accepted_atomic, accepted_bind (local_count _) (Local.each hwrite values), accepted_count,
    accepted_each hwrite]

end Accepted

end Write

namespace Layout

open Write

/-- Every string and every collection in the value is short enough for its prefix. -/
def LengthsFit : {α : Type} → Layout α → α → Prop
  | _, primitive _, _ | _, empty, _ | _, errorCode, _ | _, enumeration _, _ => True
  | _, text, s => s.utf8ByteSize ≤ maxPrefix
  | _, nullableText, s => ∀ content, s = some content → content.utf8ByteSize ≤ maxPrefix
  | _, pair first second, v => first.LengthsFit v.1 ∧ second.LengthsFit v.2
  | _, record shape fields, v => fields.LengthsFit (shape.toTuple v)
  | _, list element, v => v.length ≤ maxPrefix ∧ ∀ a ∈ v, element.LengthsFit a
  | _, set element, v => v.elements.length ≤ maxPrefix ∧ ∀ a ∈ v.elements, element.LengthsFit a
  | _, map key value, v | _, orderedMap key value, v =>
    v.entries.length ≤ maxPrefix ∧ ∀ e ∈ v.entries, key.LengthsFit e.1 ∧ value.LengthsFit e.2

/-- A value can be written just if its lengths fit. -/
theorem accepted_iff (layout : Layout α) (v : α) :
    Accepted (layout.write v) ↔ layout.LengthsFit v := by
  induction layout with
  | primitive | errorCode | enumeration => exact iff_true_intro (accepted_primitive _ _)
  | empty => exact iff_true_intro ⟨[], rfl⟩
  | text => exact accepted_text
  | nullableText =>
    cases v with
    | some s =>
      have htext : Accepted (Write.nullableText (some s)) ↔ s.utf8ByteSize ≤ maxPrefix :=
        accepted_text
      simp [write, LengthsFit, htext]
    | none =>
      have hnull : Accepted (Write.nullableText none) := accepted_primitive .i32 _
      simp [write, LengthsFit, hnull]
  | pair first second ihFirst ihSecond =>
    rw [write, accepted_atomic, accepted_bind (first.local_write v.1) (second.local_write v.2),
      ihFirst, ihSecond, LengthsFit]
  | record shape fields ih => exact ih (shape.toTuple v)
  | list element ih =>
    rw [write, accepted_counted element.local_write, LengthsFit]
    simp only [ih]
  | set element ih =>
    rw [write, accepted_counted element.local_write, LengthsFit]
    simp only [ih]
  | map key value ihKey ihValue | orderedMap key value ihKey ihValue =>
    -- an entry is accepted if its key and its value are
    have hentry (e : _ × _) : Accepted (do key.write e.1; value.write e.2) ↔
        key.LengthsFit e.1 ∧ value.LengthsFit e.2 := by
      rw [accepted_bind (key.local_write e.1) (value.local_write e.2), ihKey, ihValue]
    rw [write, accepted_counted (local_writeEntry key value), LengthsFit]
    simp only [hentry]

end Layout

end ChatCodec
