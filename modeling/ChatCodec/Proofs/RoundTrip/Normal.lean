import ChatCodec.Proofs.RoundTrip.Distinct

/-!
# Values that come back in a normal form

An error code that spells the byte of another one comes back as that other one, wherever it stands
in a value. All else comes back, but for two things: a list with too many elements that take no
bytes, and a set or map in which two elements or two keys become one, so that what is written
repeats an item and is refused.

* `Layout.withOwnCodes` — the value with each error code replaced by the one its byte stands for;
* `Layout.Readable` — neither of the two things occurs in the value.

A set or map is what its items make when they are inserted in the order of the bytes
(`Gathers.takes`). Main result: `Layout.takes_withOwnCodes`.
-/

namespace ChatCodec

open Write (output)
open Read

variable {α κ ν μ : Type}

/-! ## Items inserted one after another -/

namespace Read.Gathers

variable {step : μ → ReadM μ} {element : ReadM α} {insert? : μ → α → Option μ}
variable {contents : μ → List α} {keyOf : α → κ} {kind : CollectionKind}
variable {m m' empty final : μ} {src : Bytes} {n number minSize : Nat} {items values : List α}
variable {write : α → WriteM Unit} {normal : α → α}

/-- Items whose keys are distinct, and new, all go in. -/
theorem exists_foldlM (h : Gathers step element insert? contents keyOf kind)
    (hnodup : ((contents m ++ items).map keyOf).Nodup) :
    ∃ m', items.foldlM insert? m = some m' := by
  induction items generalizing m with
  | nil => exact ⟨m, rfl⟩
  | cons a items ih =>
    obtain ⟨m', hm'⟩ := h.exists_insert hnodup
    obtain ⟨final, hfinal⟩ := ih (((h.perm_cons hm' items).map keyOf).nodup_iff.mpr hnodup)
    exact ⟨final, by rw [List.foldlM_cons, hm']; exact hfinal⟩

/-- The loop makes of the items it reads what inserting them makes. -/
theorem iterate_of_foldlM (h : Gathers step element insert? contents keyOf kind)
    (hitems : run (times element number) src = .ok (items, n))
    (hfold : items.foldlM insert? m = some m') :
    run (iterate step number m) src = .ok (m', n) := by
  induction number generalizing m src n items with
  | zero =>
    cases hitems
    cases hfold
    rfl
  | succ number ih =>
    obtain ⟨a, k, rest, j, ha, hrest, rfl, rfl⟩ := (run_times_succ h.local_element).mp hitems
    rw [List.foldlM_cons] at hfold
    obtain ⟨middle, hmiddle, hmore⟩ := Option.bind_eq_some_iff.mp hfold
    exact (run_bind_eq_ok (h.local_step m) fun m => Local.iterate h.local_step number m).mpr
      ⟨middle, k, j, h.step_eq_ok.mpr ⟨a, ha, hmiddle⟩, ih hrest hmore, rfl⟩

/-- A counted collection comes back as what the normal forms of its items make. -/
theorem takes (h : Gathers step element insert? contents keyOf kind)
    (hwrite : ∀ a, Write.Local (write a))
    (hmin : ∀ a src, output (write a) = .ok ((), src) → minSize ≤ src.length)
    (hfew : minSize = 0 → values.length ≤ maxEmptyElements)
    (htakes : ∀ a ∈ values, ∀ src, output (write a) = .ok ((), src) →
      src.length < UInt64.size → Takes element src (normal a))
    (hfold : (values.map normal).foldlM insert? empty = some final)
    (hout : output (Write.atomic do
      Write.count values.length
      Write.each write values) = .ok ((), src)) (hsmall : src.length < UInt64.size) :
    Takes (Read.atomic do
      let n ← Read.count minSize
      Read.iterate step n empty) src final := by
  obtain ⟨length, more, hprefixed, hmore, rfl⟩ := Layout.output_counted hwrite hout
  rw [List.length_append] at hsmall
  have hsize := length_output_each hwrite (fun a _ => hmin a) hmore
  have htimes := takes_times hwrite h.local_element htakes hmore (by omega)
  have hiterate : Takes (iterate step values.length empty) more final :=
    fun rest => h.iterate_of_foldlM (htimes rest) hfold
  exact Takes.atomic (takes_counted hprefixed (fun n => Local.iterate h.local_step n _) hsize hfew
    (by omega) hiterate)

end Read.Gathers

/-! ## Normal forms -/

namespace Layout

/-- The value with each error code replaced by the one its byte stands for, in sets and maps too. A
map ordered by key is sorted anew. -/
def withOwnCodes : {α : Type} → Layout α → α → α
  | _, errorCode, code => .ofInt8 code.toInt8
  | _, pair first second, v => (first.withOwnCodes v.1, second.withOwnCodes v.2)
  | _, record shape fields, v => shape.ofTuple (fields.withOwnCodes (shape.toTuple v))
  | _, list element, values => values.map element.withOwnCodes
  -- there is no such set or map where two of the elements or keys become one
  | _, set element, s => (FiniteSet.ofList? (s.elements.map element.withOwnCodes)).getD s
  | _, map key value, m => (FiniteMap.ofList? (m.entries.map fun e =>
    (key.withOwnCodes e.1, value.withOwnCodes e.2))).getD m
  | _, orderedMap key value, m => (OrderedMap.ofList? (m.entries.map fun e =>
    (key.withOwnCodes e.1, value.withOwnCodes e.2))).getD m
  | _, primitive _, v | _, text, v | _, nullableText, v | _, empty, v | _, enumeration _, v => v

/-- No list has too many elements that take no bytes, and no two elements of a set and no two keys
of a map become one. -/
def Readable : {α : Type} → Layout α → α → Prop
  | _, primitive _, _ | _, text, _ | _, nullableText, _ | _, empty, _ => True
  | _, errorCode, _ | _, enumeration _, _ => True
  | _, pair first second, v => first.Readable v.1 ∧ second.Readable v.2
  | _, record shape fields, v => fields.Readable (shape.toTuple v)
  | _, list element, v =>
    (element.minSize = 0 → v.length ≤ maxEmptyElements) ∧ ∀ a ∈ v, element.Readable a
  | _, set element, s =>
    (s.elements.map element.withOwnCodes).Nodup ∧ ∀ a ∈ s.elements, element.Readable a
  | _, map key value, m =>
    (m.entries.map fun e => key.withOwnCodes e.1).Nodup ∧
      ∀ e ∈ m.entries, key.Readable e.1 ∧ value.Readable e.2
  | _, orderedMap key value, m =>
    (m.entries.map fun e => key.withOwnCodes e.1).Nodup ∧
      ∀ e ∈ m.entries, key.Readable e.1 ∧ value.Readable e.2

section Maps

variable {key : Layout κ} {value : Layout ν}

/-- An entry comes back as its key and its value do. -/
theorem takes_normal_entry {e : κ × ν} {src : Bytes}
    (hkey : ∀ src, output (key.write e.1) = .ok ((), src) → src.length < UInt64.size →
      Takes key.read src (key.withOwnCodes e.1))
    (hvalue : ∀ src, output (value.write e.2) = .ok ((), src) → src.length < UInt64.size →
      Takes value.read src (value.withOwnCodes e.2))
    (hout : output (do key.write e.1; value.write e.2) = .ok ((), src))
    (hsmall : src.length < UInt64.size) :
    Takes (key.pair value).read src (key.withOwnCodes e.1, value.withOwnCodes e.2) := by
  obtain ⟨src₁, src₂, h₁, h₂, rfl⟩ := output_entry hout
  rw [List.length_append] at hsmall
  refine Takes.atomic ((hkey src₁ h₁ (by omega)).bind key.clean_read.local
    (value.clean_read.local.bind_pure _) ?_)
  exact (hvalue src₂ h₂ (by omega)).bind_pure value.clean_read.local _

/-- Any kind of map comes back as what the normal forms of its entries make. -/
theorem takes_normal_map {insert? : μ → κ → ν → Option μ} {contents : μ → List (κ × ν)}
    {entries : List (κ × ν)} {src : Bytes}
    (hgathers : Gathers (fun m => do
        let k ← key.read
        let v ← value.read
        orDuplicate .map (insert? m k v))
      (key.pair value).read (fun m e => insert? m e.1 e.2) contents Prod.fst .map)
    (empty : μ) (hempty : contents empty = []) (hdistinct : (entries.map Prod.fst).Nodup)
    (hnodup : (entries.map fun e => key.withOwnCodes e.1).Nodup)
    (hkey : ∀ e ∈ entries, ∀ src, output (key.write e.1) = .ok ((), src) →
      src.length < UInt64.size → Takes key.read src (key.withOwnCodes e.1))
    (hvalue : ∀ e ∈ entries, ∀ src, output (value.write e.2) = .ok ((), src) →
      src.length < UInt64.size → Takes value.read src (value.withOwnCodes e.2))
    (hout : output (Write.atomic do
      Write.count entries.length
      Write.each (fun e => do key.write e.1; value.write e.2) entries) = .ok ((), src))
    (hsmall : src.length < UInt64.size) :
    ∃ final, (entries.map fun e => (key.withOwnCodes e.1, value.withOwnCodes e.2)).foldlM
        (fun m e => insert? m e.1 e.2) empty = some final ∧
      Takes (Read.atomic do
        let n ← Read.count (key.minSize + value.minSize)
        Read.iterate (fun m => do
          let k ← key.read
          let v ← value.read
          orDuplicate .map (insert? m k v)) n empty) src final := by
  have hkeys : ((contents empty ++ entries.map fun e =>
      (key.withOwnCodes e.1, value.withOwnCodes e.2)).map Prod.fst).Nodup := by
    rw [hempty, List.nil_append, List.map_map]
    exact hnodup
  obtain ⟨final, hfinal⟩ := hgathers.exists_foldlM hkeys
  exact ⟨final, hfinal, hgathers.takes (local_writeEntry key value)
    (fun _ _ => minSize_le_length_entry) (length_le_of_empty_entries hdistinct)
    (fun e he _ => takes_normal_entry (hkey e he) (hvalue e he)) hfinal hout hsmall⟩

end Maps

/-- A readable value comes back in its normal form, whatever follows it. -/
theorem takes_withOwnCodes (layout : Layout α) {v : α} {src : Bytes} (hv : layout.Readable v)
    (hout : output (layout.write v) = .ok ((), src)) (hsmall : src.length < UInt64.size) :
    Takes layout.read src (layout.withOwnCodes v) := by
  induction layout generalizing src with
  | primitive p => exact (primitive p).takes_read trivial hout hsmall
  | text => exact text.takes_read trivial hout hsmall
  | nullableText => exact nullableText.takes_read trivial hout hsmall
  | empty => exact empty.takes_read trivial hout hsmall
  | enumeration e => exact (enumeration e).takes_read trivial hout hsmall
  | errorCode =>
    rw [write, Write.output_primitive] at hout
    cases hout
    exact (takes_primitive .i8 v.toInt8).map (parses_primitive _).local ErrorCode.ofInt8
  | pair first second ihFirst ihSecond =>
    rw [write, Write.output_atomic] at hout
    exact takes_normal_entry (fun _ => ihFirst hv.1) (fun _ => ihSecond hv.2) hout hsmall
  | record shape fields ih => exact (ih hv hout hsmall).map fields.clean_read.local shape.ofTuple
  | list element ih =>
    exact takes_list element.local_write element.clean_read.local
      (fun _ _ => element.minSize_le_length) hv.1 (fun a ha _ => ih (hv.2 a ha)) hout hsmall
  | set element ih =>
    have hnodup : ((v.elements.map element.withOwnCodes).map id).Nodup := by
      rw [List.map_id]
      exact hv.1
    obtain ⟨final, hfinal⟩ := (gathers_set element).exists_foldlM (m := .empty) hnodup
    have hnormal : (set element).withOwnCodes v = final := by
      rw [withOwnCodes, FiniteSet.ofList?, hfinal]
      rfl
    rw [hnormal]
    exact (gathers_set element).takes element.local_write (fun _ _ => element.minSize_le_length)
      (fun hmin => length_le_of_nodup v.nodup (element.eq_of_minSize_eq_zero hmin))
      (fun a ha _ => ih (hv.2 a ha)) hfinal hout hsmall
  | map key value ihKey ihValue =>
    obtain ⟨final, hfinal, htakes⟩ := takes_normal_map (gathers_finiteMap key value) .empty rfl
      v.nodup hv.1 (fun e he _ => ihKey (hv.2 e he).1) (fun e he _ => ihValue (hv.2 e he).2) hout
      hsmall
    have hnormal : (map key value).withOwnCodes v = final := by
      rw [withOwnCodes, FiniteMap.ofList?, hfinal]
      rfl
    rw [hnormal]
    exact htakes
  | orderedMap key value ihKey ihValue =>
    obtain ⟨final, hfinal, htakes⟩ := takes_normal_map (gathers_orderedMap key value) .empty
      rfl (nodup_of_increasing v) hv.1 (fun e he _ => ihKey (hv.2 e he).1)
      (fun e he _ => ihValue (hv.2 e he).2) hout hsmall
    have hnormal : (orderedMap key value).withOwnCodes v = final := by
      rw [withOwnCodes, OrderedMap.ofList?, hfinal]
      rfl
    rw [hnormal]
    exact htakes

/-- In a set, a code that spells the byte of another one is the other one, if that is not there. -/
example : (set errorCode).withOwnCodes ⟨[.unknown 11, .success], by decide⟩ =
    ⟨[.roomFull, .success], by decide⟩ := rfl

end Layout

end ChatCodec
