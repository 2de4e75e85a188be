import ChatCodec.Proofs.Reading.Layouts
import ChatCodec.Proofs.RoundTrip.Takes
import ChatCodec.Proofs.Writing.Layouts

/-!
# Values come back

What is written by a layout is read back by it, whatever follows on the wire. Two kinds of values do
not come back: an error code that spells the wire value of another one, and a list with too many
elements that take no bytes.

* `Layout.Recoverable` — neither of the two occurs in the value;
* `Layout.isPlain` — a layout all of whose values are recoverable.

Main results: `Layout.length_output` — a value takes the bytes its size says, and
`Layout.takes_read` — a recoverable value comes back.
-/

namespace ChatCodec

open Write (output)

variable {α β : Type}

/-! ## Collections

A collection with one more element at its end is the collection with that element inserted.
-/

namespace FiniteSet

variable {s s' final : FiniteSet α} {a : α} {rest : List α}

theorem eq_of_elements (h : s.elements = s'.elements) : s = s' := by
  cases s
  cases s'
  simpa using h

theorem insert?_of_concat [DecidableEq α] (h : s'.elements = s.elements ++ [a]) :
    s.insert? a = some s' := by
  -- the larger set has no repetition, so the new element is not in the smaller one
  have hnot : a ∉ s.elements := by
    have hnodup := s'.nodup
    rw [h, List.nodup_append] at hnodup
    exact fun hmem => hnodup.2.2 a hmem a List.mem_cons_self rfl
  rw [insert?, dif_neg hnot]
  exact congrArg some (eq_of_elements h.symm)

theorem exists_concat (h : final.elements = s.elements ++ a :: rest) :
    ∃ s' : FiniteSet α, s'.elements = s.elements ++ [a] := by
  have hnodup := final.nodup
  rw [h, ← List.singleton_append, ← List.append_assoc] at hnodup
  exact ⟨⟨_, (List.nodup_append.mp hnodup).1⟩, rfl⟩

end FiniteSet

namespace FiniteMap

variable {κ ν : Type} {m m' final : FiniteMap κ ν} {e : κ × ν} {rest : List (κ × ν)}

theorem eq_of_entries (h : m.entries = m'.entries) : m = m' := by
  cases m
  cases m'
  simpa using h

theorem insert?_of_concat [DecidableEq κ] (h : m'.entries = m.entries ++ [e]) :
    m.insert? e.1 e.2 = some m' := by
  have hnot : e.1 ∉ m.entries.map Prod.fst := by
    have hnodup := m'.nodup
    rw [h, List.map_append, List.nodup_append] at hnodup
    exact fun hmem => hnodup.2.2 e.1 hmem e.1 List.mem_cons_self rfl
  rw [insert?, dif_neg hnot]
  exact congrArg some (eq_of_entries h.symm)

theorem exists_concat (h : final.entries = m.entries ++ e :: rest) :
    ∃ m' : FiniteMap κ ν, m'.entries = m.entries ++ [e] := by
  have hnodup := final.nodup
  rw [h, ← List.singleton_append, ← List.append_assoc, List.map_append] at hnodup
  exact ⟨⟨_, (List.nodup_append.mp hnodup).1⟩, rfl⟩

end FiniteMap

namespace OrderedMap

variable {κ ν : Type} [Ord κ] {m m' final : OrderedMap κ ν} {e : κ × ν}
variable {entries rest : List (κ × ν)}

theorem eq_of_entries (h : m.entries = m'.entries) : m = m' := by
  cases m
  cases m'
  simpa using h

/-- The largest key is placed at the end. -/
theorem place?_of_concat [Std.TransOrd κ]
    (h : ((entries ++ [e]).map Prod.fst).Pairwise (compare · · = .lt)) :
    place? e.1 e.2 entries = some (entries ++ [e]) := by
  induction entries with
  | nil => rfl
  | cons entry entries ih =>
    rw [List.cons_append, List.map_cons, List.pairwise_cons] at h
    have hlt : compare entry.1 e.1 = .lt := h.1 e.1 (by simp)
    rw [place?, Std.OrientedCmp.gt_of_lt hlt, ih h.2]
    rfl

theorem insert?_of_concat [Std.TransOrd κ] (h : m'.entries = m.entries ++ [e]) :
    m.insert? e.1 e.2 = some m' := by
  have hplace : place? e.1 e.2 m.entries = some m'.entries := by
    have hincreasing := m'.increasing
    rw [h] at hincreasing ⊢
    exact place?_of_concat hincreasing
  unfold insert?
  split
  · next entries heq =>
      rw [hplace] at heq
      cases heq
      rfl
  · next heq =>
      rw [hplace] at heq
      cases heq

theorem exists_concat (h : final.entries = m.entries ++ e :: rest) :
    ∃ m' : OrderedMap κ ν, m'.entries = m.entries ++ [e] := by
  have hincreasing := final.increasing
  rw [h, ← List.singleton_append, ← List.append_assoc, List.map_append,
    List.pairwise_append] at hincreasing
  exact ⟨⟨_, hincreasing.1⟩, rfl⟩

end OrderedMap

namespace Layout

/-! ## Sizes -/

theorem length_output_text {s : String} {src : Bytes}
    (h : output (Write.text s) = .ok ((), src)) : src.length = 4 + s.utf8ByteSize := by
  obtain ⟨length, -, rfl⟩ := Write.output_text_eq_ok h
  rw [List.length_append, Primitive.length_encode, Text.length_toBytes]
  rfl

/-- The output of a counted collection is its count and then its elements. -/
theorem output_counted {write : α → WriteM Unit} {values : List α} {src : Bytes}
    (hwrite : ∀ a, Write.Local (write a))
    (h : output (Write.atomic do
      Write.count values.length
      Write.each write values) = .ok ((), src)) :
    ∃ length more, Write.prefix32 values.length = .ok length ∧
      output (Write.each write values) = .ok ((), more) ∧
      src = Primitive.i32.encode length ++ more := by
  rw [Write.output_atomic] at h
  obtain ⟨_, first, more, h₁, h₂, rfl⟩ := (Write.output_bind_eq_ok (Write.local_count _)
    fun _ => Write.Local.each hwrite values).mp h
  obtain ⟨length, hprefixed, rfl⟩ := Write.output_count_eq_ok h₁
  exact ⟨length, more, hprefixed, h₂, rfl⟩

theorem length_output_counted {write : α → WriteM Unit} {size : α → Nat} {values : List α}
    {src : Bytes} (hwrite : ∀ a, Write.Local (write a))
    (hsize : ∀ a src, output (write a) = .ok ((), src) → src.length = size a)
    (h : output (Write.atomic do
      Write.count values.length
      Write.each write values) = .ok ((), src)) :
    src.length = 4 + totalSize (values.map size) := by
  obtain ⟨length, more, -, hmore, rfl⟩ := output_counted hwrite h
  have heach : more.length = totalSize (values.map size) := by
    clear h
    induction values generalizing more with
    | nil =>
      cases hmore
      rfl
    | cons a values ih =>
      obtain ⟨first, rest, h₁, h₂, rfl⟩ := Read.output_each_cons hwrite hmore
      rw [List.length_append, hsize a first h₁, ih rest h₂, List.map_cons, totalSize]
  rw [List.length_append, heach, Primitive.length_encode]
  rfl

section Entries

variable {κ ν : Type} (key : Layout κ) (value : Layout ν)

/-- An entry of a map is written as its key and then its value. -/
theorem local_writeEntry (e : κ × ν) : Write.Local (do key.write e.1; value.write e.2) :=
  (key.local_write e.1).bind fun _ => value.local_write e.2

variable {key value}

theorem output_entry {e : κ × ν} {src : Bytes}
    (h : output (do key.write e.1; value.write e.2) = .ok ((), src)) :
    ∃ src₁ src₂, output (key.write e.1) = .ok ((), src₁) ∧
      output (value.write e.2) = .ok ((), src₂) ∧ src = src₁ ++ src₂ := by
  obtain ⟨_, src₁, src₂, h₁, h₂, rfl⟩ := (Write.output_bind_eq_ok (key.local_write e.1)
    fun _ => value.local_write e.2).mp h
  exact ⟨src₁, src₂, h₁, h₂, rfl⟩

end Entries

/-- A value takes the bytes its size says. -/
theorem length_output (layout : Layout α) {v : α} {src : Bytes}
    (h : output (layout.write v) = .ok ((), src)) : src.length = layout.size v := by
  induction layout generalizing src with
  | primitive p =>
    rw [write, Write.output_primitive] at h
    cases h
    exact p.length_encode v
  | text => exact length_output_text h
  | nullableText =>
    cases v with
    | some s => exact length_output_text h
    | none =>
      rw [write, Write.nullableText, Write.output_primitive] at h
      cases h
      rfl
  | empty =>
    cases h
    rfl
  | errorCode | enumeration =>
    rw [write, Write.output_primitive] at h
    cases h
    rfl
  | pair first second ihFirst ihSecond =>
    rw [write, Write.output_atomic] at h
    obtain ⟨src₁, src₂, h₁, h₂, rfl⟩ := output_entry h
    rw [List.length_append, ihFirst h₁, ihSecond h₂, size]
  | record shape fields ih => exact ih h
  | list element ih =>
    exact length_output_counted element.local_write (fun _ _ => ih) h
  | set element ih =>
    exact length_output_counted element.local_write (fun _ _ => ih) h
  | map key value ihKey ihValue | orderedMap key value ihKey ihValue =>
    refine length_output_counted (local_writeEntry key value) (fun e src h => ?_) h
    obtain ⟨src₁, src₂, h₁, h₂, rfl⟩ := output_entry h
    rw [List.length_append, ihKey h₁, ihValue h₂]

theorem minSize_le_size (layout : Layout α) (v : α) : layout.minSize ≤ layout.size v := by
  induction layout with
  | primitive | empty | errorCode | enumeration => exact Nat.le_refl _
  | text | nullableText | list | set | map | orderedMap => exact Nat.le_add_right 4 _
  | pair first second ihFirst ihSecond => exact Nat.add_le_add (ihFirst v.1) (ihSecond v.2)
  | record shape fields ih => exact ih (shape.toTuple v)

theorem minSize_le_length (layout : Layout α) {v : α} {src : Bytes}
    (h : output (layout.write v) = .ok ((), src)) : layout.minSize ≤ src.length :=
  layout.length_output h ▸ layout.minSize_le_size v

/-- A type whose values may take no bytes has at most one value. -/
theorem eq_of_minSize_eq_zero (layout : Layout α) (h : layout.minSize = 0) (a b : α) : a = b := by
  induction layout with
  | primitive p => exact absurd h (Nat.ne_of_gt p.size_pos)
  | empty => rfl
  | text | nullableText | errorCode | enumeration | list | set | map | orderedMap =>
    rw [minSize] at h
    omega
  | pair first second ihFirst ihSecond =>
    rw [minSize, Nat.add_eq_zero_iff] at h
    exact Prod.ext (ihFirst h.1 _ _) (ihSecond h.2 _ _)
  | record shape fields ih =>
    rw [← shape.ofTuple_toTuple a, ← shape.ofTuple_toTuple b,
      ih h (shape.toTuple a) (shape.toTuple b)]

/-! ## Values that come back -/

/-- No error code in the value spells the wire value of another one, and no list has too many
elements that take no bytes. -/
def Recoverable : {α : Type} → Layout α → α → Prop
  | _, primitive _, _ | _, text, _ | _, nullableText, _ | _, empty, _ | _, enumeration _, _ => True
  | _, errorCode, code => ErrorCode.ofInt8 code.toInt8 = code
  | _, pair first second, v => first.Recoverable v.1 ∧ second.Recoverable v.2
  | _, record shape fields, v => fields.Recoverable (shape.toTuple v)
  | _, list element, v =>
    (element.minSize = 0 → v.length ≤ Read.maxEmptyElements) ∧ ∀ a ∈ v, element.Recoverable a
  | _, set element, v => ∀ a ∈ v.elements, element.Recoverable a
  | _, map key value, v | _, orderedMap key value, v =>
    ∀ e ∈ v.entries, key.Recoverable e.1 ∧ value.Recoverable e.2

/-- All values are recoverable: there are no error codes, and lists have elements of some size. -/
def isPlain : {α : Type} → Layout α → Bool
  | _, primitive _ | _, text | _, nullableText | _, empty | _, enumeration _ => true
  | _, errorCode => false
  | _, pair first second => first.isPlain && second.isPlain
  | _, record _ fields => fields.isPlain
  | _, list element => element.minSize != 0 && element.isPlain
  | _, set element => element.isPlain
  | _, map key value | _, orderedMap key value => key.isPlain && value.isPlain

theorem recoverable_of_isPlain (layout : Layout α) (h : layout.isPlain = true) (v : α) :
    layout.Recoverable v := by
  induction layout with
  | primitive | text | nullableText | empty | enumeration => trivial
  | errorCode => cases h
  | pair first second ihFirst ihSecond =>
    rw [isPlain, Bool.and_eq_true] at h
    exact ⟨ihFirst h.1 v.1, ihSecond h.2 v.2⟩
  | record shape fields ih => exact ih h _
  | list element ih =>
    rw [isPlain, Bool.and_eq_true, bne_iff_ne] at h
    exact ⟨fun hzero => absurd hzero h.1, fun a _ => ih h.2 a⟩
  | set element ih => exact fun a _ => ih h a
  | map key value ihKey ihValue | orderedMap key value ihKey ihValue =>
    rw [isPlain, Bool.and_eq_true] at h
    exact fun e _ => ⟨ihKey h.1 e.1, ihValue h.2 e.2⟩

/-- A list without repetition over a type with one value has at most one element. -/
theorem length_le_of_nodup {values : List α} (hnodup : values.Nodup) (heq : ∀ a b : α, a = b) :
    values.length ≤ Read.maxEmptyElements := by
  match values, hnodup with
  | [], _ => exact Nat.zero_le _
  | [_], _ => exact Nat.le_of_ble_eq_true rfl
  | a :: b :: _, hnodup =>
    rw [List.nodup_cons] at hnodup
    exact absurd (heq b a ▸ List.mem_cons_self) hnodup.1

section Counted

open Read

variable {σ : Type} {write : α → WriteM Unit} {values : List α} {minSize : Nat} {src : Bytes}

/-- A counted list comes back element by element. -/
theorem takes_list {normal : α → β} {read : ReadM β} (hwrite : ∀ a, Write.Local (write a))
    (hread : Local read) (hmin : ∀ a src, output (write a) = .ok ((), src) → minSize ≤ src.length)
    (hfew : minSize = 0 → values.length ≤ maxEmptyElements)
    (htakes : ∀ a ∈ values, ∀ src, output (write a) = .ok ((), src) →
      src.length < UInt64.size → Takes read src (normal a))
    (h : output (Write.atomic do
      Write.count values.length
      Write.each write values) = .ok ((), src)) (hsmall : src.length < UInt64.size) :
    Takes (Read.atomic do
      let n ← Read.count minSize
      Read.times read n) src (values.map normal) := by
  obtain ⟨length, more, hprefixed, hmore, rfl⟩ := output_counted hwrite h
  rw [List.length_append] at hsmall
  have hsize := length_output_each hwrite (fun a _ => hmin a) hmore
  have htimes := takes_times hwrite hread htakes hmore (by omega)
  exact Takes.atomic (takes_counted hprefixed hread.times hsize hfew (by omega) htimes)

/-- A counted collection comes back if each step takes one more element of it. -/
theorem takes_collection {step : σ → ReadM σ} {start final : σ} (contents : σ → List α)
    (hwrite : ∀ a, Write.Local (write a)) (hstep : ∀ s, Local (step s))
    (hinj : ∀ s s', contents s = contents s' → s = s')
    (hsplit : ∀ s final a rest, contents final = contents s ++ a :: rest →
      ∃ s', contents s' = contents s ++ [a])
    (hstart : contents start = [])
    (hmin : ∀ a src, output (write a) = .ok ((), src) → minSize ≤ src.length)
    (hfew : minSize = 0 → (contents final).length ≤ maxEmptyElements)
    (htakes : ∀ s s' a src, a ∈ contents final → contents s' = contents s ++ [a] →
      output (write a) = .ok ((), src) → src.length < UInt64.size → Takes (step s) src s')
    (h : output (Write.atomic do
      Write.count (contents final).length
      Write.each write (contents final)) = .ok ((), src)) (hsmall : src.length < UInt64.size) :
    Takes (Read.atomic do
      let n ← Read.count minSize
      Read.iterate step n start) src final := by
  obtain ⟨length, more, hprefixed, hmore, rfl⟩ := output_counted hwrite h
  rw [List.length_append] at hsmall
  have hsize := length_output_each hwrite (fun a _ => hmin a) hmore
  have hfinal : contents final = contents start ++ contents final := by
    rw [hstart, List.nil_append]
  have hiterate := takes_iterate contents hwrite hstep hinj hsplit htakes hfinal hmore (by omega)
  exact Takes.atomic (takes_counted hprefixed (fun n => Local.iterate hstep n _) hsize hfew
    (by omega) hiterate)

end Counted

section Maps

open Read

variable {κ ν μ : Type} {key : Layout κ} {value : Layout ν} {insert? : μ → κ → ν → Option μ}
variable {empty final : μ} {src : Bytes}

/-- An entry takes the least size of its key and that of its value. -/
theorem minSize_le_length_entry {e : κ × ν}
    (h : output (do key.write e.1; value.write e.2) = .ok ((), src)) :
    key.minSize + value.minSize ≤ src.length := by
  obtain ⟨src₁, src₂, h₁, h₂, rfl⟩ := output_entry h
  rw [List.length_append]
  exact Nat.add_le_add (key.minSize_le_length h₁) (value.minSize_le_length h₂)

/-- What is left to do once the key of an entry is read. -/
theorem local_readValue (value : Layout ν) (insert? : μ → κ → ν → Option μ) (m : μ) (k : κ) :
    Local (do
      let v ← value.read
      orDuplicate .map (insert? m k v)) :=
  value.clean_read.local.bind fun _ => local_orDuplicate _ _

theorem local_readEntry (key : Layout κ) (value : Layout ν) (insert? : μ → κ → ν → Option μ)
    (m : μ) : Local (do
      let k ← key.read
      let v ← value.read
      orDuplicate .map (insert? m k v)) :=
  key.clean_read.local.bind (local_readValue value insert? m)

/-- Entries without bytes are few: all their keys are the same one. -/
theorem length_le_of_empty_entries {entries : List (κ × ν)} (hnodup : (entries.map Prod.fst).Nodup)
    (h : key.minSize + value.minSize = 0) : entries.length ≤ maxEmptyElements := by
  rw [← List.length_map Prod.fst]
  exact length_le_of_nodup hnodup (key.eq_of_minSize_eq_zero (Nat.add_eq_zero_iff.mp h).1)

/-- One entry is taken if it is new to the map. -/
theorem takes_entry {m m' : μ} {e : κ × ν} (hinsert : insert? m e.1 e.2 = some m')
    (hkey : ∀ src, output (key.write e.1) = .ok ((), src) → src.length < UInt64.size →
      Takes key.read src e.1)
    (hvalue : ∀ src, output (value.write e.2) = .ok ((), src) → src.length < UInt64.size →
      Takes value.read src e.2)
    (h : output (do key.write e.1; value.write e.2) = .ok ((), src))
    (hsmall : src.length < UInt64.size) :
    Takes (do
      let k ← key.read
      let v ← value.read
      orDuplicate .map (insert? m k v)) src m' := by
  obtain ⟨src₁, src₂, h₁, h₂, rfl⟩ := output_entry h
  rw [List.length_append] at hsmall
  refine (hkey src₁ h₁ (by omega)).bind key.clean_read.local
    (local_readValue value insert? m e.1) ?_
  refine (hvalue src₂ h₂ (by omega)).bind_last value.clean_read.local (local_orDuplicate _ _) ?_
  rw [hinsert]
  exact takes_pure m'

/-- Any kind of map comes back that grows by inserting entries at its end. -/
theorem takes_map (entries : μ → List (κ × ν))
    (hinj : ∀ m m', entries m = entries m' → m = m')
    (hsplit : ∀ m final e rest, entries final = entries m ++ e :: rest →
      ∃ m', entries m' = entries m ++ [e])
    (hinsert : ∀ m m' e, entries m' = entries m ++ [e] → insert? m e.1 e.2 = some m')
    (hempty : entries empty = []) (hnodup : ((entries final).map Prod.fst).Nodup)
    (hkey : ∀ e ∈ entries final, ∀ src, output (key.write e.1) = .ok ((), src) →
      src.length < UInt64.size → Takes key.read src e.1)
    (hvalue : ∀ e ∈ entries final, ∀ src, output (value.write e.2) = .ok ((), src) →
      src.length < UInt64.size → Takes value.read src e.2)
    (h : output (Write.atomic do
      Write.count (entries final).length
      Write.each (fun e => do key.write e.1; value.write e.2) (entries final)) = .ok ((), src))
    (hsmall : src.length < UInt64.size) :
    Takes (Read.atomic do
      let n ← Read.count (key.minSize + value.minSize)
      Read.iterate (fun m => do
        let k ← key.read
        let v ← value.read
        orDuplicate .map (insert? m k v)) n empty) src final :=
  takes_collection entries (local_writeEntry key value) (local_readEntry key value insert?) hinj
    hsplit hempty (fun _ _ => minSize_le_length_entry) (length_le_of_empty_entries hnodup)
    (fun m m' e _ he hm' => takes_entry (hinsert m m' e hm') (hkey e he) (hvalue e he)) h hsmall

end Maps

/-- Increasing keys are distinct. -/
theorem nodup_of_increasing {κ ν : Type} [Ord κ] [Std.TransOrd κ] (m : OrderedMap κ ν) :
    (m.entries.map Prod.fst).Nodup := by
  refine m.increasing.imp fun {k k'} hlt heq => ?_
  have hself : compare k' k' = .eq := Std.ReflCmp.compare_self
  rw [heq, hself] at hlt
  cases hlt

open Read in
/-- A recoverable value comes back, whatever follows it. -/
theorem takes_read (layout : Layout α) {v : α} {src : Bytes} (hv : layout.Recoverable v)
    (h : output (layout.write v) = .ok ((), src)) (hsmall : src.length < UInt64.size) :
    Takes layout.read src v := by
  -- each part of the output is shorter than the whole, so the bound on the length goes along
  induction layout generalizing src with
  | primitive p =>
    rw [write, Write.output_primitive] at h
    cases h
    exact takes_primitive p v
  | text => exact takes_requiredText h
  | nullableText => exact takes_nullableText h
  | empty =>
    cases h
    exact takes_pure ()
  | errorCode =>
    rw [write, Write.output_primitive] at h
    cases h
    have hread := (takes_primitive .i8 v.toInt8).map (parses_primitive _).local ErrorCode.ofInt8
    rwa [show ErrorCode.ofInt8 v.toInt8 = v from hv] at hread
  | enumeration e =>
    rw [write, Write.output_primitive] at h
    cases h
    refine Takes.atomic ((takes_primitive .u8 _).bind_last (parses_primitive _).local ?_ ?_) <;>
      rw [e.ofByte?_toByte]
    · exact (parses_pure v).local
    · exact takes_pure v
  | pair first second ihFirst ihSecond =>
    rw [write, Write.output_atomic] at h
    obtain ⟨src₁, src₂, h₁, h₂, rfl⟩ := output_entry h
    rw [List.length_append] at hsmall
    have hfirst := ihFirst hv.1 h₁ (by omega)
    have hsecond := ihSecond hv.2 h₂ (by omega)
    refine Takes.atomic (hfirst.bind first.clean_read.local
      (second.clean_read.local.bind_pure _) ?_)
    exact hsecond.bind_pure second.clean_read.local _
  | record shape fields ih =>
    have hread := (ih hv h hsmall).map fields.clean_read.local shape.ofTuple
    rwa [shape.ofTuple_toTuple] at hread
  | list element ih =>
    have hread := takes_list element.local_write element.clean_read.local
      (fun _ _ => element.minSize_le_length) hv.1 (fun a ha _ => ih (hv.2 a ha)) h hsmall
    rwa [List.map_id'] at hread
  | set element ih =>
    have hstep (s : FiniteSet _) : Local (do orDuplicate .set (s.insert? (← element.read))) :=
      element.clean_read.local.bind fun a => local_orDuplicate _ _
    have hfew (hmin : element.minSize = 0) : v.elements.length ≤ maxEmptyElements :=
      length_le_of_nodup v.nodup (element.eq_of_minSize_eq_zero hmin)
    refine takes_collection FiniteSet.elements element.local_write hstep
      (fun _ _ => FiniteSet.eq_of_elements) (fun _ _ _ _ => FiniteSet.exists_concat) rfl
      (fun _ _ => element.minSize_le_length) hfew ?_ h hsmall
    -- one element is taken, and it is new to the set
    intro s s' a src ha hs' hsrc hlt
    refine (ih (hv a ha) hsrc hlt).bind_last element.clean_read.local (local_orDuplicate _ _) ?_
    rw [FiniteSet.insert?_of_concat hs']
    exact takes_pure s'
  | map key value ihKey ihValue =>
    exact takes_map FiniteMap.entries (fun _ _ => FiniteMap.eq_of_entries)
      (fun _ _ _ _ => FiniteMap.exists_concat) (fun _ _ _ => FiniteMap.insert?_of_concat) rfl
      v.nodup (fun e he _ => ihKey (hv e he).1) (fun e he _ => ihValue (hv e he).2) h hsmall
  | orderedMap key value ihKey ihValue =>
    exact takes_map OrderedMap.entries (fun _ _ => OrderedMap.eq_of_entries)
      (fun _ _ _ _ => OrderedMap.exists_concat) (fun _ _ _ => OrderedMap.insert?_of_concat) rfl
      (nodup_of_increasing v) (fun e he _ => ihKey (hv e he).1)
      (fun e he _ => ihValue (hv e he).2) h hsmall

end Layout

end ChatCodec
