import ChatCodec.Proofs.RoundTrip.Accepted

/-!
# What a reader makes of a value that was written

Any value that is written comes back, unless a list in it has more elements that take no bytes than
a reader believes: such a list is refused for its length, and the value with it. The writer knows
nothing of this limit, so the refusal is seen on the other side only.

* `Layout.HasOwnCodes` — every error code in the value is the one its byte stands for;
* `Layout.overlong?` — the list that is refused, if there is one;
* `Read.Fails` — a read refuses some bytes, whatever follows them.

Main results: `Layout.takes_read_of_none` and `Layout.fails_read` for the two cases, and from them
`Read.value_of_written`.
-/

namespace ChatCodec

open Write (output)

variable {α β σ : Type}

/-! ## Reads that fail on what was written -/

namespace Read

/-- From bytes that begin with `src`, the read fails with the error `e`. -/
def Fails (read : ReadM α) (src : Bytes) (e : CodecError) : Prop :=
  ∀ rest, run read (src ++ rest) = .error e

section Fails

variable {read : ReadM α} {next : α → ReadM β} {src more : Bytes} {a : α} {e : CodecError}

/-- What comes behind the bytes that are refused does not matter. -/
theorem Fails.append (h : Fails read src e) (more : Bytes) : Fails read (src ++ more) e := by
  intro rest
  rw [List.append_assoc]
  exact h (more ++ rest)

theorem Fails.atomic (h : Fails read src e) : Fails (atomic read) src e := by
  intro rest
  rw [run_atomic]
  exact h rest

/-- A failure of the first read is one of the sequence. -/
theorem Fails.bind (h : Fails read src e) (hread : Local read) : Fails (read >>= next) src e := by
  intro rest
  exact run_bind_of_error hread (h rest)

theorem Fails.map (h : Fails read src e) (hread : Local read) (f : α → β) :
    Fails (f <$> read) src e := by
  intro rest
  rw [run_map f hread, h rest]
  rfl

/-- The second read may fail on what the first one left. -/
theorem fails_bind_of (hread : Local read) (hnext : Local (next a))
    (h : ∀ rest, run read (src ++ (more ++ rest)) = .ok (a, src.length))
    (hmore : Fails (next a) more e) : Fails (read >>= next) (src ++ more) e := by
  intro rest
  rw [List.append_assoc, run_bind_of_ok hread hnext (h rest), List.drop_left, hmore rest]
  rfl

theorem Takes.bind_fails (h : Takes read src a) (hread : Local read) (hnext : Local (next a))
    (hmore : Fails (next a) more e) : Fails (read >>= next) (src ++ more) e :=
  fails_bind_of hread hnext (fun rest => h (more ++ rest)) hmore

/-- A count of elements without bytes is refused above the limit. -/
theorem fails_count {n : Nat} {length : Int32} (hprefixed : Write.prefix32 n = .ok length)
    (hmany : maxEmptyElements < n) :
    Fails (count 0) (Primitive.i32.encode length) (.invalidLength (.ofNat n)) := by
  have hlength : length.toInt = n := Write.toInt_of_prefix32 hprefixed
  have heq : length = .ofNat n := by
    unfold Write.prefix32 at hprefixed
    split at hprefixed <;> cases hprefixed
    rfl
  have hpositive : ¬ length < 0 := by
    rw [Int32.lt_iff_toInt_lt, hlength]
    exact Int.not_lt.mpr (Int.natCast_nonneg n)
  have hlimited : maxEmptyElements < length.toInt.toNat := by
    rw [hlength]
    exact hmany
  have hrefused : countOfPrefix 0 length = throw (.invalidLength length) := by
    rw [countOfPrefix, if_neg hpositive]
    dsimp only
    rw [if_pos ⟨rfl, hlimited⟩, throw_bind]
  rw [← heq]
  intro rest
  rw [count, run_atomic, run_bind_of_ok (parses_primitive _).local (local_countOfPrefix _ _)
    (takes_primitive .i32 length rest), hrefused]
  rfl

end Fails

section Elements

variable {write : α → WriteM Unit} {src : Bytes} {bad : α → Option Nat} {n : Nat}

/-- Elements are read up to the first one that is refused. -/
theorem fails_times {read : ReadM α} (hwrite : ∀ a, Write.Local (write a)) (hread : Local read)
    {values : List α}
    (htakes : ∀ a ∈ values, ∀ src, bad a = none → output (write a) = .ok ((), src) →
      src.length < UInt64.size → Takes read src a)
    (hfails : ∀ a ∈ values, ∀ src n, bad a = some n → output (write a) = .ok ((), src) →
      src.length < UInt64.size → Fails read src (.invalidLength (.ofNat n)))
    (hbad : values.findSome? bad = some n) (h : output (Write.each write values) = .ok ((), src))
    (hsmall : src.length < UInt64.size) :
    Fails (times read values.length) src (.invalidLength (.ofNat n)) := by
  induction values generalizing src with
  | nil => cases hbad
  | cons a values ih =>
    obtain ⟨first, rest, h₁, h₂, rfl⟩ := output_each_cons hwrite h
    rw [List.length_append] at hsmall
    have hothers : Local (times read values.length >>= fun rest => pure (a :: rest)) :=
      (hread.times _).bind_pure _
    cases ha : bad a with
    | some m =>
      rw [List.findSome?_cons_of_isSome (by rw [ha]; rfl), ha] at hbad
      cases hbad
      have hfirst := hfails a List.mem_cons_self first n ha h₁ (by omega)
      exact (hfirst.bind hread).append rest
    | none =>
      rw [List.findSome?_cons_of_isNone (by rw [ha]; rfl)] at hbad
      have hfirst := htakes a List.mem_cons_self first ha h₁ (by omega)
      have hrest := ih (fun b hb => htakes b (List.mem_cons_of_mem a hb))
        (fun b hb => hfails b (List.mem_cons_of_mem a hb)) hbad h₂ (by omega)
      exact hfirst.bind_fails hread hothers (hrest.bind (hread.times _))

/-- A collection is built up to the first element that is refused. -/
theorem fails_iterate {step : σ → ReadM σ} (contents : σ → List α)
    (hwrite : ∀ a, Write.Local (write a)) (hstep : ∀ s, Local (step s))
    (hsplit : ∀ s final a rest, contents final = contents s ++ a :: rest →
      ∃ s', contents s' = contents s ++ [a])
    {final : σ}
    (htakes : ∀ s s' a src, a ∈ contents final → contents s' = contents s ++ [a] → bad a = none →
      output (write a) = .ok ((), src) → src.length < UInt64.size → Takes (step s) src s')
    (hfails : ∀ s a src n, a ∈ contents final → bad a = some n →
      output (write a) = .ok ((), src) → src.length < UInt64.size →
        Fails (step s) src (.invalidLength (.ofNat n)))
    {s : σ} {values : List α} (hfinal : contents final = contents s ++ values)
    (hbad : values.findSome? bad = some n) (h : output (Write.each write values) = .ok ((), src))
    (hsmall : src.length < UInt64.size) :
    Fails (iterate step values.length s) src (.invalidLength (.ofNat n)) := by
  -- on the values not yet read, as for a collection that comes back
  induction values generalizing s src with
  | nil => cases hbad
  | cons a values ih =>
    obtain ⟨first, rest, h₁, h₂, rfl⟩ := output_each_cons hwrite h
    rw [List.length_append] at hsmall
    have hmem : a ∈ contents final := by
      rw [hfinal]
      exact List.mem_append_right _ List.mem_cons_self
    cases ha : bad a with
    | some m =>
      rw [List.findSome?_cons_of_isSome (by rw [ha]; rfl), ha] at hbad
      cases hbad
      have hfirst := hfails s a first n hmem ha h₁ (by omega)
      exact (hfirst.bind (hstep s)).append rest
    | none =>
      rw [List.findSome?_cons_of_isNone (by rw [ha]; rfl)] at hbad
      obtain ⟨s', hs'⟩ := hsplit s final a values hfinal
      have hrest : contents final = contents s' ++ values := by
        rw [hs', hfinal, List.append_assoc]
        rfl
      have hfirst := htakes s s' a first hmem hs' ha h₁ (by omega)
      exact hfirst.bind_fails (hstep s) (Local.iterate hstep _ _)
        (ih hrest hbad h₂ (by omega))

/-- A count that is believed leaves it to the elements to be refused. -/
theorem fails_counted {body : Nat → ReadM β} {values : List α} {minSize : Nat} {e : CodecError}
    (hwrite : ∀ a, Write.Local (write a)) (hbody : ∀ n, Local (body n))
    (hmin : ∀ a src, output (write a) = .ok ((), src) → minSize ≤ src.length)
    (hfew : minSize = 0 → values.length ≤ maxEmptyElements)
    (hfails : ∀ more, output (Write.each write values) = .ok ((), more) →
      more.length < UInt64.size → Fails (body values.length) more e)
    (h : output (Write.atomic do
      Write.count values.length
      Write.each write values) = .ok ((), src)) (hsmall : src.length < UInt64.size) :
    Fails (Read.atomic (count minSize >>= body)) src e := by
  obtain ⟨length, more, hprefixed, hmore, rfl⟩ := Layout.output_counted hwrite h
  rw [List.length_append] at hsmall
  have hsize := length_output_each hwrite (fun a _ => hmin a) hmore
  have hlt : more.length < UInt64.size := by omega
  exact Fails.atomic (fails_bind_of (clean_count minSize).local (hbody _)
    (run_count hprefixed hsize hfew hlt) (hfails more hmore hlt))

end Elements

end Read

/-! ## Layouts -/

namespace Layout

open Read

/-- Every error code in the value is the one its byte stands for. -/
def HasOwnCodes : {α : Type} → Layout α → α → Prop
  | _, primitive _, _ | _, text, _ | _, nullableText, _ | _, empty, _ | _, enumeration _, _ => True
  | _, errorCode, code => ErrorCode.ofInt8 code.toInt8 = code
  | _, pair first second, v => first.HasOwnCodes v.1 ∧ second.HasOwnCodes v.2
  | _, record shape fields, v => fields.HasOwnCodes (shape.toTuple v)
  | _, list element, v => ∀ a ∈ v, element.HasOwnCodes a
  | _, set element, v => ∀ a ∈ v.elements, element.HasOwnCodes a
  | _, map key value, v | _, orderedMap key value, v =>
    ∀ e ∈ v.entries, key.HasOwnCodes e.1 ∧ value.HasOwnCodes e.2

/-- The length of a list in the value that has more elements without bytes than a reader accepts: of
the first such list in the order of writing, `none` if there is no such list. -/
def overlong? : {α : Type} → Layout α → α → Option Nat
  | _, primitive _, _ | _, text, _ | _, nullableText, _ | _, empty, _ => none
  | _, errorCode, _ | _, enumeration _, _ => none
  | _, pair first second, v => (first.overlong? v.1).or (second.overlong? v.2)
  | _, record shape fields, v => fields.overlong? (shape.toTuple v)
  | _, list element, v =>
    if element.minSize = 0 ∧ maxEmptyElements < v.length then some v.length
    else v.findSome? element.overlong?
  | _, set element, v => v.elements.findSome? element.overlong?
  | _, map key value, v | _, orderedMap key value, v =>
    v.entries.findSome? fun e => (key.overlong? e.1).or (value.overlong? e.2)

theorem recoverable_of_none (layout : Layout α) {v : α} (hcodes : layout.HasOwnCodes v)
    (h : layout.overlong? v = none) : layout.Recoverable v := by
  induction layout with
  | primitive | text | nullableText | empty | enumeration => trivial
  | errorCode => exact hcodes
  | pair first second ihFirst ihSecond =>
    rw [overlong?, Option.or_eq_none_iff] at h
    exact ⟨ihFirst hcodes.1 h.1, ihSecond hcodes.2 h.2⟩
  | record shape fields ih => exact ih hcodes h
  | list element ih =>
    rw [overlong?] at h
    split at h
    · cases h
    · next hfew =>
      rw [List.findSome?_eq_none_iff] at h
      exact ⟨fun hzero => Nat.le_of_not_lt fun hmany => hfew ⟨hzero, hmany⟩,
        fun a ha => ih (hcodes a ha) (h a ha)⟩
  | set element ih =>
    rw [overlong?, List.findSome?_eq_none_iff] at h
    exact fun a ha => ih (hcodes a ha) (h a ha)
  | map key value ihKey ihValue | orderedMap key value ihKey ihValue =>
    rw [overlong?, List.findSome?_eq_none_iff] at h
    intro e he
    obtain ⟨hkey, hvalue⟩ := Option.or_eq_none_iff.mp (h e he)
    exact ⟨ihKey (hcodes e he).1 hkey, ihValue (hcodes e he).2 hvalue⟩

/-- Without such a list the value comes back. -/
theorem takes_read_of_none (layout : Layout α) {v : α} {src : Bytes}
    (hcodes : layout.HasOwnCodes v) (h : layout.overlong? v = none)
    (hout : output (layout.write v) = .ok ((), src)) (hsmall : src.length < UInt64.size) :
    Takes layout.read src v :=
  layout.takes_read (layout.recoverable_of_none hcodes h) hout hsmall

/-- Of two values one behind the other the first is refused, or it is taken and the second is. -/
theorem fails_pair {first : Layout α} {second : Layout β} {γ : Type} {next : α → ReadM γ}
    {v : α × β} {src : Bytes} {n : Nat} {e : CodecError} (hnext : Local (next v.1))
    (hbad : (first.overlong? v.1).or (second.overlong? v.2) = some n)
    (htakes : ∀ src, first.overlong? v.1 = none → output (first.write v.1) = .ok ((), src) →
      src.length < UInt64.size → Takes first.read src v.1)
    (hfirst : ∀ src, first.overlong? v.1 = some n → output (first.write v.1) = .ok ((), src) →
      src.length < UInt64.size → Fails first.read src e)
    (hsecond : ∀ src, second.overlong? v.2 = some n → output (second.write v.2) = .ok ((), src) →
      src.length < UInt64.size → Fails (next v.1) src e)
    (h : output (do first.write v.1; second.write v.2) = .ok ((), src))
    (hsmall : src.length < UInt64.size) : Fails (first.read >>= next) src e := by
  obtain ⟨src₁, src₂, h₁, h₂, rfl⟩ := output_entry h
  rw [List.length_append] at hsmall
  cases hlong : first.overlong? v.1 with
  | some m =>
    rw [hlong] at hbad
    cases hbad
    exact ((hfirst src₁ hlong h₁ (by omega)).bind first.clean_read.local).append src₂
  | none =>
    rw [hlong, Option.none_or] at hbad
    exact (htakes src₁ hlong h₁ (by omega)).bind_fails first.clean_read.local hnext
      (hsecond src₂ hbad h₂ (by omega))

section Maps

variable {κ ν μ : Type} {key : Layout κ} {value : Layout ν} {insert? : μ → κ → ν → Option μ}
variable {empty final : μ} {src : Bytes} {n : Nat}

/-- Any kind of map that grows by inserting entries at its end is refused at the first entry that
is. -/
theorem fails_map (entries : μ → List (κ × ν))
    (hsplit : ∀ m final e rest, entries final = entries m ++ e :: rest →
      ∃ m', entries m' = entries m ++ [e])
    (hinsert : ∀ m m' e, entries m' = entries m ++ [e] → insert? m e.1 e.2 = some m')
    (hempty : entries empty = []) (hnodup : ((entries final).map Prod.fst).Nodup)
    (hcodes : ∀ e ∈ entries final, key.HasOwnCodes e.1 ∧ value.HasOwnCodes e.2)
    (hkey : ∀ e ∈ entries final, ∀ src n, key.overlong? e.1 = some n →
      output (key.write e.1) = .ok ((), src) → src.length < UInt64.size →
        Fails key.read src (.invalidLength (.ofNat n)))
    (hvalue : ∀ e ∈ entries final, ∀ src n, value.overlong? e.2 = some n →
      output (value.write e.2) = .ok ((), src) → src.length < UInt64.size →
        Fails value.read src (.invalidLength (.ofNat n)))
    (hbad : ((entries final).findSome? fun e =>
      (key.overlong? e.1).or (value.overlong? e.2)) = some n)
    (h : output (Write.atomic do
      Write.count (entries final).length
      Write.each (fun e => do key.write e.1; value.write e.2) (entries final)) = .ok ((), src))
    (hsmall : src.length < UInt64.size) :
    Fails (Read.atomic do
      let n ← Read.count (key.minSize + value.minSize)
      Read.iterate (fun m => do
        let k ← key.read
        let v ← value.read
        orDuplicate .map (insert? m k v)) n empty) src (.invalidLength (.ofNat n)) := by
  have hstep := local_readEntry key value insert?
  have hfinal : entries final = entries empty ++ entries final := by
    rw [hempty, List.nil_append]
  refine fails_counted (local_writeEntry key value) (fun n => Local.iterate hstep n empty)
    (fun _ _ => minSize_le_length_entry) (length_le_of_empty_entries hnodup)
    (fun more hmore hlt => ?_) h hsmall
  refine fails_iterate entries (local_writeEntry key value) hstep hsplit
    (fun m m' e src he hm' hnone => ?_) (fun m e src n he hsome hsrc hlt => ?_) hfinal hbad hmore
    hlt
  · -- an entry with neither is taken, and it is new to the map
    obtain ⟨hkeyNone, hvalueNone⟩ := Option.or_eq_none_iff.mp hnone
    exact takes_entry (hinsert m m' e hm')
      (fun _ => key.takes_read_of_none (hcodes e he).1 hkeyNone)
      (fun _ => value.takes_read_of_none (hcodes e he).2 hvalueNone)
  · exact fails_pair (local_readValue value insert? m e.1) hsome
      (fun _ hkeyNone => key.takes_read_of_none (hcodes e he).1 hkeyNone)
      (fun src => hkey e he src n)
      (fun src hlong hout hsmall =>
        (hvalue e he src n hlong hout hsmall).bind value.clean_read.local) hsrc hlt

end Maps

/-- A value is refused for the first list in it that is too long, whatever follows it. -/
theorem fails_read (layout : Layout α) {v : α} {src : Bytes} {n : Nat}
    (hcodes : layout.HasOwnCodes v) (h : layout.overlong? v = some n)
    (hout : output (layout.write v) = .ok ((), src)) (hsmall : src.length < UInt64.size) :
    Fails layout.read src (.invalidLength (.ofNat n)) := by
  -- what lies before the list comes back, and from the list on the failure is passed up
  induction layout generalizing src n with
  | primitive | text | nullableText | empty | errorCode | enumeration => cases h
  | pair first second ihFirst ihSecond =>
    rw [write, Write.output_atomic] at hout
    exact Fails.atomic (fails_pair (second.clean_read.local.bind_pure _) h
      (fun _ hnone => first.takes_read_of_none hcodes.1 hnone)
      (fun _ hlong => ihFirst hcodes.1 hlong)
      (fun _ hlong hout hsmall =>
        (ihSecond hcodes.2 hlong hout hsmall).bind second.clean_read.local) hout hsmall)
  | record shape fields ih =>
    exact (ih hcodes h hout hsmall).map fields.clean_read.local shape.ofTuple
  | list element ih =>
    rw [overlong?] at h
    split at h
    · -- the list itself
      next hmany =>
      cases h
      obtain ⟨length, more, hprefixed, -, rfl⟩ := output_counted element.local_write hout
      have hcount := fails_count hprefixed hmany.2
      rw [← hmany.1] at hcount
      exact Fails.atomic ((hcount.bind (clean_count _).local).append more)
    · -- one of its elements
      next hfew =>
      have hbelieved (hzero : element.minSize = 0) : v.length ≤ maxEmptyElements :=
        Nat.le_of_not_lt fun hmany => hfew ⟨hzero, hmany⟩
      exact fails_counted element.local_write element.clean_read.local.times
        (fun _ _ => element.minSize_le_length) hbelieved
        (fun _ => fails_times element.local_write element.clean_read.local
          (fun a ha _ hnone => element.takes_read_of_none (hcodes a ha) hnone)
          (fun a ha _ _ hlong => ih (hcodes a ha) hlong) h) hout hsmall
  | set element ih =>
    have hstep (s : FiniteSet _) : Local (do orDuplicate .set (s.insert? (← element.read))) :=
      element.clean_read.local.bind fun a => local_orDuplicate _ _
    have hfew (hmin : element.minSize = 0) : v.elements.length ≤ maxEmptyElements :=
      length_le_of_nodup v.nodup (element.eq_of_minSize_eq_zero hmin)
    refine fails_counted element.local_write (fun n => Local.iterate hstep n _)
      (fun _ _ => element.minSize_le_length) hfew (fun more hmore hlt => ?_) hout hsmall
    refine fails_iterate FiniteSet.elements element.local_write hstep
      (fun _ _ _ _ => FiniteSet.exists_concat) (fun s s' a src ha hs' hnone hsrc hlt => ?_)
      (fun s a src n ha hlong hsrc hlt => ?_) rfl h hmore hlt
    · -- an element before it is taken, and it is new to the set
      have hread := element.takes_read_of_none (hcodes a ha) hnone hsrc hlt
      refine hread.bind_last element.clean_read.local (local_orDuplicate _ _) ?_
      rw [FiniteSet.insert?_of_concat hs']
      exact takes_pure s'
    · exact (ih (hcodes a ha) hlong hsrc hlt).bind element.clean_read.local
  | map key value ihKey ihValue =>
    exact fails_map FiniteMap.entries (fun _ _ _ _ => FiniteMap.exists_concat)
      (fun _ _ _ => FiniteMap.insert?_of_concat) rfl v.nodup hcodes
      (fun e he _ _ => ihKey (hcodes e he).1) (fun e he _ _ => ihValue (hcodes e he).2) h hout
      hsmall
  | orderedMap key value ihKey ihValue =>
    exact fails_map OrderedMap.entries (fun _ _ _ _ => OrderedMap.exists_concat)
      (fun _ _ _ => OrderedMap.insert?_of_concat) rfl (nodup_of_increasing v) hcodes
      (fun e he _ _ => ihKey (hcodes e he).1) (fun e he _ _ => ihValue (hcodes e he).2) h hout
      hsmall

/-- A list of elements of one size takes so many times this size. -/
theorem size_list_of_const {element : Layout α} {size : Nat} (h : ∀ a, element.size a = size)
    (values : List α) : (list element).size values = 4 + values.length * size := by
  have htotal : totalSize (values.map element.size) = values.length * size := by
    induction values with
    | nil => simp [totalSize]
    | cons a values ih =>
      rw [List.map_cons, totalSize, h a, ih, List.length_cons, Nat.succ_mul, Nat.add_comm]
  rw [Layout.size, htotal]

end Layout

/-! ## Single values -/

namespace Read

/-- What is written of a value, wherever a writer stands, a reader takes as the value from any bytes
that begin with it, and moves on by the size of the value; but it refuses a value with an overlong
list and stays where it is. The writer refuses neither: it asks only for lengths that fit. A byte
string has fewer bytes than there are 64-bit numbers, and so has every value that is written. -/
theorem value_of_written (layout : Layout α) {v : α} (hcodes : layout.HasOwnCodes v)
    (hsize : layout.size v < UInt64.size) :
    (∀ buffer, (∃ w, Write.value layout v (.growable buffer) = .ok () w) ↔ layout.LengthsFit v) ∧
    ∀ w w', w.Valid → Write.value layout v w = .ok () w' →
      ∃ src, w'.written = w.written ++ src ∧ src.length = layout.size v ∧
        ∀ r rest, r.Valid → r.rest = src ++ rest →
          value layout r =
            match layout.overlong? v with
            | none => .ok v (r.advance (layout.size v))
            | some n => .error (.invalidLength (.ofNat n)) r := by
  have hlocal : Write.Local (Write.value layout v) := (layout.local_write v).atomic
  refine ⟨fun buffer => ?_, fun w w' hw hwrite => ?_⟩
  · rw [hlocal.accepted_iff buffer, Write.value, Write.accepted_atomic, layout.accepted_iff]
  · obtain ⟨src, hout, hfits, rfl⟩ := hlocal.of_ok hw hwrite
    rw [Write.value, Write.output_atomic] at hout
    have hlen : src.length = layout.size v := layout.length_output hout
    refine ⟨src, Writer.written_append hw hfits, hlen, fun r rest hr hrest => ?_⟩
    have hclean : Clean (value layout) := layout.clean_read.local
    have hsmall : src.length < UInt64.size := hlen ▸ hsize
    rw [hclean.eq hr, hrest]
    cases hlong : layout.overlong? v with
    | none =>
      have htakes := (layout.takes_read_of_none hcodes hlong hout hsmall).atomic
      have hrun : run (value layout) (src ++ rest) = .ok (v, src.length) := htakes rest
      rw [hrun, ← hlen]
      rfl
    | some n =>
      have hfails := (layout.fails_read hcodes hlong hout hsmall).atomic
      have hrun : run (value layout) (src ++ rest) = .error (.invalidLength (.ofNat n)) :=
        hfails rest
      rw [hrun]
      rfl

/-- Two lists of units, of which the second is refused. -/
theorem value_of_written_units :
    let layout : Layout (List (List Unit)) := .list (.list .empty)
    let v : List (List Unit) := [[(), ()], List.replicate 65537 ()]
    layout.HasOwnCodes v ∧ layout.size v = 12 ∧ layout.LengthsFit v ∧
    (∀ buffer, (∃ w, Write.value layout v (.growable buffer) = .ok () w) ↔ layout.LengthsFit v) ∧
    ∀ w w', w.Valid → Write.value layout v w = .ok () w' →
      ∃ src, w'.written = w.written ++ src ∧ src.length = layout.size v ∧
        ∀ r rest, r.Valid → r.rest = src ++ rest →
          value layout r = .error (.invalidLength 65537) r := by
  have hmany : (List.replicate 65537 ()).length = 65537 := List.length_replicate
  generalize List.replicate 65537 () = units at hmany
  intro layout v
  have hcodes : layout.HasOwnCodes v := fun _ _ _ _ => trivial
  have hsize : layout.size v = 12 := by
    have hunits (units : List Unit) : (Layout.list .empty).size units = 4 := by
      rw [Layout.size_list_of_const (fun _ => rfl) units, Nat.mul_zero]
    rw [Layout.size_list_of_const hunits v]
    rfl
  have hfit : layout.LengthsFit v := by
    simp [layout, v, Layout.LengthsFit, Write.maxPrefix, hmany]
  have hlong : layout.overlong? v = some 65537 := by
    simp [layout, v, Layout.overlong?, Layout.minSize, maxEmptyElements, hmany]
  have hmain := value_of_written layout hcodes (by rw [hsize]; decide)
  rw [hlong] at hmain
  exact ⟨hcodes, hsize, hfit, hmain⟩

end Read

end ChatCodec
