import ChatCodec.Proofs.RoundTrip.Canonical

/-!
# What is read is what is written

A reader of values accepts nothing but the output of the writer: a value that is read is written as
the bytes it was read from, and its size is the number of these bytes. Sets and maps may be written
in another order than they were read in, but they take as many bytes.

* `Read.Measures` — a read consumes as many bytes as the value it answers takes.

Main results: `Layout.measures_read`, and from it `Read.value_written_back`.
-/

namespace ChatCodec

open Read

variable {α β σ : Type}

/-! ## Sizes of several parts -/

namespace Layout

theorem totalSize_append (sizes more : List Nat) :
    totalSize (sizes ++ more) = totalSize sizes + totalSize more := by
  induction sizes with
  | nil => rw [List.nil_append, totalSize, Nat.zero_add]
  | cons n sizes ih => rw [List.cons_append, totalSize, totalSize, ih, Nat.add_assoc]

end Layout

/-- Placing an entry adds its size, wherever it is placed. -/
theorem OrderedMap.totalSize_place? {κ ν : Type} [Ord κ] {key : κ} {value : ν}
    {entries placed : List (κ × ν)} (size : κ × ν → Nat)
    (h : place? key value entries = some placed) :
    Layout.totalSize (placed.map size) =
      Layout.totalSize (entries.map size) + size (key, value) := by
  induction entries generalizing placed with
  | nil =>
    cases h
    exact Nat.add_comm _ _
  | cons entry entries ih =>
    rw [place?] at h
    split at h
    · -- before the head
      cases h
      exact Nat.add_comm _ _
    · cases h
    · -- in the tail
      obtain ⟨tail, htail, rfl⟩ := Option.map_eq_some_iff.mp h
      rw [List.map_cons, Layout.totalSize, ih htail, List.map_cons, Layout.totalSize,
        Nat.add_assoc]

/-! ## Reads -/

namespace Read

/-- The read consumes as many bytes as the value it answers takes. -/
def Measures (read : ReadM α) (size : α → Nat) : Prop :=
  ∀ src a n, run read src = .ok (a, n) → n = size a

variable {read : ReadM α} {size : α → Nat} {src : Bytes} {n : Nat}

theorem Measures.map {f : α → β} {size' : β → Nat} (h : Measures read size) (hread : Local read)
    (hsize : ∀ a, size' (f a) = size a) : Measures (f <$> read) size' := by
  intro src b n hrun
  obtain ⟨a, ha, rfl⟩ := run_bind_pure_eq_ok hread hrun
  rw [hsize]
  exact h src a n ha

theorem Measures.atomic (h : Measures read size) : Measures (atomic read) size := by
  intro src a n hrun
  rw [run_atomic] at hrun
  exact h src a n hrun

theorem Measures.times (h : Measures read size) (hread : Local read) (number : Nat) :
    Measures (times read number) fun values => Layout.totalSize (values.map size) := by
  induction number with
  | zero =>
    intro src values n hrun
    cases hrun
    rfl
  | succ number ih =>
    intro src values n hrun
    obtain ⟨a, m, k, ha, hrest, rfl⟩ := (run_bind_eq_ok hread
      fun a => (hread.times number).bind_pure (a :: ·)).mp hrun
    obtain ⟨others, hothers, rfl⟩ := run_bind_pure_eq_ok (hread.times number) hrest
    rw [h src a m ha, ih _ others k hothers]
    rfl

/-- What is built step by step has grown by the bytes consumed. -/
theorem add_of_run_iterate {step : σ → ReadM σ} (total : σ → Nat) (hstep : ∀ s, Local (step s))
    (h : ∀ s src s' n, run (step s) src = .ok (s', n) → total s' = total s + n) {number : Nat}
    {s s' : σ} (hrun : run (iterate step number s) src = .ok (s', n)) :
    total s' = total s + n := by
  induction number generalizing s src n with
  | zero =>
    cases hrun
    rfl
  | succ number ih =>
    obtain ⟨middle, m, k, hfirst, hrest, rfl⟩ := (run_bind_eq_ok (hstep s)
      fun s => Local.iterate hstep number s).mp hrun
    rw [ih hrest, h s src middle m hfirst, Nat.add_assoc]

/-- Of a count, only the prefix consumes anything. -/
theorem consumed_of_run_count {minSize number : Nat}
    (h : run (count minSize) src = .ok (number, n)) : n = 4 := by
  rw [count, run_atomic] at h
  obtain ⟨length, prefixed, more, hprefix, hnumber, rfl⟩ := (run_bind_eq_ok
    (parses_primitive .i32).local (local_countOfPrefix minSize)).mp h
  obtain ⟨-, rfl⟩ := eq_of_run_primitive hprefix
  obtain ⟨-, -, rfl⟩ := eq_of_run_countOfPrefix hnumber
  rfl

/-- A count takes four bytes, and what it counts takes the others. -/
theorem exists_of_run_counted {body : Nat → ReadM β} {minSize : Nat} {b : β}
    (hbody : ∀ n, Local (body n))
    (h : run (Read.atomic (count minSize >>= body)) src = .ok (b, n)) :
    ∃ number k, run (body number) (src.drop 4) = .ok (b, k) ∧ n = 4 + k := by
  rw [run_atomic] at h
  obtain ⟨number, m, k, hcount, hrest, rfl⟩ := (run_bind_eq_ok (clean_count minSize).local
    hbody).mp h
  obtain rfl := consumed_of_run_count hcount
  exact ⟨number, k, hrest, rfl⟩

end Read

/-! ## Layouts -/

namespace Layout

/-- Without sets and maps, the bytes consumed are those that are written. -/
theorem measures_of_isSequential (layout : Layout α) (h : layout.isSequential = true) :
    Measures layout.read layout.size := by
  intro src v n hrun
  have hle := layout.clean_read.local.consumed_le hrun
  -- what is written has the size of the value, and is what was consumed
  have hlen := layout.length_output (layout.spells_read h src v n hrun)
  rw [List.length_take] at hlen
  omega

/-- An attempt to insert consumes nothing, and was successful. -/
theorem eq_of_run_orDuplicate {collection : CollectionKind} {result : Option α} {a : α}
    {src : Bytes} {n : Nat} (h : run (orDuplicate collection result) src = .ok (a, n)) :
    result = some a ∧ n = 0 := by
  unfold orDuplicate at h
  split at h
  · cases h
    exact ⟨rfl, rfl⟩
  · cases h

/-- A map has grown by the key and the value that were read for it. -/
theorem measures_map {κ ν μ : Type} {key : Layout κ} {value : Layout ν}
    {insert? : μ → κ → ν → Option μ} {empty : μ} (entries : μ → List (κ × ν))
    (hkey : Measures key.read key.size) (hvalue : Measures value.read value.size)
    (hempty : entries empty = [])
    (hinsert : ∀ m k v m', insert? m k v = some m' →
      totalSize ((entries m').map fun e => key.size e.1 + value.size e.2) =
        totalSize ((entries m).map fun e => key.size e.1 + value.size e.2) +
          (key.size k + value.size v)) :
    Measures (Read.atomic do
      let n ← Read.count (key.minSize + value.minSize)
      Read.iterate (fun m => do
        let k ← key.read
        let v ← value.read
        orDuplicate .map (insert? m k v)) n empty)
      fun m => 4 + totalSize ((entries m).map fun e => key.size e.1 + value.size e.2) := by
  have hlocal := local_readEntry key value insert?
  intro src m n hrun
  obtain ⟨number, k, hrest, rfl⟩ := exists_of_run_counted (fun n => Local.iterate hlocal n empty)
    hrun
  have hgrown := add_of_run_iterate
    (fun m => totalSize ((entries m).map fun e => key.size e.1 + value.size e.2))
    hlocal (fun m src m' n hstep => ?_) hrest
  · dsimp only
    rw [hgrown, hempty]
    exact congrArg (4 + ·) (Nat.zero_add k).symm
  · -- one entry
    obtain ⟨k, n₁, rest, hk, hmore, rfl⟩ := (run_bind_eq_ok key.clean_read.local
      (local_readValue value insert? m)).mp hstep
    obtain ⟨v, n₂, n₃, hv, hlast, rfl⟩ := (run_bind_eq_ok value.clean_read.local
      fun v => local_orDuplicate _ _).mp hmore
    obtain ⟨hm', rfl⟩ := eq_of_run_orDuplicate hlast
    rw [hinsert m k v m' hm', hkey _ k n₁ hk, hvalue _ v n₂ hv, Nat.add_zero]

/-- A value that is read takes as many bytes as were consumed. -/
theorem measures_read (layout : Layout α) : Measures layout.read layout.size := by
  induction layout with
  | primitive | text | nullableText | empty | errorCode | enumeration =>
    exact measures_of_isSequential _ rfl
  | pair first second ihFirst ihSecond =>
    refine Measures.atomic fun src v n hrun => ?_
    obtain ⟨a, m, k, ha, hrest, rfl⟩ := (run_bind_eq_ok first.clean_read.local
      fun a => second.clean_read.local.bind_pure (Prod.mk a)).mp hrun
    obtain ⟨b, hb, rfl⟩ := run_bind_pure_eq_ok second.clean_read.local hrest
    rw [ihFirst src a m ha, ihSecond _ b k hb, size]
  | record shape fields ih =>
    refine ih.map fields.clean_read.local fun t => ?_
    rw [size, shape.toTuple_ofTuple]
  | list element ih =>
    intro src values n hrun
    obtain ⟨number, k, hrest, rfl⟩ := exists_of_run_counted element.clean_read.local.times hrun
    rw [ih.times element.clean_read.local number _ values k hrest, size]
  | set element ih =>
    have hlocal (s : FiniteSet _) : Local (do orDuplicate .set (s.insert? (← element.read))) :=
      element.clean_read.local.bind fun a => local_orDuplicate _ _
    intro src s n hrun
    obtain ⟨number, k, hrest, rfl⟩ := exists_of_run_counted
      (fun n => Local.iterate hlocal n .empty) hrun
    have hgrown := add_of_run_iterate
      (fun s => totalSize (s.elements.map element.size)) hlocal
      (fun s src s' n hstep => ?_) hrest
    · rw [size, hgrown]
      exact congrArg (4 + ·) (Nat.zero_add k).symm
    · -- one element, which goes to the end
      obtain ⟨a, m, j, ha, hlast, rfl⟩ := (run_bind_eq_ok element.clean_read.local
        fun a => local_orDuplicate _ _).mp hstep
      obtain ⟨hs', rfl⟩ := eq_of_run_orDuplicate hlast
      unfold FiniteSet.insert? at hs'
      split at hs' <;> cases hs'
      rw [List.map_append, totalSize_append, ih src a m ha]
      rfl
  | map key value ihKey ihValue =>
    refine measures_map FiniteMap.entries ihKey ihValue rfl fun m k v m' hm' => ?_
    unfold FiniteMap.insert? at hm'
    split at hm' <;> cases hm'
    rw [List.map_append, totalSize_append]
    rfl
  | orderedMap key value ihKey ihValue =>
    refine measures_map OrderedMap.entries ihKey ihValue rfl fun m k v m' hm' => ?_
    unfold OrderedMap.insert? at hm'
    split at hm' <;> cases hm'
    next hplace => exact OrderedMap.totalSize_place? _ hplace

end Layout

/-! ## Single values -/

namespace Read

/-- A value that is read moves the cursor by its size. Unless there are sets or maps in it, every
writer with space for it then writes just the bytes that were passed over. -/
theorem value_written_back (layout : Layout α) {r r' : Reader} {v : α} (hr : r.Valid)
    (h : value layout r = .ok v r') :
    r' = r.advance (layout.size v) ∧ layout.size v ≤ r.rest.length ∧
      (layout.isSequential = true → ∀ w : Writer, w.Valid → w.Fits (layout.size v) →
        Write.value layout v w = .ok () (w.append (r.rest.take (layout.size v)))) := by
  have hclean : Clean (value layout) := layout.clean_read.local
  rw [hclean.eq hr] at h
  -- the answer is that of a run on the bytes ahead
  cases hrun : run (value layout) r.rest with
  | error e =>
    rw [hrun] at h
    cases h
  | ok answer =>
    obtain ⟨a, n⟩ := answer
    rw [hrun] at h
    cases h
    rw [value, run_atomic] at hrun
    obtain rfl := layout.measures_read r.rest v n hrun
    have hle := layout.clean_read.local.consumed_le hrun
    refine ⟨rfl, hle, fun hsequential w hw hfits => ?_⟩
    have hlen : (r.rest.take (layout.size v)).length = layout.size v := by
      rw [List.length_take]
      omega
    have hout := layout.spells_read hsequential r.rest v _ hrun
    rw [← Write.output_atomic] at hout
    exact (layout.local_write v).atomic.ok hw hout (by rwa [hlen])

/-- A flag and a list of numbers, with another byte behind them. -/
theorem value_written_back_numbers :
    let layout : Layout (Bool × List UInt16) := .pair .bool (.list .u16)
    let src : Bytes := [1, 2, 0, 0, 0, 7, 0, 255, 1, 99]
    let v : Bool × List UInt16 := (true, [7, 511])
    (Reader.ofBytes src).Valid ∧
      value layout (Reader.ofBytes src) = .ok v ((Reader.ofBytes src).advance 9) ∧
      (Reader.ofBytes src).advance 9 = (Reader.ofBytes src).advance (layout.size v) ∧
      layout.size v ≤ (Reader.ofBytes src).rest.length ∧
      (layout.isSequential = true → ∀ w : Writer, w.Valid → w.Fits (layout.size v) →
        Write.value layout v w =
          .ok () (w.append ((Reader.ofBytes src).rest.take (layout.size v)))) := by
  intro layout src v
  have hread : value layout (Reader.ofBytes src) = .ok v ((Reader.ofBytes src).advance 9) := rfl
  exact ⟨Reader.valid_ofBytes src, hread,
    value_written_back layout (Reader.valid_ofBytes src) hread⟩

end Read

end ChatCodec
