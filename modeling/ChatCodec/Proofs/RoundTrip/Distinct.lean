import ChatCodec.Proofs.RoundTrip.Image

/-!
# Sets and maps hold what was listed, once each

A set or a map is read from a count that passes its check and so many elements, no two of them with
the same key, and then it holds just these. What goes wrong first, in the order of reading, is what
is reported: the count, an element that cannot be read, or one whose key was there before.

* `Read.Lists` — the bytes list some items without repeating a key;
* `Read.Breaks` — the first trouble among so many items, and its error;
* `Read.Distinct` — a read of a collection answers as these two say;
* `Read.Gathers` — one step of such a read, for sets and for maps.

Main result: `Layout.decodes_distinct`. Maps ordered by key are read just as those that are not, and
their bytes are those of the list of their entries, in increasing order of keys.
-/

namespace ChatCodec

open Read

variable {α κ ν μ : Type}

/-! ## Collections

An element is refused if its key is there, and is all that is added otherwise.
-/

namespace FiniteSet

variable [DecidableEq α] {s s' : FiniteSet α} {a : α}

theorem insert?_eq_none_iff : s.insert? a = none ↔ a ∈ s.elements := by
  unfold insert?
  split
  · next hmem => exact iff_of_true rfl hmem
  · next hmem => exact iff_of_false (Option.some_ne_none _) hmem

theorem elements_of_insert? (h : s.insert? a = some s') : s'.elements = s.elements ++ [a] := by
  unfold insert? at h
  split at h <;> cases h
  rfl

end FiniteSet

namespace FiniteMap

variable [DecidableEq κ] {m m' : FiniteMap κ ν} {key : κ} {value : ν}

theorem insert?_eq_none_iff : m.insert? key value = none ↔ key ∈ m.entries.map Prod.fst := by
  unfold insert?
  split
  · next hmem => exact iff_of_true rfl hmem
  · next hmem => exact iff_of_false (Option.some_ne_none _) hmem

theorem entries_of_insert? (h : m.insert? key value = some m') :
    m'.entries = m.entries ++ [(key, value)] := by
  unfold insert? at h
  split at h <;> cases h
  rfl

end FiniteMap

namespace OrderedMap

variable [Ord κ] {m m' : OrderedMap κ ν} {key : κ} {value : ν} {entries placed : List (κ × ν)}

theorem perm_of_place? (h : place? key value entries = some placed) :
    placed.Perm (entries ++ [(key, value)]) := by
  induction entries generalizing placed with
  | nil =>
    cases h
    exact .refl _
  | cons entry rest ih =>
    rw [place?] at h
    split at h
    · -- before the head
      cases h
      exact (List.perm_append_singleton _ _).symm
    · cases h
    · -- in the tail
      obtain ⟨tail, htail, rfl⟩ := Option.map_eq_some_iff.mp h
      exact (ih htail).cons entry

variable [Std.TransOrd κ]

theorem below_irrefl (key : κ) : compare key key ≠ .lt := by
  have hself : compare key key = .eq := Std.ReflCmp.compare_self
  rw [hself]
  nofun

theorem place?_eq_none_iff [Std.LawfulEqOrd κ] (value : ν)
    (hinc : (entries.map Prod.fst).Pairwise (compare · · = .lt)) :
    place? key value entries = none ↔ key ∈ entries.map Prod.fst := by
  induction entries with
  | nil => exact iff_of_false (Option.some_ne_none _) List.not_mem_nil
  | cons entry rest ih =>
    rw [List.map_cons, List.pairwise_cons] at hinc
    rw [place?, List.map_cons, List.mem_cons]
    split
    · -- below the head, and so below all keys
      next hlt =>
        refine iff_of_false (Option.some_ne_none _) ?_
        rintro (rfl | hmem)
        · exact below_irrefl _ hlt
        · exact below_irrefl _ (Std.TransCmp.lt_trans hlt (hinc.1 key hmem))
    · next heq => exact iff_of_true rfl (.inl (Std.LawfulEqOrd.eq_of_compare heq))
    · next hgt =>
        have hne : key ≠ entry.1 := by
          rintro rfl
          exact below_irrefl _ (Std.OrientedCmp.lt_of_gt hgt)
        rw [Option.map_eq_none_iff, ih hinc.2, or_iff_right hne]

theorem entries_of_insert? (h : m.insert? key value = some m') :
    place? key value m.entries = some m'.entries := by
  unfold insert? at h
  split at h <;> cases h
  assumption

theorem insert?_eq_none_iff [Std.LawfulEqOrd κ] :
    m.insert? key value = none ↔ key ∈ m.entries.map Prod.fst := by
  rw [← place?_eq_none_iff value m.increasing]
  unfold insert?
  split
  · next heq => exact iff_of_false (Option.some_ne_none _) (by simp [heq])
  · next heq => exact iff_of_true rfl heq

/-- The entries of a map, whatever order they are given in, can be listed in one way only. -/
theorem eq_of_mem_iff (h : ∀ e, e ∈ m.entries ↔ e ∈ m'.entries) : m = m' := by
  have hnodup (m : OrderedMap κ ν) : m.entries.Nodup :=
    List.Pairwise.of_map Prod.fst (fun _ _ => mt (congrArg Prod.fst))
      (Layout.nodup_of_increasing m)
  have hperm : m.entries.Perm m'.entries :=
    (List.perm_ext_iff_of_nodup (hnodup m) (hnodup m')).mpr h
  -- no key is below one that is below it
  have hanti (e e' : κ × ν) (_ : e ∈ m.entries) (_ : e' ∈ m'.entries)
      (hlt : compare e.1 e'.1 = .lt) (hgt : compare e'.1 e.1 = .lt) : e = e' :=
    absurd (Std.TransCmp.lt_trans hlt hgt) (below_irrefl _)
  have hsorted (m : OrderedMap κ ν) :
      m.entries.Pairwise fun e e' => compare e.1 e'.1 = .lt := List.pairwise_map.mp m.increasing
  exact eq_of_entries (hperm.eq_of_pairwise hanti (hsorted m) (hsorted m'))

end OrderedMap

/-! ## Reading one element after another -/

namespace Read

section Items

variable {element : ReadM α}

theorem run_times_succ (helement : Local element) {number : Nat} {src : Bytes} {items : List α}
    {n : Nat} : run (times element (number + 1)) src = .ok (items, n) ↔
      ∃ a m rest k, run element src = .ok (a, m) ∧
        run (times element number) (src.drop m) = .ok (rest, k) ∧ items = a :: rest ∧
          n = m + k := by
  have hrest := helement.times number
  constructor
  · intro h
    obtain ⟨a, m, k, ha, hmore, rfl⟩ := (run_bind_eq_ok helement fun a => hrest.bind_pure _).mp h
    obtain ⟨rest, hrun, rfl⟩ := run_bind_pure_eq_ok hrest hmore
    exact ⟨a, m, rest, k, ha, hrun, rfl, rfl⟩
  · rintro ⟨a, m, rest, k, ha, hrun, rfl, rfl⟩
    refine (run_bind_eq_ok helement fun a => hrest.bind_pure _).mpr ⟨a, m, k, ha, ?_, rfl⟩
    exact (run_map _ hrest _).trans (by rw [hrun]; rfl)

theorem length_of_run_times (helement : Local element) {number : Nat} {src : Bytes}
    {items : List α} {n : Nat} (h : run (times element number) src = .ok (items, n)) :
    items.length = number := by
  induction number generalizing src items n with
  | zero =>
    cases h
    rfl
  | succ number ih =>
    obtain ⟨a, m, rest, k, -, hrest, rfl, -⟩ := (run_times_succ helement).mp h
    exact congrArg (· + 1) (ih hrest)

/-- What a rollback in front of another read does is not seen in a run. -/
theorem run_atomic_bind {β : Type} {next : α → ReadM β} (helement : Local element)
    (hnext : ∀ a, Local (next a)) (src : Bytes) :
    run (atomic element >>= next) src = run (element >>= next) src := by
  have hatomic : Local (atomic element) := Clean.local helement
  cases hrun : run element src with
  | error e =>
    rw [run_bind_of_error helement hrun, run_bind_of_error hatomic (run_atomic element src ▸ hrun)]
  | ok answer =>
    rw [run_bind_of_ok helement (hnext _) hrun,
      run_bind_of_ok hatomic (hnext _) (run_atomic element src ▸ hrun)]

end Items

/-- The bytes are a count that passes its check, and so many items with distinct keys. -/
def Lists (element : ReadM α) (minSize : Nat) (keyOf : α → κ) (src : Bytes) (items : List α)
    (n : Nat) : Prop :=
  run (count minSize) src = .ok (items.length, 4) ∧ (items.map keyOf).Nodup ∧
    ∃ k, run (times element items.length) (src.drop 4) = .ok (items, k) ∧ n = 4 + k

/-- The bytes list one sequence of items only. -/
theorem Lists.unique {element : ReadM α} {minSize : Nat} {keyOf : α → κ} {src : Bytes}
    {items items' : List α} {n n' : Nat} (h : Lists element minSize keyOf src items n)
    (h' : Lists element minSize keyOf src items' n') : items = items' := by
  obtain ⟨hcount, -, k, hitems, -⟩ := h
  obtain ⟨hcount', -, k', hitems', -⟩ := h'
  rw [hcount, Except.ok.injEq, Prod.mk.injEq] at hcount'
  rw [hcount'.1, hitems'] at hitems
  cases hitems
  rfl

/-- The first trouble among so many items. In front of it are items with distinct keys, also from
those seen earlier; it is an item that cannot be read, or one that can, but whose key was there. -/
def Breaks (element : ReadM α) (keyOf : α → κ) (kind : CollectionKind) (seen : List α)
    (number : Nat) (src : Bytes) (e : CodecError) : Prop :=
  ∃ i < number, ∃ items k, run (times element i) src = .ok (items, k) ∧
    ((seen ++ items).map keyOf).Nodup ∧
    (run element (src.drop k) = .error e ∨
      ∃ a n, run element (src.drop k) = .ok (a, n) ∧ keyOf a ∈ (seen ++ items).map keyOf ∧
        e = .duplicateKey kind)

/-- The collection that is read holds the items listed in the bytes, or their first trouble is
reported and the cursor stays. -/
structure Distinct (read : ReadM μ) (contents : μ → List α) (element : ReadM α) (minSize : Nat)
    (keyOf : α → κ) (kind : CollectionKind) : Prop where
  /-- At any reader the answer is that for the bytes ahead, and a failure does not move it. -/
  clean : Clean read
  ok_iff : ∀ src n, (∃ m, run read src = .ok (m, n)) ↔
    ∃ items, Lists element minSize keyOf src items n
  holds : ∀ src m n, run read src = .ok (m, n) →
    ∃ items, Lists element minSize keyOf src items n ∧ (contents m).Perm items
  error_iff : ∀ src e, run read src = .error e ↔ run (count minSize) src = .error e ∨
    ∃ number, run (count minSize) src = .ok (number, 4) ∧
      Breaks element keyOf kind [] number (src.drop 4) e

/-! ## The loop -/

/-- Each step reads an element and inserts it; insertion refuses those whose keys are there. -/
structure Gathers (step : μ → ReadM μ) (element : ReadM α) (insert? : μ → α → Option μ)
    (contents : μ → List α) (keyOf : α → κ) (kind : CollectionKind) : Prop where
  local_step : ∀ m, Local (step m)
  local_element : Local element
  run_step : ∀ m src, run (step m) src =
    run (element >>= fun a => Layout.orDuplicate kind (insert? m a)) src
  nodup : ∀ m, ((contents m).map keyOf).Nodup
  refused_iff : ∀ m a, insert? m a = none ↔ keyOf a ∈ (contents m).map keyOf
  inserted : ∀ m a m', insert? m a = some m' → (contents m').Perm (contents m ++ [a])

namespace Gathers

variable {step : μ → ReadM μ} {element : ReadM α} {insert? : μ → α → Option μ}
variable {contents : μ → List α} {keyOf : α → κ} {kind : CollectionKind}
variable {m m' : μ} {src : Bytes} {n number : Nat} {items : List α} {e : CodecError}

theorem step_eq_ok (h : Gathers step element insert? contents keyOf kind) :
    run (step m) src = .ok (m', n) ↔
      ∃ a, run element src = .ok (a, n) ∧ insert? m a = some m' := by
  rw [h.run_step, run_bind_eq_ok h.local_element fun a => Layout.local_orDuplicate _ _]
  constructor
  · rintro ⟨a, k, j, ha, hinsert, rfl⟩
    obtain ⟨hm', rfl⟩ := Layout.eq_of_run_orDuplicate hinsert
    exact ⟨a, ha, hm'⟩
  · rintro ⟨a, ha, hm'⟩
    refine ⟨a, n, 0, ha, ?_, rfl⟩
    rw [hm']
    rfl

theorem step_eq_error (h : Gathers step element insert? contents keyOf kind) :
    run (step m) src = .error e ↔ run element src = .error e ∨
      ∃ a n, run element src = .ok (a, n) ∧ keyOf a ∈ (contents m).map keyOf ∧
        e = .duplicateKey kind := by
  rw [h.run_step, run_bind_eq_error h.local_element fun a => Layout.local_orDuplicate _ _]
  refine or_congr_right (exists_congr fun a => exists_congr fun n => and_congr_right fun _ => ?_)
  rw [← h.refused_iff]
  cases insert? m a with
  | none =>
    refine ⟨fun hrun => ?_, fun he => he.2 ▸ rfl⟩
    cases hrun
    exact ⟨rfl, rfl⟩
  | some m' => exact iff_of_false nofun fun he => nomatch he.1

/-- An item goes in if its key is none of those there. -/
theorem exists_insert (h : Gathers step element insert? contents keyOf kind) {a : α}
    (hnodup : ((contents m ++ a :: items).map keyOf).Nodup) : ∃ m', insert? m a = some m' := by
  rw [List.map_append, List.nodup_append, List.map_cons] at hnodup
  exact Option.ne_none_iff_exists'.mp fun hnone =>
    hnodup.2.2 _ ((h.refused_iff m a).mp hnone) _ List.mem_cons_self rfl

/-- What was there, an item, and what came after, listed in either order. -/
theorem perm_cons (h : Gathers step element insert? contents keyOf kind) {a : α}
    (hm' : insert? m a = some m') (items : List α) :
    (contents m' ++ items).Perm (contents m ++ a :: items) := by
  rw [List.append_cons]
  exact (h.inserted m a m' hm').append_right items

/-- The loop ends well just if all items can be read and bring new keys. -/
theorem iterate_eq_ok (h : Gathers step element insert? contents keyOf kind) :
    (∃ m', run (iterate step number m) src = .ok (m', n)) ↔
      ∃ items, run (times element number) src = .ok (items, n) ∧
        ((contents m ++ items).map keyOf).Nodup := by
  induction number generalizing m src n with
  | zero =>
    constructor
    · rintro ⟨m', hrun⟩
      cases hrun
      exact ⟨[], rfl, (List.append_nil _).symm ▸ h.nodup m⟩
    · rintro ⟨items, hrun, -⟩
      cases hrun
      exact ⟨m, rfl⟩
  | succ number ih =>
    constructor
    · rintro ⟨final, hrun⟩
      obtain ⟨m', k, j, hstep, hrest, rfl⟩ := (run_bind_eq_ok (h.local_step m)
        fun m => Local.iterate h.local_step number m).mp hrun
      obtain ⟨a, ha, hm'⟩ := h.step_eq_ok.mp hstep
      obtain ⟨items, hitems, hnodup⟩ := ih.mp ⟨final, hrest⟩
      exact ⟨a :: items,
        (run_times_succ h.local_element).mpr ⟨a, k, items, j, ha, hitems, rfl, rfl⟩,
        ((h.perm_cons hm' items).map keyOf).nodup_iff.mp hnodup⟩
    · rintro ⟨_, hrun, hnodup⟩
      obtain ⟨a, k, items, j, ha, hitems, rfl, rfl⟩ := (run_times_succ h.local_element).mp hrun
      obtain ⟨m', hm'⟩ := h.exists_insert hnodup
      obtain ⟨final, hfinal⟩ := ih.mpr ⟨items, hitems,
        ((h.perm_cons hm' items).map keyOf).nodup_iff.mpr hnodup⟩
      exact ⟨final,
        (run_bind_eq_ok (h.local_step m) fun m => Local.iterate h.local_step number m).mpr
          ⟨m', k, j, h.step_eq_ok.mpr ⟨a, ha, hm'⟩, hfinal, rfl⟩⟩

/-- The loop adds the items it read, and nothing else. -/
theorem perm_of_iterate (h : Gathers step element insert? contents keyOf kind)
    (hrun : run (iterate step number m) src = .ok (m', n))
    (hitems : run (times element number) src = .ok (items, n)) :
    (contents m').Perm (contents m ++ items) := by
  induction number generalizing m src n items with
  | zero =>
    cases hrun
    cases hitems
    rw [List.append_nil]
  | succ number ih =>
    obtain ⟨middle, k, j, hstep, hrest, rfl⟩ := (run_bind_eq_ok (h.local_step m)
      fun m => Local.iterate h.local_step number m).mp hrun
    obtain ⟨a, ha, hmiddle⟩ := h.step_eq_ok.mp hstep
    obtain ⟨b, k', rest, j', hb, hmore, rfl, hn⟩ := (run_times_succ h.local_element).mp hitems
    rw [ha] at hb
    cases hb
    obtain rfl := Nat.add_left_cancel hn
    exact (ih hrest hmore).trans (h.perm_cons hmiddle rest)

/-- The loop fails with the first trouble among the items. -/
theorem iterate_eq_error (h : Gathers step element insert? contents keyOf kind) :
    run (iterate step number m) src = .error e ↔
      Breaks element keyOf kind (contents m) number src e := by
  induction number generalizing m src with
  | zero => exact iff_of_false nofun fun ⟨i, hi, _⟩ => absurd hi (Nat.not_lt_zero i)
  | succ number ih =>
    have hiterate : run (iterate step (number + 1) m) src = .error e ↔ _ :=
      run_bind_eq_error (h.local_step m) fun m => Local.iterate h.local_step number m
    rw [hiterate, h.step_eq_error]
    constructor
    · rintro (hfirst | ⟨m', k, hstep, hrest⟩)
      · -- the first item is the trouble
        refine ⟨0, Nat.succ_pos _, [], 0, rfl, ?_, ?_⟩
        · rw [List.append_nil]
          exact h.nodup m
        · rw [List.append_nil]
          exact hfirst
      · -- the first item is in, and the trouble is among the others
        obtain ⟨a, ha, hm'⟩ := h.step_eq_ok.mp hstep
        obtain ⟨i, hi, items, j, hitems, hnodup, htrouble⟩ := ih.mp hrest
        have hperm := (h.perm_cons hm' items).map keyOf
        refine ⟨i + 1, Nat.succ_lt_succ hi, a :: items, k + j,
          (run_times_succ h.local_element).mpr ⟨a, k, items, j, ha, hitems, rfl, rfl⟩,
          hperm.nodup_iff.mp hnodup, ?_⟩
        rw [List.drop_drop] at htrouble
        refine htrouble.imp_right ?_
        rintro ⟨b, l, hb, hmem, he⟩
        exact ⟨b, l, hb, hperm.mem_iff.mp hmem, he⟩
    · rintro ⟨i, hi, _, _, hitems, hnodup, htrouble⟩
      cases i with
      | zero =>
        cases hitems
        rw [List.append_nil] at htrouble
        exact .inl htrouble
      | succ i =>
        obtain ⟨a, k, items, j, ha, hrest, rfl, rfl⟩ :=
          (run_times_succ h.local_element).mp hitems
        obtain ⟨m', hm'⟩ := h.exists_insert hnodup
        have hperm := (h.perm_cons hm' items).map keyOf
        refine .inr ⟨m', k, h.step_eq_ok.mpr ⟨a, ha, hm'⟩, ih.mpr ⟨i, Nat.lt_of_succ_lt_succ hi,
          items, j, hrest, hperm.nodup_iff.mpr hnodup, ?_⟩⟩
        rw [List.drop_drop]
        refine htrouble.imp_right ?_
        rintro ⟨b, l, hb, hmem, he⟩
        exact ⟨b, l, hb, hperm.mem_iff.mpr hmem, he⟩

/-- A count and then the loop, begun with nothing, read a collection. -/
theorem distinct (h : Gathers step element insert? contents keyOf kind) {read : ReadM μ}
    {minSize : Nat} (empty : μ) (hclean : Clean read) (hempty : contents empty = [])
    (hread : ∀ src, run read src =
      run (count minSize >>= fun number => iterate step number empty) src) :
    Distinct read contents element minSize keyOf kind := by
  have hloop (number : Nat) : Local (iterate step number empty) :=
    Local.iterate h.local_step number empty
  -- a run is that of the count and then, four bytes on, that of the loop
  have hok {src m n} : run read src = .ok (m, n) ↔ ∃ number k,
      run (count minSize) src = .ok (number, 4) ∧
        run (iterate step number empty) (src.drop 4) = .ok (m, k) ∧ n = 4 + k := by
    rw [hread, run_bind_eq_ok (clean_count minSize).local hloop]
    constructor
    · rintro ⟨number, m, k, hcount, hrun, rfl⟩
      obtain rfl := consumed_of_run_count hcount
      exact ⟨number, k, hcount, hrun, rfl⟩
    · rintro ⟨number, k, hcount, hrun, rfl⟩
      exact ⟨number, 4, k, hcount, hrun, rfl⟩
  have hlists {src m n} (hrun : run read src = .ok (m, n)) :
      ∃ items, Lists element minSize keyOf src items n ∧ (contents m).Perm items := by
    obtain ⟨number, k, hcount, hiterate, rfl⟩ := hok.mp hrun
    obtain ⟨items, hitems, hnodup⟩ := h.iterate_eq_ok.mp ⟨m, hiterate⟩
    have hperm := h.perm_of_iterate hiterate hitems
    obtain rfl := length_of_run_times h.local_element hitems
    rw [hempty, List.nil_append] at hnodup hperm
    exact ⟨items, ⟨hcount, hnodup, k, hitems, rfl⟩, hperm⟩
  refine ⟨hclean, fun src n => ⟨?_, ?_⟩, fun src m n => hlists, fun src e => ?_⟩
  · rintro ⟨m, hrun⟩
    obtain ⟨items, hitems, -⟩ := hlists hrun
    exact ⟨items, hitems⟩
  · rintro ⟨items, hcount, hnodup, k, hitems, rfl⟩
    obtain ⟨m, hm⟩ := h.iterate_eq_ok.mpr ⟨items, hitems, by rwa [hempty]⟩
    exact ⟨m, hok.mpr ⟨items.length, k, hcount, hm, rfl⟩⟩
  · rw [hread, run_bind_eq_error (clean_count minSize).local hloop]
    refine or_congr_right ⟨?_, ?_⟩
    · rintro ⟨number, m, hcount, herror⟩
      obtain rfl := consumed_of_run_count hcount
      exact ⟨number, hcount, hempty ▸ h.iterate_eq_error.mp herror⟩
    · rintro ⟨number, hcount, hbreaks⟩
      exact ⟨number, 4, hcount, h.iterate_eq_error.mpr (hempty.symm ▸ hbreaks)⟩

end Gathers

/-- Two collections of the same items are read alike, wherever the reader stands. -/
theorem Distinct.agree {μ₁ μ₂ : Type} {read₁ : ReadM μ₁} {read₂ : ReadM μ₂}
    {contents₁ : μ₁ → List α} {contents₂ : μ₂ → List α} {element : ReadM α} {minSize : Nat}
    {keyOf : α → κ} {kind : CollectionKind}
    (h₁ : Distinct read₁ contents₁ element minSize keyOf kind)
    (h₂ : Distinct read₂ contents₂ element minSize keyOf kind) {r : Reader} (hr : r.Valid) :
    (∃ m₁ m₂ r', read₁ r = .ok m₁ r' ∧ read₂ r = .ok m₂ r' ∧
      (contents₁ m₁).Perm (contents₂ m₂)) ∨
    ∃ e, read₁ r = .error e r ∧ read₂ r = .error e r := by
  rw [Parses.eq h₁.clean hr, Parses.eq h₂.clean hr]
  cases hrun₁ : run read₁ r.rest with
  | error e =>
    have hrun₂ := (h₂.error_iff r.rest e).mpr ((h₁.error_iff r.rest e).mp hrun₁)
    rw [hrun₂]
    exact .inr ⟨e, rfl, rfl⟩
  | ok answer =>
    obtain ⟨m₁, n⟩ := answer
    obtain ⟨items, hitems, hperm₁⟩ := h₁.holds _ _ _ hrun₁
    obtain ⟨m₂, hrun₂⟩ := (h₂.ok_iff r.rest n).mpr ⟨items, hitems⟩
    obtain ⟨items', hitems', hperm₂⟩ := h₂.holds _ _ _ hrun₂
    obtain rfl := hitems.unique hitems'
    rw [hrun₂]
    exact .inl ⟨m₁, m₂, r.advance n, rfl, rfl, hperm₁.trans hperm₂.symm⟩

end Read

/-! ## Sets and maps -/

namespace Layout

theorem gathers_set [DecidableEq α] (element : Layout α) :
    Gathers (fun s : FiniteSet α => do orDuplicate .set (s.insert? (← element.read)))
      element.read FiniteSet.insert? FiniteSet.elements id .set where
  local_step s := element.clean_read.local.bind fun a => local_orDuplicate _ _
  local_element := element.clean_read.local
  run_step _ _ := rfl
  nodup s := by rw [List.map_id]; exact s.nodup
  refused_iff s a := by rw [List.map_id]; exact FiniteSet.insert?_eq_none_iff
  inserted s a s' h := by rw [FiniteSet.elements_of_insert? h]

/-- A map is read entry by entry, whichever kind of map it is. -/
theorem gathers_map {key : Layout κ} {value : Layout ν} {insert? : μ → κ → ν → Option μ}
    {entries : μ → List (κ × ν)} (hnodup : ∀ m, ((entries m).map Prod.fst).Nodup)
    (hrefused : ∀ m k v, insert? m k v = none ↔ k ∈ (entries m).map Prod.fst)
    (hinserted : ∀ m k v m', insert? m k v = some m' →
      (entries m').Perm (entries m ++ [(k, v)])) :
    Gathers (fun m => do
        let k ← key.read
        let v ← value.read
        orDuplicate .map (insert? m k v))
      (key.pair value).read (fun m e => insert? m e.1 e.2) entries Prod.fst .map where
  local_step := local_readEntry key value insert?
  local_element := (key.pair value).clean_read.local
  run_step m src := by
    have hpair : Local (do
        let k ← key.read
        return (k, ← value.read)) :=
      key.clean_read.local.bind fun k => value.clean_read.local.bind_pure _
    have hinsert (e : κ × ν) : Local (orDuplicate .map (insert? m e.1 e.2)) :=
      local_orDuplicate _ _
    rw [read, run_atomic_bind hpair hinsert]
    simp only [bind_assoc, pure_bind]
  nodup := hnodup
  refused_iff m e := hrefused m e.1 e.2
  inserted m e := hinserted m e.1 e.2

theorem distinct_set [DecidableEq α] (element : Layout α) :
    Distinct (Read.value (.set element)) FiniteSet.elements element.read element.minSize id .set :=
  (gathers_set element).distinct .empty (set element).clean_read.local rfl fun src => by
    rw [Read.value, run_atomic, read, run_atomic]

theorem gathers_finiteMap [DecidableEq κ] (key : Layout κ) (value : Layout ν) :
    Gathers (fun m : FiniteMap κ ν => do
        let k ← key.read
        let v ← value.read
        orDuplicate .map (m.insert? k v))
      (key.pair value).read (fun m e => m.insert? e.1 e.2) FiniteMap.entries Prod.fst .map :=
  gathers_map FiniteMap.nodup (fun _ _ _ => FiniteMap.insert?_eq_none_iff)
    fun _ _ _ _ h => by rw [FiniteMap.entries_of_insert? h]

theorem gathers_orderedMap [Ord κ] [Std.TransOrd κ] [Std.LawfulEqOrd κ] (key : Layout κ)
    (value : Layout ν) :
    Gathers (fun m : OrderedMap κ ν => do
        let k ← key.read
        let v ← value.read
        orDuplicate .map (m.insert? k v))
      (key.pair value).read (fun m e => m.insert? e.1 e.2) OrderedMap.entries Prod.fst .map :=
  gathers_map nodup_of_increasing (fun _ _ _ => OrderedMap.insert?_eq_none_iff)
    fun _ _ _ _ h => OrderedMap.perm_of_place? (OrderedMap.entries_of_insert? h)

theorem distinct_map [DecidableEq κ] (key : Layout κ) (value : Layout ν) :
    Distinct (Read.value (.map key value)) FiniteMap.entries (key.pair value).read
      (key.minSize + value.minSize) Prod.fst .map :=
  (gathers_finiteMap key value).distinct
    .empty (map key value).clean_read.local rfl fun src => by
      rw [Read.value, run_atomic, read, run_atomic]

theorem distinct_orderedMap [Ord κ] [Std.TransOrd κ] [Std.LawfulEqOrd κ] (key : Layout κ)
    (value : Layout ν) :
    Distinct (Read.value (.orderedMap key value)) OrderedMap.entries (key.pair value).read
      (key.minSize + value.minSize) Prod.fst .map :=
  (gathers_orderedMap key value).distinct
    .empty (orderedMap key value).clean_read.local rfl fun src => by
      rw [Read.value, run_atomic, read, run_atomic]

/-! ## Ordered maps on the wire -/

open Write (output output_bind_of_error output_bind_of_ok)

theorem output_each_congr {write write' : α → WriteM Unit} (hwrite : ∀ a, Write.Local (write a))
    (hwrite' : ∀ a, Write.Local (write' a)) (h : ∀ a, output (write a) = output (write' a))
    (values : List α) : output (Write.each write values) = output (Write.each write' values) := by
  induction values with
  | nil => rfl
  | cons a values ih =>
    show output (write a >>= fun _ => Write.each write values) =
      output (write' a >>= fun _ => Write.each write' values)
    cases hfirst : output (write a) with
    | error e =>
      rw [output_bind_of_error hfirst, output_bind_of_error (h a ▸ hfirst)]
    | ok answer =>
      rw [output_bind_of_ok (hwrite a) (Write.Local.each hwrite values) hfirst,
        output_bind_of_ok (hwrite' a) (Write.Local.each hwrite' values) (h a ▸ hfirst), ih]

/-- An ordered map is written as the list of its entries. -/
theorem output_write_orderedMap [Ord κ] [Std.TransOrd κ] [Std.LawfulEqOrd κ] (key : Layout κ)
    (value : Layout ν) (m : OrderedMap κ ν) :
    output ((orderedMap key value).write m) = output ((list (key.pair value)).write m.entries) := by
  have hentry := local_writeEntry key value
  have hpair := (key.pair value).local_write
  have heach := output_each_congr hentry hpair (fun e => (Write.output_atomic _).symm) m.entries
  rw [write, write, Write.output_atomic, Write.output_atomic]
  cases hcount : output (Write.count m.entries.length) with
  | error e => rw [output_bind_of_error hcount, output_bind_of_error hcount]
  | ok answer =>
    rw [output_bind_of_ok (Write.local_count _) (Write.Local.each hentry _) hcount,
      output_bind_of_ok (Write.local_count _) (Write.Local.each hpair _) hcount, heach]

/-- Maps and sets are read from just the bytes that list their items without a repeated key, hold
these items, and fail otherwise with the first trouble in reading order, the cursor where it was:
`Distinct` says so. Unordered and ordered maps are read alike. An ordered map is written as the list
of its entries, whose keys increase, and so by its contents alone. -/
theorem decodes_distinct [DecidableEq α] [DecidableEq κ] [Ord κ] [Std.TransOrd κ]
    [Std.LawfulEqOrd κ] (key : Layout κ) (value : Layout ν) (element : Layout α) :
    Distinct (Read.value (.map key value)) FiniteMap.entries (key.pair value).read
      (key.minSize + value.minSize) Prod.fst .map ∧
    Distinct (Read.value (.orderedMap key value)) OrderedMap.entries (key.pair value).read
      (key.minSize + value.minSize) Prod.fst .map ∧
    Distinct (Read.value (.set element)) FiniteSet.elements element.read element.minSize id .set ∧
    (∀ r : Reader, r.Valid →
      (∃ m m' r', Read.value (.map key value) r = .ok m r' ∧
        Read.value (.orderedMap key value) r = .ok m' r' ∧ m.entries.Perm m'.entries) ∨
      ∃ e, Read.value (.map key value) r = .error e r ∧
        Read.value (.orderedMap key value) r = .error e r) ∧
    ∀ m : OrderedMap κ ν, (m.entries.map Prod.fst).Pairwise (compare · · = .lt) ∧
      output ((orderedMap key value).write m) =
        output ((list (key.pair value)).write m.entries) ∧
      ∀ m' : OrderedMap κ ν, (∀ e, e ∈ m.entries ↔ e ∈ m'.entries) →
        (orderedMap key value).write m = (orderedMap key value).write m' := by
  have hmap := distinct_map key value
  have hordered := distinct_orderedMap key value
  refine ⟨hmap, hordered, distinct_set element, fun r hr => hmap.agree hordered hr,
    fun m => ⟨m.increasing, output_write_orderedMap key value m, fun m' hmem => ?_⟩⟩
  rw [OrderedMap.eq_of_mem_iff hmem]

/-- A map of two entries under one key is refused, after both values. -/
theorem decodes_distinct_repeated :
    run (Read.value (.map .u8 .u16)) [2, 0, 0, 0, 7, 1, 0, 7, 2, 0] =
      .error (.duplicateKey .map) := by
  have hmaps := (decodes_distinct .u8 .u16 .bool).1
  refine (hmaps.error_iff _ _).mpr
    (.inr ⟨2, rfl, 1, by decide, [(7, 1)], 3, rfl, by decide, .inr ?_⟩)
  exact ⟨(7, 2), 3, rfl, by decide, rfl⟩

end Layout

end ChatCodec
