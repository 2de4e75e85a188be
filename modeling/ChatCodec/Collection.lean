/-!
# Collections without repetition

Sets and maps as the lists that are written to the wire:

* `FiniteSet α` — distinct elements in some order;
* `FiniteMap κ ν` — entries with distinct keys in some order;
* `OrderedMap κ ν` — entries in strictly increasing order of their keys, so that equal contents
  make equal maps.

Each has an `insert?` that refuses an element or key already there, which is how a collection is
built while its entries arrive. `ofList?` builds one from a whole list.
-/

namespace ChatCodec

/-- A finite set, listed in some order. -/
structure FiniteSet (α : Type) where
  elements : List α
  nodup : elements.Nodup
  deriving DecidableEq, Repr

/-- A finite map, its entries listed in some order. -/
structure FiniteMap (κ ν : Type) where
  entries : List (κ × ν)
  nodup : (entries.map Prod.fst).Nodup
  deriving DecidableEq, Repr

/-- A finite map, its entries in strictly increasing order of keys. -/
structure OrderedMap (κ ν : Type) [Ord κ] where
  entries : List (κ × ν)
  increasing : (entries.map Prod.fst).Pairwise (compare · · = .lt)
  deriving DecidableEq

namespace FiniteSet

variable {α : Type} [DecidableEq α]

def empty : FiniteSet α := ⟨[], .nil⟩

/-- Adds an element at the end, unless the set has it. -/
def insert? (s : FiniteSet α) (a : α) : Option (FiniteSet α) :=
  if h : a ∈ s.elements then
    none
  else
    some ⟨s.elements ++ [a], List.nodup_append.mpr
      ⟨s.nodup, by simp, fun x hx y hy hxy => h (by simp_all)⟩⟩

/-- The set of the listed elements, if none is repeated. -/
def ofList? (elements : List α) : Option (FiniteSet α) :=
  elements.foldlM insert? empty

end FiniteSet

namespace FiniteMap

variable {κ ν : Type} [DecidableEq κ]

def empty : FiniteMap κ ν := ⟨[], .nil⟩

/-- Adds an entry at the end, unless the map has its key. -/
def insert? (m : FiniteMap κ ν) (key : κ) (value : ν) : Option (FiniteMap κ ν) :=
  if h : key ∈ m.entries.map Prod.fst then
    none
  else
    some ⟨m.entries ++ [(key, value)], by
      rw [List.map_append, List.nodup_append]
      exact ⟨m.nodup, by simp, fun x hx y hy hxy => h (by simp_all)⟩⟩

/-- The map of the listed entries, if no key is repeated. -/
def ofList? (entries : List (κ × ν)) : Option (FiniteMap κ ν) :=
  entries.foldlM (fun m e => m.insert? e.1 e.2) empty

end FiniteMap

namespace OrderedMap

variable {κ ν : Type} [Ord κ]

def empty : OrderedMap κ ν := ⟨[], .nil⟩

/-- Places an entry before the first larger key; `none` if its key is there. -/
def place? (key : κ) (value : ν) : List (κ × ν) → Option (List (κ × ν))
  | [] => some [(key, value)]
  | entry :: rest =>
    match compare key entry.1 with
    | .lt => some ((key, value) :: entry :: rest)
    | .eq => none
    | .gt => (place? key value rest).map (entry :: ·)

theorem fst_mem_of_place? {key : κ} {value : ν} {entries placed : List (κ × ν)}
    (h : place? key value entries = some placed) {k : κ} (hk : k ∈ placed.map Prod.fst) :
    k = key ∨ k ∈ entries.map Prod.fst := by
  induction entries generalizing placed with
  | nil =>
    cases h
    simpa using hk
  | cons entry rest ih =>
    rw [place?] at h
    split at h
    · -- placed before the head
      cases h
      simpa using hk
    · -- the key is there already
      cases h
    · -- placed in the tail
      obtain ⟨tail, ht, rfl⟩ := Option.map_eq_some_iff.mp h
      rcases List.mem_cons.mp hk with rfl | hk
      · simp
      · rcases ih ht hk with rfl | hk
        · exact .inl rfl
        · exact .inr (List.mem_cons_of_mem _ hk)

theorem increasing_of_place? [Std.TransOrd κ] {key : κ} {value : ν}
    {entries placed : List (κ × ν)}
    (hinc : (entries.map Prod.fst).Pairwise (compare · · = .lt))
    (h : place? key value entries = some placed) :
    (placed.map Prod.fst).Pairwise (compare · · = .lt) := by
  induction entries generalizing placed with
  | nil =>
    cases h
    simp
  | cons entry rest ih =>
    rw [List.map_cons, List.pairwise_cons] at hinc
    rw [place?] at h
    split at h
    · -- placed before the head, which is below the rest
      rename_i hlt
      cases h
      rw [List.map_cons, List.map_cons, List.pairwise_cons, List.pairwise_cons]
      refine ⟨fun k hk => ?_, hinc⟩
      rcases List.mem_cons.mp hk with rfl | hk
      · exact hlt
      · exact Std.TransCmp.lt_trans hlt (hinc.1 k hk)
    · cases h
    · -- placed in the tail: the head is below the key and below the tail
      rename_i hgt
      obtain ⟨tail, ht, rfl⟩ := Option.map_eq_some_iff.mp h
      rw [List.map_cons, List.pairwise_cons]
      refine ⟨fun k hk => ?_, ih hinc.2 ht⟩
      rcases fst_mem_of_place? ht hk with rfl | hk
      · exact Std.OrientedCmp.lt_of_gt hgt
      · exact hinc.1 k hk

/-- Adds an entry in its place, unless the map has its key. -/
def insert? [Std.TransOrd κ] (m : OrderedMap κ ν) (key : κ) (value : ν) :
    Option (OrderedMap κ ν) :=
  match h : place? key value m.entries with
  | some entries => some ⟨entries, increasing_of_place? m.increasing h⟩
  | none => none

/-- The map of the listed entries, if no key is repeated. -/
def ofList? [Std.TransOrd κ] (entries : List (κ × ν)) : Option (OrderedMap κ ν) :=
  entries.foldlM (fun m e => m.insert? e.1 e.2) empty

end OrderedMap

end ChatCodec
