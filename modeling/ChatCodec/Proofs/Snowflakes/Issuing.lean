import ChatCodec.Proofs.Snowflakes.Fields
import ChatCodec.Snowflake.Generator
import Mathlib.Data.Nat.Find

/-!
# Identifiers only grow

A generator keeps the millisecond and the sequence number of its last identifier, so its state is an
identifier as well, `Generator.last`. Every call passes from one to a greater one: either the
millisecond grows, or it stays and the sequence grows without running over. The clock decides which,
but whatever it shows, standing still and stepping back included, the order does not depend on it.

A call looks at as many readings as it needs. All but one kind of call look at a single one; when
the sequence of a millisecond is used up a call waits for a later reading, which may never come.

* `Generator.Sound` — the state fits the fields of an identifier;
* `Generator.Reaches` — where a generator and its clock stand after some calls;
* `Generator.WaitsEnd` — each wait of the first calls sees a later reading;
* `Ascending` — what the identifiers of a worker are like.

One lemma says what a call does (`Generator.next?_cases`), one what that means for the order
(`Generator.Sound.next?`), and inductions over the calls what a run does. Main result:
`Generator.ascending_of_clock`.
-/

namespace ChatCodec.Snowflake

/-- Identifiers of a worker in the order in which they were issued. -/
structure Ascending (worker : UInt16) (ids : List Snowflake) : Prop where
  raw_lt : ids.Pairwise fun earlier later => earlier.raw < later.raw
  millis_le : ids.Pairwise fun earlier later => earlier.millis ≤ later.millis
  ne_none : ∀ id ∈ ids, id ≠ .none
  /-- Each carries the worker number cut to ten bits. -/
  worker_eq : ∀ id ∈ ids, id.worker.toNat = worker.toNat % 2 ^ 10

namespace Generator

variable {g g' g₀ : Generator} {id : Snowflake} {readings rest : List UInt64} {count : Nat}

/-- The last identifier issued; before the first, one that all others come after. -/
def last (g : Generator) : Snowflake :=
  ofParts g.lastMillis g.worker g.lastSequence.toUInt16

/-- The sequence of the last millisecond is used up. -/
def IsFull (g : Generator) : Prop :=
  (g.lastSequence + 1) &&& sequenceMask = 0

/-! ## One call -/

theorem next?_later {reading : UInt64} (h : g.lastMillis < reading) (rest : List UInt64) :
    g.next? (reading :: rest) = some (next?.issue g reading 0 rest) := by
  rw [next?, if_pos h]

theorem next?_same {reading : UInt64} (h : reading ≤ g.lastMillis) (hfull : ¬ g.IsFull)
    (rest : List UInt64) : g.next? (reading :: rest) =
      some (next?.issue g g.lastMillis ((g.lastSequence + 1) &&& sequenceMask) rest) := by
  rw [next?, if_neg (UInt64.not_lt.mpr h)]
  exact if_neg hfull

theorem next?_wait {reading : UInt64} (h : reading ≤ g.lastMillis) (hfull : g.IsFull)
    (rest : List UInt64) : g.next? (reading :: rest) =
      match rest.dropWhile (· ≤ g.lastMillis) with
      | [] => none
      | later :: rest => some (next?.issue g later 0 rest) := by
  rw [next?, if_neg (UInt64.not_lt.mpr h)]
  exact if_pos hfull

/-- A call that waits passes over all readings up to the first later one. -/
theorem next?_waited {reading later : UInt64} {waiting : List UInt64} (h : reading ≤ g.lastMillis)
    (hfull : g.IsFull) (hwaiting : ∀ r ∈ waiting, r ≤ g.lastMillis) (hlater : g.lastMillis < later)
    (rest : List UInt64) : g.next? (reading :: (waiting ++ later :: rest)) =
      some (next?.issue g later 0 rest) := by
  rw [next?_wait h hfull, List.dropWhile_append_of_pos (by simpa using hwaiting),
    List.dropWhile_cons_of_neg (by simpa using hlater)]

/-- All that a call can do: it issues an identifier of a later millisecond that the clock has shown,
or the next one of the last millisecond. -/
theorem next?_cases (h : g.next? readings = some (id, g', rest)) :
    id = g'.last ∧ g'.worker = g.worker ∧ rest <:+ readings ∧
      ((g.lastMillis < g'.lastMillis ∧ g'.lastMillis ∈ readings ∧ g'.lastSequence = 0) ∨
        (g'.lastMillis = g.lastMillis ∧ ¬ g.IsFull ∧
          g'.lastSequence = (g.lastSequence + 1) &&& sequenceMask)) := by
  cases readings with
  | nil => cases h
  | cons reading tail =>
    by_cases hlater : g.lastMillis < reading
    · rw [next?_later hlater] at h
      cases h
      exact ⟨rfl, rfl, List.suffix_cons _ _, .inl ⟨hlater, List.mem_cons_self, rfl⟩⟩
    have hle := UInt64.not_lt.mp hlater
    by_cases hfull : g.IsFull
    · rw [next?_wait hle hfull] at h
      have hhead := List.head?_dropWhile_not (· ≤ g.lastMillis) tail
      have hsuffix : tail.dropWhile (· ≤ g.lastMillis) <:+ tail := List.dropWhile_suffix _
      split at h
      · cases h
      · next later behind hdrop =>
        cases h
        rw [hdrop] at hhead hsuffix
        have hlast : g.lastMillis < later := by simpa using hhead
        have hmem : later ∈ tail := hsuffix.subset List.mem_cons_self
        exact ⟨rfl, rfl, ((List.suffix_cons _ _).trans hsuffix).trans (List.suffix_cons _ _),
          .inl ⟨hlast, List.mem_cons_of_mem _ hmem, rfl⟩⟩
    · rw [next?_same hle hfull] at h
      cases h
      exact ⟨rfl, rfl, List.suffix_cons _ _, .inr ⟨rfl, hfull, rfl⟩⟩

/-- A call does not see the readings behind those it looks at. -/
theorem next?_append (h : g.next? readings = some (id, g', rest)) (more : List UInt64) :
    g.next? (readings ++ more) = some (id, g', rest ++ more) := by
  cases readings with
  | nil => cases h
  | cons reading tail =>
    rw [List.cons_append]
    by_cases hlater : g.lastMillis < reading
    · rw [next?_later hlater] at h ⊢
      cases h
      rfl
    have hle := UInt64.not_lt.mp hlater
    by_cases hfull : g.IsFull
    · rw [next?_wait hle hfull] at h ⊢
      split at h
      · cases h
      · next later behind hdrop =>
        cases h
        rw [List.dropWhile_append, hdrop]
        rfl
    · rw [next?_same hle hfull] at h ⊢
      cases h
      rfl

/-! ## The order -/

/-- The state fits the fields of an identifier. -/
structure Sound (g : Generator) : Prop where
  millis_lt : g.lastMillis.toNat < 2 ^ 42
  sequence_lt : g.lastSequence.toNat < 2 ^ 12

theorem sound_ofWorker (worker : UInt16) : (ofWorker worker).Sound :=
  ⟨Nat.two_pow_pos 42, Nat.two_pow_pos 12⟩

theorem toNat_succ_sequence (hg : g.Sound) :
    ((g.lastSequence + 1) &&& sequenceMask).toNat = (g.lastSequence.toNat + 1) % 2 ^ 12 := by
  have hlt := hg.sequence_lt
  rw [toNat_and_mask (k := 12) rfl, UInt64.toNat_add]
  show (g.lastSequence.toNat + 1) % 2 ^ 64 % 2 ^ 12 = _
  omega

/-- The sequence is used up when its last number is taken. -/
theorem Sound.isFull_iff (hg : g.Sound) : g.IsFull ↔ g.lastSequence.toNat = 2 ^ 12 - 1 := by
  have hlt := hg.sequence_lt
  rw [IsFull, ← UInt64.toNat_inj, toNat_succ_sequence hg]
  show _ = 0 ↔ _
  omega

theorem Sound.toNat_last (hg : g.Sound) :
    g.last.raw.toNat = 2 ^ 22 * g.lastMillis.toNat +
      (2 ^ 12 * (g.worker.toNat % 2 ^ 10) + g.lastSequence.toNat) := by
  have hlt := hg.sequence_lt
  rw [last, toNat_ofParts hg.millis_lt, UInt64.toNat_toUInt16]
  omega

/-- Every call passes to a greater identifier, of the same millisecond or a later one. -/
theorem Sound.next? (hg : g.Sound) (hreadings : ∀ reading ∈ readings, reading.toNat < 2 ^ 42)
    (h : g.next? readings = some (id, g', rest)) :
    g'.Sound ∧ g.last.raw < g'.last.raw ∧ g.lastMillis ≤ g'.lastMillis := by
  obtain ⟨-, hworker, -, hcases⟩ := next?_cases h
  have hsequence := hg.sequence_lt
  rw [UInt64.lt_iff_toNat_lt, hg.toNat_last, UInt64.le_iff_toNat_le]
  rcases hcases with ⟨hlater, hmem, hzero⟩ | ⟨hsame, hfull, hsucc⟩
  · -- a later millisecond outweighs the worker and any sequence
    have hg' : g'.Sound := ⟨hreadings _ hmem, by rw [hzero]; decide⟩
    rw [UInt64.lt_iff_toNat_lt] at hlater
    rw [hg'.toNat_last]
    exact ⟨hg', by omega, by omega⟩
  · -- in the same millisecond the sequence grows, since it has not run over
    have hgrown : g'.lastSequence.toNat = g.lastSequence.toNat + 1 := by
      rw [hg.isFull_iff] at hfull
      rw [hsucc, toNat_succ_sequence hg]
      omega
    rw [hg.isFull_iff] at hfull
    have hg' : g'.Sound := ⟨hsame ▸ hg.millis_lt, by omega⟩
    rw [hg'.toNat_last, hsame, hworker]
    exact ⟨hg', by omega, Nat.le_refl _⟩

/-! ## Many calls -/

theorem take_succ (h : g.next? readings = some (id, g', rest)) (count : Nat) :
    g.take (count + 1) readings = id :: g'.take count rest := by
  rw [take, h]

/-- What is issued after a state is greater than its last identifier, and of no earlier
millisecond. -/
theorem Sound.of_mem_take (hg : g.Sound) (hreadings : ∀ reading ∈ readings, reading.toNat < 2 ^ 42)
    (hid : id ∈ g.take count readings) :
    g.last.raw < id.raw ∧ g.lastMillis ≤ id.millis ∧
      id.worker.toNat = g.worker.toNat % 2 ^ 10 := by
  induction count generalizing g readings with
  | zero => cases hid
  | succ count ih =>
    cases hnext : g.next? readings with
    | none =>
      rw [take, hnext] at hid
      cases hid
    | some answer =>
      obtain ⟨first, g', rest⟩ := answer
      obtain ⟨hfirst, hworker, hsuffix, -⟩ := next?_cases hnext
      obtain ⟨hg', hlt, hle⟩ := hg.next? hreadings hnext
      rw [take_succ hnext] at hid
      rcases List.mem_cons.mp hid with rfl | hid
      · rw [hfirst]
        refine ⟨hlt, ?_, ?_⟩
        · rw [last, millis_ofParts hg'.millis_lt]
          exact hle
        · rw [last, worker_ofParts hg'.millis_lt, hworker]
      · obtain ⟨hlt', hle', hworker'⟩ := ih hg' (fun r hr => hreadings r (hsuffix.subset hr)) hid
        exact ⟨UInt64.lt_trans hlt hlt', UInt64.le_trans hle hle', hworker ▸ hworker'⟩

theorem Sound.pairwise_take (hg : g.Sound)
    (hreadings : ∀ reading ∈ readings, reading.toNat < 2 ^ 42) (count : Nat) :
    (g.take count readings).Pairwise fun earlier later =>
      earlier.raw < later.raw ∧ earlier.millis ≤ later.millis := by
  induction count generalizing g readings with
  | zero => exact .nil
  | succ count ih =>
    cases hnext : g.next? readings with
    | none =>
      rw [take, hnext]
      exact .nil
    | some answer =>
      obtain ⟨first, g', rest⟩ := answer
      obtain ⟨hfirst, -, hsuffix, -⟩ := next?_cases hnext
      obtain ⟨hg', -, -⟩ := hg.next? hreadings hnext
      have hrest : ∀ reading ∈ rest, reading.toNat < 2 ^ 42 :=
        fun reading hmem => hreadings reading (hsuffix.subset hmem)
      rw [take_succ hnext, List.pairwise_cons]
      refine ⟨fun later hmem => ?_, ih hg' hrest⟩
      -- the first identifier is the last one of the state that the others come after
      obtain ⟨hlt, hle, -⟩ := hg'.of_mem_take hrest hmem
      rw [hfirst, last, millis_ofParts hg'.millis_lt]
      exact ⟨hlt, hle⟩

/-- However the clock goes, the identifiers of one generator ascend. -/
theorem ascending_take (worker : UInt16)
    (hreadings : ∀ reading ∈ readings, reading.toNat < 2 ^ 42) (count : Nat) :
    Ascending worker ((ofWorker worker).take count readings) := by
  have hsound := sound_ofWorker worker
  have hpairs := hsound.pairwise_take hreadings count
  refine ⟨hpairs.imp And.left, hpairs.imp And.right, fun id hid hnone => ?_, fun id hid => ?_⟩
  · obtain ⟨hlt, -, -⟩ := hsound.of_mem_take hreadings hid
    rw [hnone] at hlt
    exact UInt64.not_lt_zero hlt
  · obtain ⟨-, -, hworker⟩ := hsound.of_mem_take hreadings hid
    rw [hworker, ofWorker, toNat_workerMask_and, Nat.mod_mod]

/-! ## Calls that return -/

/-- The readings of a clock from one on. -/
def readingsFrom (clock : Nat → UInt64) (start len : Nat) : List UInt64 :=
  (List.range' start len).map clock

/-- After so many calls the generator is in this state, and the clock has given so many readings. -/
inductive Reaches (clock : Nat → UInt64) (g₀ : Generator) : Nat → Nat → Generator → Prop
  | start : Reaches clock g₀ 0 0 g₀
  | call {calls n len : Nat} {g g' : Generator} {id : Snowflake} (h : Reaches clock g₀ calls n g)
      (hnext : g.next? (readingsFrom clock n len) = some (id, g', [])) :
      Reaches clock g₀ (calls + 1) (n + len) g'

/-- Each of the first `count` calls that waits for a later reading sees one. -/
def WaitsEnd (clock : Nat → UInt64) (g₀ : Generator) (count : Nat) : Prop :=
  ∀ calls n g, calls < count → Reaches clock g₀ calls n g → g.IsFull → clock n ≤ g.lastMillis →
    ∃ m, n < m ∧ g.lastMillis < clock m

variable {clock : Nat → UInt64}

theorem readingsFrom_add (clock : Nat → UInt64) (start len more : Nat) :
    readingsFrom clock start (len + more) =
      readingsFrom clock start len ++ readingsFrom clock (start + len) more := by
  rw [readingsFrom, readingsFrom, readingsFrom, ← List.map_append]
  congr 1
  have happend : List.range' start len ++ List.range' (start + 1 * len) more =
      List.range' start (len + more) := List.range'_append
  rw [Nat.one_mul] at happend
  exact happend.symm

theorem mem_readingsFrom {start len : Nat} {reading : UInt64} :
    reading ∈ readingsFrom clock start len ↔ ∃ k, k < len ∧ clock (start + k) = reading := by
  rw [readingsFrom, List.mem_map]
  constructor
  · rintro ⟨m, hm, rfl⟩
    rw [List.mem_range'_1] at hm
    exact ⟨m - start, by omega, by rw [Nat.add_sub_cancel' hm.1]⟩
  · rintro ⟨k, hk, rfl⟩
    exact ⟨start + k, List.mem_range'_1.mpr ⟨by omega, by omega⟩, rfl⟩

theorem lt_of_mem_readingsFrom (hclock : ∀ n, (clock n).toNat < 2 ^ 42) {start len : Nat} :
    ∀ reading ∈ readingsFrom clock start len, reading.toNat < 2 ^ 42 := by
  intro reading hmem
  obtain ⟨k, -, rfl⟩ := mem_readingsFrom.mp hmem
  exact hclock _

/-- A call returns if its wait, should it have to wait, sees a later reading. -/
theorem exists_next? {n : Nat} (hwait : g.IsFull → clock n ≤ g.lastMillis →
      ∃ m, n < m ∧ g.lastMillis < clock m) :
    ∃ len id g', g.next? (readingsFrom clock n len) = some (id, g', []) := by
  by_cases hlater : g.lastMillis < clock n
  · exact ⟨1, _, _, next?_later hlater []⟩
  have hle := UInt64.not_lt.mp hlater
  by_cases hfull : g.IsFull
  · -- the call looks at all readings up to the first later one
    have hsome : ∃ k, g.lastMillis < clock (n + 1 + k) := by
      obtain ⟨m, hlt, hm⟩ := hwait hfull hle
      exact ⟨m - (n + 1), by rwa [Nat.add_sub_cancel' hlt]⟩
    have hwaiting : ∀ r ∈ readingsFrom clock (n + 1) (Nat.find hsome), r ≤ g.lastMillis := by
      intro r hr
      obtain ⟨k, hk, rfl⟩ := mem_readingsFrom.mp hr
      exact UInt64.not_lt.mp (Nat.find_min hsome hk)
    have hreadings : readingsFrom clock n (1 + (Nat.find hsome + 1)) = clock n ::
        (readingsFrom clock (n + 1) (Nat.find hsome) ++ [clock (n + 1 + Nat.find hsome)]) := by
      rw [readingsFrom_add, readingsFrom_add]
      rfl
    have hnext := next?_waited hle hfull hwaiting (Nat.find_spec hsome) []
    exact ⟨_, _, _, hreadings ▸ hnext⟩
  · exact ⟨1, _, _, next?_same hle hfull []⟩

/-- As many calls return as see their waits end. -/
theorem exists_take {calls n : Nat} (h : Reaches clock g₀ calls n g)
    (hwaits : WaitsEnd clock g₀ (calls + count)) :
    ∃ len, (g.take count (readingsFrom clock n len)).length = count := by
  induction count generalizing calls n g with
  | zero => exact ⟨0, rfl⟩
  | succ count ih =>
    obtain ⟨len, id, g', hnext⟩ := exists_next? (hwaits calls n g (by omega) h)
    obtain ⟨len', hlength⟩ := ih (h.call hnext) (by rwa [Nat.add_right_comm])
    refine ⟨len + len', ?_⟩
    rw [readingsFrom_add, take_succ (next?_append hnext _), List.nil_append, List.length_cons,
      hlength]

/-- Once all identifiers are there, more readings make no difference. -/
theorem take_append (h : (g.take count readings).length = count) (more : List UInt64) :
    g.take count (readings ++ more) = g.take count readings := by
  induction count generalizing g readings with
  | zero => rfl
  | succ count ih =>
    cases hnext : g.next? readings with
    | none =>
      rw [take, hnext] at h
      cases h
    | some answer =>
      obtain ⟨id, g', rest⟩ := answer
      rw [take_succ hnext, List.length_cons] at h
      rw [take_succ hnext, take_succ (next?_append hnext more), ih (Nat.succ.inj h)]

/-- In so many calls the sequence cannot have got farther. -/
theorem Reaches.sequence_le {calls n : Nat} (h : Reaches clock g₀ calls n g)
    (hclock : ∀ n, (clock n).toNat < 2 ^ 42) (hg₀ : g₀.Sound) (hzero : g₀.lastSequence = 0) :
    g.Sound ∧ g.lastSequence.toNat ≤ calls := by
  induction h with
  | start => exact ⟨hg₀, by rw [hzero]; exact Nat.le_refl 0⟩
  | call _ hnext ih =>
    obtain ⟨hsound, hle⟩ := ih
    refine ⟨(hsound.next? (lt_of_mem_readingsFrom hclock) hnext).1, ?_⟩
    obtain ⟨-, -, -, ⟨-, -, hfirst⟩ | ⟨-, -, hsucc⟩⟩ := next?_cases hnext
    · rw [hfirst]
      exact Nat.zero_le _
    · rw [hsucc, toNat_succ_sequence hsound]
      omega

/-- There are 4096 sequence numbers, so before that many calls none has to wait. -/
theorem waitsEnd_of_lt (worker : UInt16) (hclock : ∀ n, (clock n).toNat < 2 ^ 42)
    (hcount : count < 2 ^ 12) : WaitsEnd clock (ofWorker worker) count := by
  intro calls n g hcalls h hfull
  obtain ⟨hsound, hle⟩ := h.sequence_le hclock (sound_ofWorker worker) rfl
  rw [hsound.isFull_iff] at hfull
  omega

/-- Whatever the clock of a generator shows below 2^42, standing still, jumping ahead or stepping
back, the identifiers it issues ascend: they grow as numbers, their milliseconds never fall, none of
them is the one that names nothing, and all carry the worker cut to ten bits. If each wait of the
first `count` calls sees a later reading, so many identifiers are issued. -/
theorem ascending_of_clock (worker : UInt16) (clock : Nat → UInt64)
    (hclock : ∀ n, (clock n).toNat < 2 ^ 42) (count : Nat) :
    (∀ len, Ascending worker ((ofWorker worker).take count (readingsFrom clock 0 len))) ∧
    (WaitsEnd clock (ofWorker worker) count →
      ∃ ids len, ids.length = count ∧ Ascending worker ids ∧
        ∀ more, (ofWorker worker).take count (readingsFrom clock 0 (len + more)) = ids) := by
  have hascending (len : Nat) :
      Ascending worker ((ofWorker worker).take count (readingsFrom clock 0 len)) :=
    ascending_take worker (lt_of_mem_readingsFrom hclock) count
  refine ⟨hascending, fun hwaits => ?_⟩
  obtain ⟨len, hlength⟩ := exists_take (.start) (by rwa [Nat.zero_add])
  refine ⟨_, len, hlength, hascending len, fun more => ?_⟩
  rw [readingsFrom_add, take_append hlength]

/-- A clock that steps back after its first reading: the second identifier keeps the millisecond and
takes the next sequence number, the third is of the next millisecond. -/
theorem ascending_of_clock_back :
    let clock : Nat → UInt64 := fun n => if n = 0 then 100 else if n = 1 then 90 else 101
    (∀ n, (clock n).toNat < 2 ^ 42) ∧ WaitsEnd clock (ofWorker 0xffff) 3 ∧
      (ofWorker 0xffff).take 3 (readingsFrom clock 0 3) =
        [ofParts 100 1023 0, ofParts 100 1023 1, ofParts 101 1023 0] ∧
      Ascending 0xffff ((ofWorker 0xffff).take 3 (readingsFrom clock 0 3)) ∧
      ∃ ids len, ids.length = 3 ∧ Ascending 0xffff ids ∧
        ∀ more, (ofWorker 0xffff).take 3 (readingsFrom clock 0 (len + more)) = ids := by
  intro clock
  have hclock : ∀ n, (clock n).toNat < 2 ^ 42 := by
    intro n
    simp only [clock]
    split
    · decide
    · split <;> decide
  have hwaits : WaitsEnd clock (ofWorker 0xffff) 3 := waitsEnd_of_lt _ hclock (by decide)
  obtain ⟨hascending, hissued⟩ := ascending_of_clock 0xffff clock hclock 3
  exact ⟨hclock, hwaits, by decide, hascending 3, hissued hwaits⟩

end Generator

end ChatCodec.Snowflake
