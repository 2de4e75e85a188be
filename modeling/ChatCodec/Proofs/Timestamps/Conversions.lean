import ChatCodec.Timestamp

/-!
# Conversions of timestamps

Timestamps are made of milliseconds of Unix time and of instants of the system clock, and turned
back into them. On the way a product, a distance from the Unix epoch and a sum with it may each
leave the 64-bit range, where the one direction stops at the end of the range and the other answers
nothing.

Seen as integers a conversion is exact between two bounds: `toInt_ofUnixMillis` and
`toInt_ofInstant` say what is stored, `unixMillis?_eq_some_iff` and `toInstant?_eq_some_iff` what
is given back and when. The main results follow by arithmetic.

* `ofUnixMillis_le_iff` — the milliseconds of a timestamp are a floor, up to both ends of the range;
* `toInstant?_ofInstant_iff` — an instant comes back just if it lies less than 2^64 nanoseconds
  from the Unix epoch, although the clock reaches farther.
-/

namespace ChatCodec

/-- The nearest 64-bit integer is the integer itself, or the end of the range it lies beyond. -/
theorem toInt_saturate (n : Int) :
    (saturate n).toInt = max Int64.minValue.toInt (min Int64.maxValue.toInt n) := by
  have hmin := Int64.toInt_minValue
  have hmax := Int64.toInt_maxValue
  exact Int64.toInt_ofInt_of_le (by omega) (by omega)

namespace Instant

/-- The instant is stored without stopping at an end of the range: neither its distance from the
Unix epoch in ticks nor the sum with the epoch leaves 64 bits. -/
structure Storable (s : Instant) : Prop where
  distance_le : ((s.nanos.natAbs / 100 : Nat) : Int) ≤ Int64.maxValue.toInt
  sum_le : unixEpochTicks + s.nanos / 100 ≤ Int64.maxValue.toInt

theorem ofNanos?_eq_some_iff {nanos : Int} {s : Instant} :
    ofNanos? nanos = some s ↔ s.nanos = nanos := by
  unfold ofNanos?
  split
  · refine ⟨fun h => by cases h; rfl, fun h => ?_⟩
    cases s
    cases h
    rfl
  · next hfits =>
    refine ⟨fun h => (nomatch h), fun h => ?_⟩
    exact absurd (h ▸ s.seconds_fit) hfits

end Instant

namespace Timestamp

/-! ## The distance from the Unix epoch -/

theorem sinceUnixEpoch?_eq_some_iff {t : Timestamp} {delta : Int64} :
    t.sinceUnixEpoch? = some delta ↔ delta.toInt = t.ticks.toInt - unixEpochTicks := by
  have hmin := Int64.toInt_minValue
  have hticks := t.ticks.toInt_lt
  have hdelta := delta.le_toInt
  -- the epoch is positive, so the distance is never too large
  have hepoch : 0 < unixEpochTicks := by decide
  unfold sinceUnixEpoch?
  dsimp only
  split
  · next hle =>
    have hexact : (Int64.ofInt (t.ticks.toInt - unixEpochTicks)).toInt =
        t.ticks.toInt - unixEpochTicks := Int64.toInt_ofInt_of_le (by omega) (by omega)
    rw [Option.some.injEq, ← Int64.toInt_inj, hexact, eq_comm]
  · next hlt =>
    refine ⟨fun h => (nomatch h), fun h => ?_⟩
    omega

theorem sinceUnixEpoch?_eq_none_iff {t : Timestamp} :
    t.sinceUnixEpoch? = none ↔ t.ticks.toInt - unixEpochTicks < Int64.minValue.toInt := by
  unfold sinceUnixEpoch?
  dsimp only
  split
  · next hle => exact iff_of_false (fun h => nomatch h) (Int.not_lt.mpr hle)
  · next hlt => exact iff_of_true rfl (Int.not_le.mp hlt)

/-! ## Milliseconds -/

theorem toInt_ofUnixMillis (m : Int64) :
    (ofUnixMillis m).ticks.toInt = max Int64.minValue.toInt (min Int64.maxValue.toInt
      (unixEpochTicks + max Int64.minValue.toInt (min Int64.maxValue.toInt
        (ticksPerMilli * m.toInt)))) := by
  rw [ofUnixMillis, toInt_saturate, toInt_saturate, Int.mul_comm]

/-- The milliseconds are the floor of the distance from the Unix epoch, where that fits. -/
theorem unixMillis?_eq_some_iff {t : Timestamp} {q : Int64} :
    t.unixMillis? = some q ↔ Int64.minValue.toInt + unixEpochTicks ≤ t.ticks.toInt ∧
      q.toInt = (t.ticks.toInt - unixEpochTicks) / ticksPerMilli := by
  have hmin := Int64.toInt_minValue
  cases hsince : t.sinceUnixEpoch? with
  | none =>
    have hlt := sinceUnixEpoch?_eq_none_iff.mp hsince
    rw [unixMillis?, hsince]
    refine ⟨fun h => (nomatch h), fun h => ?_⟩
    omega
  | some delta =>
    have hdelta := sinceUnixEpoch?_eq_some_iff.mp hsince
    have hlow := delta.le_toInt
    have hhigh := delta.toInt_lt
    have hquotient : (Int64.ofInt (delta.toInt / ticksPerMilli)).toInt =
        delta.toInt / ticksPerMilli := by
      unfold ticksPerMilli
      exact Int64.toInt_ofInt_of_le (by omega) (by omega)
    have hle : Int64.minValue.toInt + unixEpochTicks ≤ t.ticks.toInt := by omega
    rw [unixMillis?, hsince, Option.map_some, Option.some.injEq, ← Int64.toInt_inj, hquotient,
      hdelta, eq_comm, and_iff_right hle]

/-- Every timestamp whose distance from the Unix epoch fits has milliseconds. -/
theorem exists_unixMillis? {t : Timestamp}
    (hdiff : Int64.minValue.toInt + unixEpochTicks ≤ t.ticks.toInt) :
    ∃ q, t.unixMillis? = some q := by
  have hdelta : ¬ t.ticks.toInt - unixEpochTicks < Int64.minValue.toInt := by omega
  rw [← sinceUnixEpoch?_eq_none_iff] at hdelta
  obtain ⟨delta, hsince⟩ := Option.ne_none_iff_exists'.mp hdelta
  rw [unixMillis?, hsince]
  exact ⟨_, rfl⟩

/-- Where the sum does not stop at the end of the range, the timestamp comes no later than `t` just
if the milliseconds are no more than the floor. A product below the range is no more than any. -/
theorem ticks_ofUnixMillis_le_iff {m q : Int64} {t : Timestamp}
    (hsum : unixEpochTicks + ticksPerMilli * m.toInt ≤ Int64.maxValue.toInt)
    (hq : t.unixMillis? = some q) : (ofUnixMillis m).ticks ≤ t.ticks ↔ m ≤ q := by
  obtain ⟨hdiff, hfloor⟩ := unixMillis?_eq_some_iff.mp hq
  have hmin := Int64.toInt_minValue
  have hmax := Int64.toInt_maxValue
  have hticks := toInt_ofUnixMillis m
  unfold ticksPerMilli at hsum hfloor hticks
  unfold unixEpochTicks at hsum hdiff hfloor hticks
  rw [Int64.le_iff_toInt_le, Int64.le_iff_toInt_le]
  omega

/-- Where neither the product nor the sum stops at an end of the range, nothing is lost. -/
theorem unixMillis?_ofUnixMillis {m : Int64}
    (hsum : unixEpochTicks + ticksPerMilli * m.toInt ≤ Int64.maxValue.toInt)
    (hproduct : Int64.minValue.toInt ≤ ticksPerMilli * m.toInt) :
    (ofUnixMillis m).unixMillis? = some m := by
  have hmin := Int64.toInt_minValue
  have hmax := Int64.toInt_maxValue
  have hticks := toInt_ofUnixMillis m
  rw [unixMillis?_eq_some_iff]
  unfold ticksPerMilli at hsum hproduct hticks ⊢
  unfold unixEpochTicks at hsum hticks ⊢
  omega

theorem ticks_ofUnixMillis_mono {m m' : Int64} (h : m ≤ m') :
    (ofUnixMillis m).ticks ≤ (ofUnixMillis m').ticks := by
  rw [Int64.le_iff_toInt_le] at h ⊢
  rw [toInt_ofUnixMillis, toInt_ofUnixMillis]
  unfold ticksPerMilli
  omega

/-- Milliseconds of Unix time and ticks are converted exactly. Between the points where the sum and
the difference with the epoch leave the 64-bit range, the milliseconds of a timestamp are a floor,
and the last ones whose timestamp does not come later, also where the product has stopped at the
end of the range. Milliseconds whose product fits come back, and later ones never become earlier
timestamps. -/
theorem ofUnixMillis_le_iff :
    (∀ m t : Int64, unixEpochTicks + ticksPerMilli * m.toInt ≤ Int64.maxValue.toInt →
      Int64.minValue.toInt + unixEpochTicks ≤ t.toInt →
      ∃ q, (Timestamp.mk t).unixMillis? = some q ∧
        q.toInt = (t.toInt - unixEpochTicks) / ticksPerMilli ∧
        ((ofUnixMillis m).ticks ≤ t ↔ m ≤ q)) ∧
    (∀ m : Int64, unixEpochTicks + ticksPerMilli * m.toInt ≤ Int64.maxValue.toInt →
      Int64.minValue.toInt ≤ ticksPerMilli * m.toInt →
      (ofUnixMillis m).unixMillis? = some m) ∧
    ∀ m m' : Int64, m ≤ m' → (ofUnixMillis m).ticks ≤ (ofUnixMillis m').ticks := by
  refine ⟨fun m t hsum hdiff => ?_, fun m => unixMillis?_ofUnixMillis,
    fun m m' => ticks_ofUnixMillis_mono⟩
  obtain ⟨q, hq⟩ := exists_unixMillis? (t := ⟨t⟩) hdiff
  exact ⟨q, hq, (unixMillis?_eq_some_iff.mp hq).2, ticks_ofUnixMillis_le_iff hsum hq⟩

/-- The product of the first milliseconds lies below the range; still they are those of the earliest
tick that has any. The last milliseconds before 1970 come back. -/
theorem ofUnixMillis_le_iff_before :
    let m : Int64 := -922337203685478
    let t : Int64 := -8602016068854775808
    (ticksPerMilli * m.toInt < Int64.minValue.toInt ∧
      ∃ q, (Timestamp.mk t).unixMillis? = some q ∧
        q.toInt = (t.toInt - unixEpochTicks) / ticksPerMilli ∧
        ((ofUnixMillis m).ticks ≤ t ↔ m ≤ q)) ∧
    (ofUnixMillis (-1)).unixMillis? = some (-1) ∧
    (ofUnixMillis m).ticks ≤ (ofUnixMillis (-1)).ticks := by
  intro m t
  obtain ⟨hfloor, hback, hmono⟩ := ofUnixMillis_le_iff
  exact ⟨⟨by decide, hfloor m t (by decide) (by decide)⟩, hback (-1) (by decide) (by decide),
    hmono m (-1) (by decide)⟩

/-! ## Instants -/

/-- Each distance is brought into the 64-bit range, and then its sum with the epoch. -/
theorem toInt_ofInstant (s : Instant) :
    (ofInstant s).ticks.toInt = max Int64.minValue.toInt (min Int64.maxValue.toInt
      (unixEpochTicks + if s.nanos < 0 then
        -max Int64.minValue.toInt (min Int64.maxValue.toInt (s.nanos.natAbs / 100 : Nat))
      else max Int64.minValue.toInt (min Int64.maxValue.toInt (s.nanos.natAbs / 100 : Nat)))) := by
  rw [ofInstant, toInt_saturate, toInt_saturate]

/-- An instant at a whole tick is stored as its distance from year one just if its ticks fit. -/
theorem storable_iff {s : Instant} (hwhole : 100 ∣ s.nanos) :
    s.Storable ↔ (ofInstant s).ticks.toInt = unixEpochTicks + s.nanos / 100 := by
  have hmin := Int64.toInt_minValue
  have hmax := Int64.toInt_maxValue
  have hticks := toInt_ofInstant s
  obtain ⟨ticks, hnanos⟩ := hwhole
  rw [hticks]
  unfold unixEpochTicks
  constructor
  · rintro ⟨hdistance, hsum⟩
    unfold unixEpochTicks at hsum
    split <;> omega
  · intro hexact
    constructor
    · split at hexact <;> omega
    · unfold unixEpochTicks
      split at hexact <;> omega

/-- The clock represents every timestamp. -/
theorem exists_instant (t : Timestamp) :
    ∃ s : Instant, s.nanos = (t.ticks.toInt - unixEpochTicks) * 100 := by
  have hmin := Int64.toInt_minValue
  have hmax := Int64.toInt_maxValue
  have hlow := t.ticks.le_toInt
  have hhigh := t.ticks.toInt_lt
  refine ⟨⟨(t.ticks.toInt - unixEpochTicks) * 100, ?_⟩, rfl⟩
  unfold unixEpochTicks
  omega

theorem toInstant?_eq_some_iff {t : Timestamp} {s : Instant} :
    t.toInstant? = some s ↔
      s.nanos.natAbs < UInt64.size ∧ s.nanos = (t.ticks.toInt - unixEpochTicks) * 100 := by
  have hmin := Int64.toInt_minValue
  have hsize : UInt64.size = 18446744073709551616 := rfl
  cases hsince : t.sinceUnixEpoch? with
  | none =>
    -- a distance that leaves the range in ticks leaves it in nanoseconds as well
    have hlt := sinceUnixEpoch?_eq_none_iff.mp hsince
    rw [toInstant?, hsince]
    refine ⟨fun h => (nomatch h), fun h => ?_⟩
    omega
  | some delta =>
    have hdelta := sinceUnixEpoch?_eq_some_iff.mp hsince
    rw [toInstant?, hsince]
    show (if _ then _ else _) = _ ↔ _
    rw [← hdelta]
    split
    · next hfits =>
      rw [Instant.ofNanos?_eq_some_iff]
      refine ⟨fun h => ⟨?_, h⟩, fun h => h.2⟩
      omega
    · next hlarge =>
      refine ⟨fun h => (nomatch h), fun h => ?_⟩
      omega

/-- An instant is given back just if the distance from the Unix epoch fits in 64 unsigned bits of
nanoseconds, not just if there is one. -/
theorem toInstant?_eq_none_iff {t : Timestamp} :
    t.toInstant? = none ↔ UInt64.size ≤ (t.ticks.toInt - unixEpochTicks).natAbs * 100 := by
  obtain ⟨s, hs⟩ := exists_instant t
  constructor
  · intro hnone
    refine Nat.le_of_not_lt fun hlt => ?_
    have hsome := toInstant?_eq_some_iff.mpr ⟨by omega, hs⟩
    rw [hnone] at hsome
    cases hsome
  · intro hlarge
    cases hsome : t.toInstant? with
    | none => rfl
    | some s' =>
      obtain ⟨hlt, hs'⟩ := toInstant?_eq_some_iff.mp hsome
      omega

/-- An instant at a whole tick whose ticks fit comes back if it lies less than 2^64 nanoseconds,
about 584 years, from the Unix epoch, and only then. Nothing is given back for any timestamp that
lies farther away, though the clock represents every timestamp. -/
theorem toInstant?_ofInstant_iff (s : Instant) (hwhole : 100 ∣ s.nanos) (hstorable : s.Storable) :
    ((ofInstant s).toInstant? = some s ↔ s.nanos.natAbs < UInt64.size) ∧
    ((ofInstant s).toInstant? = none ↔ UInt64.size ≤ s.nanos.natAbs) ∧
    ∀ t : Timestamp,
      (∃ s' : Instant, s'.nanos = (t.ticks.toInt - unixEpochTicks) * 100) ∧
      (t.toInstant? = none ↔ UInt64.size ≤ (t.ticks.toInt - unixEpochTicks).natAbs * 100) := by
  have hticks := (storable_iff hwhole).mp hstorable
  have hnanos : s.nanos = ((ofInstant s).ticks.toInt - unixEpochTicks) * 100 := by
    omega
  refine ⟨?_, ?_, fun t => ⟨exists_instant t, toInstant?_eq_none_iff⟩⟩
  · rw [toInstant?_eq_some_iff, and_iff_left hnanos]
  · rw [toInstant?_eq_none_iff]
    omega

/-- The earliest instant that comes back, in the year 1385. -/
theorem toInstant?_ofInstant_iff_earliest :
    let s : Instant := { nanos := -18446744073709551600 }
    100 ∣ s.nanos ∧ s.Storable ∧ (ofInstant s).toInstant? = some s := by
  intro s
  have hwhole : 100 ∣ s.nanos := by decide
  have hstorable : s.Storable := ⟨by decide, by decide⟩
  exact ⟨hwhole, hstorable, (toInstant?_ofInstant_iff s hwhole hstorable).1.mpr (by decide)⟩

/-- The instant of tick zero is stored as it is, and not given back. -/
theorem toInstant?_tick_zero :
    let s : Instant := { nanos := -62135596800000000000 }
    100 ∣ s.nanos ∧ s.Storable ∧ ofInstant s = ⟨0⟩ ∧ (ofInstant s).toInstant? = none :=
  ⟨by decide, ⟨by decide, by decide⟩, by decide, by decide⟩

end Timestamp

end ChatCodec
