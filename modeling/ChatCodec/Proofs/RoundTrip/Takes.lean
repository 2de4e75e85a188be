import ChatCodec.Proofs.Reading.Local
import ChatCodec.Proofs.Writing.Local

/-!
# Reads that take what was written

A read `Takes` a byte string as a value when it reads that value from any bytes that begin with the
string and consumes no more than the string. A write whose output is taken as the value written
makes a round trip that is self-delimiting: what follows on the wire does not matter.

Main results: `decode_encode` for primitives, `takes_text` and `takes_nullableText` for strings,
`takes_counted`, `takes_times` and `takes_iterate` for collections, and `Takes.bind`, which puts
round trips one behind the other.
-/

namespace ChatCodec

variable {α β σ : Type}

/-! ## Primitives -/

/-- The low bytes of a number that fits them spell the number. -/
theorem Bytes.toNatLE_ofNatLE_of_lt {k n : Nat} (h : n < Bytes.wordCount k) :
    Bytes.toNatLE (Bytes.ofNatLE k n) = n := by
  rw [Bytes.toNatLE_ofNatLE, Nat.mod_eq_of_lt h]

namespace Primitive

theorem ofNat_toNatLE_u16 (n : UInt16) :
    UInt16.ofNat (Bytes.toNatLE (Bytes.ofNatLE 2 n.toNat)) = n := by
  rw [Bytes.toNatLE_ofNatLE_of_lt n.toNat_lt, UInt16.ofNat_toNat]

theorem ofNat_toNatLE_u32 (n : UInt32) :
    UInt32.ofNat (Bytes.toNatLE (Bytes.ofNatLE 4 n.toNat)) = n := by
  rw [Bytes.toNatLE_ofNatLE_of_lt n.toNat_lt, UInt32.ofNat_toNat]

theorem ofNat_toNatLE_u64 (n : UInt64) :
    UInt64.ofNat (Bytes.toNatLE (Bytes.ofNatLE 8 n.toNat)) = n := by
  rw [Bytes.toNatLE_ofNatLE_of_lt n.toNat_lt, UInt64.ofNat_toNat]

/-- The bytes of a value are decoded as the value. -/
theorem decode_encode (p : Primitive α) (a : α) : p.decode (p.encode a) = .ok a := by
  cases p with
  | bool => cases a <;> rfl
  | u8 => rfl
  | i8 => simp [encode, decode]
  | u16 => simp only [encode, decode, ofNat_toNatLE_u16]
  | i16 => simp only [encode, decode, ofNat_toNatLE_u16, Int16.toInt16_toUInt16]
  | u32 => simp only [encode, decode, ofNat_toNatLE_u32]
  | i32 => simp only [encode, decode, ofNat_toNatLE_u32, Int32.toInt32_toUInt32]
  | u64 => simp only [encode, decode, ofNat_toNatLE_u64]
  | i64 => simp only [encode, decode, ofNat_toNatLE_u64, Int64.toInt64_toUInt64]
  | f32 | version => simp only [encode, decode, ofNat_toNatLE_u32]
  | f64 | snowflake => simp only [encode, decode, ofNat_toNatLE_u64]
  | timestamp => simp only [encode, decode, ofNat_toNatLE_u64, Int64.toInt64_toUInt64]
  | zonedTimestamp =>
    simp only [encode, decode]
    rw [List.take_left' (Bytes.length_ofNatLE 8 _), List.drop_left' (Bytes.length_ofNatLE 8 _),
      ofNat_toNatLE_u64, ofNat_toNatLE_u64, Int64.toInt64_toUInt64, Int64.toInt64_toUInt64]
  | uuid => simp only [encode, decode, Uuid.ofBytes_bytes]

theorem ofNatLE_ofNat_u16 {bytes : Bytes} (h : bytes.length = 2) :
    Bytes.ofNatLE 2 (UInt16.ofNat bytes.toNatLE).toNat = bytes := by
  have hlt := Bytes.toNatLE_lt bytes
  rw [h] at hlt
  rw [UInt16.toNat_ofNat_of_lt' hlt, ← h, Bytes.ofNatLE_toNatLE]

theorem ofNatLE_ofNat_u32 {bytes : Bytes} (h : bytes.length = 4) :
    Bytes.ofNatLE 4 (UInt32.ofNat bytes.toNatLE).toNat = bytes := by
  have hlt := Bytes.toNatLE_lt bytes
  rw [h] at hlt
  rw [UInt32.toNat_ofNat_of_lt' hlt, ← h, Bytes.ofNatLE_toNatLE]

theorem ofNatLE_ofNat_u64 {bytes : Bytes} (h : bytes.length = 8) :
    Bytes.ofNatLE 8 (UInt64.ofNat bytes.toNatLE).toNat = bytes := by
  have hlt := Bytes.toNatLE_lt bytes
  rw [h] at hlt
  rw [UInt64.toNat_ofNat_of_lt' hlt, ← h, Bytes.ofNatLE_toNatLE]

/-- The bytes that are decoded as a value are the bytes of the value. -/
theorem encode_of_decode {p : Primitive α} {bytes : Bytes} {a : α} (hlen : bytes.length = p.size)
    (h : p.decode bytes = .ok a) : p.encode a = bytes := by
  cases p with
  | bool =>
    obtain ⟨byte, rfl⟩ := List.length_eq_one_iff.mp hlen
    simp only [decode, List.headD_cons] at h
    split at h <;> cases h <;> rfl
  | u8 =>
    obtain ⟨byte, rfl⟩ := List.length_eq_one_iff.mp hlen
    cases h
    rfl
  | i8 =>
    obtain ⟨byte, rfl⟩ := List.length_eq_one_iff.mp hlen
    cases h
    simp [encode]
  | u16 =>
    cases h
    exact ofNatLE_ofNat_u16 hlen
  | i16 =>
    cases h
    rw [encode, UInt16.toUInt16_toInt16]
    exact ofNatLE_ofNat_u16 hlen
  | u32 | f32 | version =>
    cases h
    exact ofNatLE_ofNat_u32 hlen
  | i32 =>
    cases h
    rw [encode, UInt32.toUInt32_toInt32]
    exact ofNatLE_ofNat_u32 hlen
  | u64 | f64 | snowflake =>
    cases h
    exact ofNatLE_ofNat_u64 hlen
  | i64 | timestamp =>
    cases h
    rw [encode, UInt64.toUInt64_toInt64]
    exact ofNatLE_ofNat_u64 hlen
  | zonedTimestamp =>
    cases h
    have hutc : (bytes.take 8).length = 8 := by
      rw [List.length_take, hlen]
      rfl
    have hoffset : (bytes.drop 8).length = 8 := by
      rw [List.length_drop, hlen]
      rfl
    rw [encode, UInt64.toUInt64_toInt64, UInt64.toUInt64_toInt64, ofNatLE_ofNat_u64 hutc,
      ofNatLE_ofNat_u64 hoffset, List.take_append_drop]
  | uuid =>
    cases h
    exact Uuid.bytes_ofBytes hlen

theorem size_pos (p : Primitive α) : 0 < p.size := by
  cases p <;> decide

end Primitive

/-! ## Prefixes -/

namespace Write

/-- A prefix is the length it stands for. -/
theorem toInt_of_prefix32 {n : Nat} {length : Int32} (h : prefix32 n = .ok length) :
    length.toInt = n := by
  unfold prefix32 at h
  split at h
  · next hle =>
      cases h
      rw [maxPrefix] at hle
      exact Int32.toInt_ofNat_of_lt (by omega)
  · cases h

theorem output_text {s : String} {length : Int32}
    (h : prefix32 (Text.toBytes s).length = .ok length) :
    output (text s) = .ok ((), Primitive.i32.encode length ++ Text.toBytes s) := by
  rw [output, text_apply (Writer.valid_growable .empty) h]
  exact output_bytes _

theorem output_text_eq_ok {s : String} {src : Bytes} (h : output (text s) = .ok ((), src)) :
    ∃ length, prefix32 (Text.toBytes s).length = .ok length ∧
      src = Primitive.i32.encode length ++ Text.toBytes s := by
  cases hprefixed : prefix32 (Text.toBytes s).length with
  | ok length =>
    rw [output_text hprefixed] at h
    cases h
    exact ⟨length, rfl, rfl⟩
  | error e =>
    have hthrow : text s = throw e := by rw [text, hprefixed]
    rw [hthrow] at h
    cases h

theorem output_count_eq_ok {n : Nat} {src : Bytes} (h : output (count n) = .ok ((), src)) :
    ∃ length, prefix32 n = .ok length ∧ src = Primitive.i32.encode length := by
  unfold count at h
  cases hprefixed : prefix32 n with
  | ok length =>
    rw [hprefixed] at h
    dsimp only at h
    rw [output_primitive] at h
    cases h
    exact ⟨length, rfl, rfl⟩
  | error e =>
    rw [hprefixed] at h
    cases h

end Write

namespace Read

/-- From bytes that begin with `src`, the read takes just `src`, and as the value `a`. -/
def Takes (read : ReadM α) (src : Bytes) (a : α) : Prop :=
  ∀ rest, run read (src ++ rest) = .ok (a, src.length)

section Takes

variable {read : ReadM α} {next : α → ReadM β} {src more : Bytes} {a : α} {b : β}

theorem takes_pure (a : α) : Takes (pure a) [] a :=
  fun _ => rfl

/-- The first read may depend on what the second one will find. -/
theorem takes_bind_of (hread : Local read) (hnext : Local (next a))
    (h : ∀ rest, run read (src ++ (more ++ rest)) = .ok (a, src.length))
    (hmore : Takes (next a) more b) : Takes (read >>= next) (src ++ more) b := by
  intro rest
  rw [List.append_assoc, run_bind_of_ok hread hnext (h rest), List.drop_left, hmore rest,
    List.length_append]
  rfl

theorem Takes.bind (h : Takes read src a) (hread : Local read) (hnext : Local (next a))
    (hmore : Takes (next a) more b) : Takes (read >>= next) (src ++ more) b :=
  takes_bind_of hread hnext (fun rest => h (more ++ rest)) hmore

theorem Takes.map (h : Takes read src a) (hread : Local read) (f : α → β) :
    Takes (f <$> read) src (f a) := by
  intro rest
  rw [run_map f hread, h rest]
  rfl

theorem Takes.atomic (h : Takes read src a) : Takes (atomic read) src a := by
  intro rest
  rw [run_atomic, h rest]

/-- A last step that consumes nothing. -/
theorem Takes.bind_last (h : Takes read src a) (hread : Local read) (hnext : Local (next a))
    (hlast : Takes (next a) [] b) : Takes (read >>= next) src b := by
  have htakes := h.bind hread hnext hlast
  rwa [List.append_nil] at htakes

/-- A last step that only makes a value of what was taken. -/
theorem Takes.bind_pure (h : Takes read src a) (hread : Local read) (f : α → β) :
    Takes (read >>= fun a => pure (f a)) src (f a) :=
  h.bind_last hread (parses_pure (f a)).local (takes_pure (f a))

/-- A first step that consumes nothing. -/
theorem Takes.bind_first (h : Takes read [] a) (hread : Local read) (hnext : Local (next a))
    (hmore : Takes (next a) more b) : Takes (read >>= next) more b :=
  h.bind hread hnext hmore

theorem takes_ofExcept {result : Except CodecError α} (h : result = .ok a) :
    Takes (ofExcept result) [] a := by
  rw [h]
  exact takes_pure a

theorem takes_primitive (p : Primitive α) (a : α) : Takes (primitive p) (p.encode a) a := by
  intro rest
  have hlen := p.length_encode a
  rw [(parses_primitive p).run_eq, if_neg (by rw [List.length_append]; omega),
    List.take_left' hlen, p.decode_encode, hlen]
  rfl

theorem takes_bytes (src : Bytes) : Takes (bytes src.length) src src := by
  intro rest
  rw [(parses_bytes _).run_eq, if_neg (by rw [List.length_append]; omega), List.take_left]

/-- A primitive that is read stands at the start of the bytes. -/
theorem eq_of_run_primitive {p : Primitive α} {bytes : Bytes} {a : α} {n : Nat}
    (h : run (primitive p) bytes = .ok (a, n)) :
    bytes.take n = p.encode a ∧ n = p.size := by
  rw [(parses_primitive p).run_eq] at h
  split at h
  · cases h
  · next hge =>
      have hlen : (bytes.take p.size).length = p.size := by
        rw [List.length_take]
        omega
      obtain ⟨value, hd, hanswer⟩ := ok_of_map h
      cases hanswer
      exact ⟨(Primitive.encode_of_decode hlen hd).symm, rfl⟩

/-! ## Strings -/

theorem takes_textOfLength {s : String} {length : Int32}
    (h : length.toInt = (Text.toBytes s).length) :
    Takes (textOfLength length) (Text.toBytes s) (some s) := by
  -- a length is not negative, so it is neither the null length nor below it
  have hnull : nullLength.toInt = -1 := rfl
  have hne : length ≠ nullLength := by
    rintro rfl
    omega
  have hge : ¬ length < nullLength := by
    rw [Int32.lt_iff_toInt_lt]
    omega
  have hread : Text.ofBytes? (Text.toBytes s) = some s := Text.ofBytes?_eq_some_iff.mpr rfl
  have hcontent : length.toInt.toNat = (Text.toBytes s).length := by omega
  rw [textOfLength, if_neg hne, if_neg hge, hcontent]
  refine (takes_bytes _).bind_last (parses_bytes _).local ?_ ?_ <;> rw [hread]
  · exact (parses_pure _).local
  · exact takes_pure _

theorem takes_text {s : String} {src : Bytes} (h : Write.output (Write.text s) = .ok ((), src)) :
    Takes text src (some s) := by
  obtain ⟨length, hprefixed, rfl⟩ := Write.output_text_eq_ok h
  exact Takes.atomic (Takes.bind (takes_primitive .i32 length) (parses_primitive _).local
    (local_textOfLength length) (takes_textOfLength (Write.toInt_of_prefix32 hprefixed)))

theorem takes_requiredText {s : String} {src : Bytes}
    (h : Write.output (Write.text s) = .ok ((), src)) : Takes requiredText src s :=
  Takes.atomic ((takes_text h).bind_last clean_text.local (parses_pure s).local (takes_pure s))

theorem takes_nullableText {s : Option String} {src : Bytes}
    (h : Write.output (Write.nullableText s) = .ok ((), src)) : Takes text src s := by
  cases s with
  | some s => exact takes_text h
  | none =>
    rw [Write.nullableText, Write.output_primitive] at h
    cases h
    exact Takes.atomic ((takes_primitive .i32 (-1)).bind_last (parses_primitive _).local
      (local_textOfLength _) (takes_pure none))

/-! ## Collections -/

/-- A count is accepted in front of elements that have the least size they must have. The count asks
for bytes it does not consume, so the elements are ahead of it already. -/
theorem run_count {n minSize : Nat} {length : Int32} (hprefixed : Write.prefix32 n = .ok length)
    (hsize : n * minSize ≤ more.length) (hempty : minSize = 0 → n ≤ maxEmptyElements)
    (hsmall : more.length < UInt64.size) (rest : Bytes) :
    run (count minSize) (Primitive.i32.encode length ++ (more ++ rest)) =
      .ok (n, (Primitive.i32.encode length).length) := by
  have hlength := Write.toInt_of_prefix32 hprefixed
  have hpositive : ¬ length < 0 := by
    rw [Int32.lt_iff_toInt_lt, hlength]
    exact Int.not_lt.mpr (Int.natCast_nonneg n)
  have hlimited : ¬ (minSize = 0 ∧ maxEmptyElements < length.toInt.toNat) := by
    rw [hlength]
    exact fun h => Nat.not_lt.mpr (hempty h.1) h.2
  have hproduct : ¬ UInt64.size ≤ n * minSize := by omega
  have hremain : ¬ (more ++ rest).length < n * minSize := by
    rw [List.length_append]
    omega
  have hensure : run (ensure (n * minSize)) (more ++ rest) = .ok ((), 0) := by
    rw [(parses_ensure _).run_eq, if_neg hremain]
  have hrun : run (countOfPrefix minSize length) (more ++ rest) = .ok (n, 0) := by
    rw [countOfPrefix, if_neg hpositive]
    simp only [if_neg hlimited]
    rw [hlength, Int.toNat_natCast, if_neg hproduct,
      run_bind_of_ok (parses_ensure _).local (parses_pure n).local hensure]
    rfl
  rw [count, run_atomic, run_bind_of_ok (parses_primitive _).local (local_countOfPrefix _ _)
    (takes_primitive .i32 length _), List.drop_left, hrun]
  rfl

/-- A count is taken in front of elements that have the least size they must have. -/
theorem takes_counted {body : Nat → ReadM β} {n minSize : Nat} {length : Int32}
    (hprefixed : Write.prefix32 n = .ok length) (hbody : ∀ n, Local (body n))
    (hsize : n * minSize ≤ more.length) (hempty : minSize = 0 → n ≤ maxEmptyElements)
    (hsmall : more.length < UInt64.size) (hmore : Takes (body n) more b) :
    Takes (count minSize >>= body) (Primitive.i32.encode length ++ more) b :=
  takes_bind_of (clean_count minSize).local (hbody n) (run_count hprefixed hsize hempty hsmall)
    hmore

/-- The output of a write for each value is that of the first and then that of the others. -/
theorem output_each_cons {write : α → WriteM Unit} (hwrite : ∀ a, Write.Local (write a))
    {values : List α} (h : Write.output (Write.each write (a :: values)) = .ok ((), src)) :
    ∃ first rest, Write.output (write a) = .ok ((), first) ∧
      Write.output (Write.each write values) = .ok ((), rest) ∧ src = first ++ rest := by
  obtain ⟨_, first, rest, h₁, h₂, rfl⟩ :=
    (Write.output_bind_eq_ok (hwrite a) fun _ => Write.Local.each hwrite values).mp h
  exact ⟨first, rest, h₁, h₂, rfl⟩

theorem length_output_each {write : α → WriteM Unit} (hwrite : ∀ a, Write.Local (write a))
    {values : List α} {minSize : Nat}
    (hmin : ∀ a ∈ values, ∀ src, Write.output (write a) = .ok ((), src) → minSize ≤ src.length)
    (h : Write.output (Write.each write values) = .ok ((), src)) :
    values.length * minSize ≤ src.length := by
  induction values generalizing src with
  | nil => simp
  | cons a values ih =>
    obtain ⟨first, rest, h₁, h₂, rfl⟩ := output_each_cons hwrite h
    have hfirst := hmin a List.mem_cons_self first h₁
    have hrest := ih (fun b hb => hmin b (List.mem_cons_of_mem _ hb)) h₂
    rw [List.length_cons, List.length_append, Nat.succ_mul]
    omega

theorem takes_times {write : α → WriteM Unit} {normal : α → β} {read : ReadM β}
    (hwrite : ∀ a, Write.Local (write a)) (hread : Local read) {values : List α}
    (htakes : ∀ a ∈ values, ∀ src, Write.output (write a) = .ok ((), src) →
      src.length < UInt64.size → Takes read src (normal a))
    (h : Write.output (Write.each write values) = .ok ((), src))
    (hsmall : src.length < UInt64.size) :
    Takes (times read values.length) src (values.map normal) := by
  induction values generalizing src with
  | nil =>
    cases h
    exact takes_pure []
  | cons a values ih =>
    obtain ⟨first, rest, h₁, h₂, rfl⟩ := output_each_cons hwrite h
    rw [List.length_append] at hsmall
    have hrest := ih (fun b hb => htakes b (List.mem_cons_of_mem _ hb)) h₂ (by omega)
    refine (htakes a List.mem_cons_self first h₁ (by omega)).bind hread ?_ ?_
    · exact (hread.times _).bind_pure _
    · exact hrest.bind_pure (hread.times _) _

/-- A collection is built while its elements are read: if each step takes one more element, all of
them together make the collection written. -/
theorem takes_iterate {write : α → WriteM Unit} {step : σ → ReadM σ} (contents : σ → List α)
    (hwrite : ∀ a, Write.Local (write a)) (hstep : ∀ s, Local (step s))
    (hinj : ∀ s s', contents s = contents s' → s = s')
    (hsplit : ∀ s final a rest, contents final = contents s ++ a :: rest →
      ∃ s', contents s' = contents s ++ [a])
    {final : σ}
    (htakes : ∀ s s' a src, a ∈ contents final → contents s' = contents s ++ [a] →
      Write.output (write a) = .ok ((), src) → src.length < UInt64.size → Takes (step s) src s')
    {s : σ} {values : List α} (hfinal : contents final = contents s ++ values)
    (h : Write.output (Write.each write values) = .ok ((), src))
    (hsmall : src.length < UInt64.size) :
    Takes (iterate step values.length s) src final := by
  -- on the values not yet read, for any collection built so far: it holds those before them
  induction values generalizing s src with
  | nil =>
    cases h
    rw [List.append_nil] at hfinal
    rw [hinj final s hfinal]
    exact takes_pure s
  | cons a values ih =>
    obtain ⟨first, rest, h₁, h₂, rfl⟩ := output_each_cons hwrite h
    rw [List.length_append] at hsmall
    obtain ⟨s', hs'⟩ := hsplit s final a values hfinal
    have hmem : a ∈ contents final := by
      rw [hfinal]
      exact List.mem_append_right _ List.mem_cons_self
    have hrest : contents final = contents s' ++ values := by
      rw [hs', hfinal, List.append_assoc]
      rfl
    exact (htakes s s' a first hmem hs' h₁ (by omega)).bind (hstep s)
      (Local.iterate hstep _ _) (ih hrest h₂ (by omega))

end Takes

end Read

end ChatCodec
