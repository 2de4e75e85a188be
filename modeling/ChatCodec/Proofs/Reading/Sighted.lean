import ChatCodec.Proofs.Reading.Segmented

/-!
# Reads that see where they stand

A serializer that is registered for a packet is foreign code. It may ask the reader for its offset
and its capacity and seek to any place below, and so find out where in the input its packet lies.
What it cannot find out is what lies behind the capacity. A read is *sighted* when nothing decides
its answer but what a reader over one byte string shows.

* `Read.Agrees` — from two readers, a read answers the same and comes to stand at the same place;
* `Read.Indifferent` — the answer does not depend on the pieces in which the bytes lie;
* `Read.Sighted` — the answer is decided by the offset, the capacity and the bytes up to there;
* `Reader.Shares` — two readers that stand at one place and share the next bytes.

A local read is indifferent, and so is any program of reads (`ReadProgram.indifferent_run`); what is
indifferent is sighted. All that can be done with a reader is sighted, also by one who asks whether
the bytes lie in pieces (`ReadProgram.sighted_runByPieces`). Main results:
`Read.Indifferent.within` and `Read.Sighted.within`, by which a read under a limit sees nothing
beyond it.
-/

namespace ChatCodec

variable {α : Type}

/-- From `r` and from `r'` the read answers the same, and it leaves both at the same place. -/
structure Read.Agrees (read : ReadM α) (r r' : Reader) : Prop where
  answer_eq : (outcome read r).1 = (outcome read r').1
  offset_eq : (outcome read r).2.offset = (outcome read r').2.offset

/-- As `Blind`, but a failure may leave the cursor anywhere. -/
def Read.Indifferent (read : ReadM α) : Prop :=
  Blind (atomic read)

/-- Over contiguous bytes the answer of the read, and where a success leaves the cursor, are decided
by the offset, the capacity and the bytes up to the capacity. Over segments nothing is asked. -/
def Read.Sighted (read : ReadM α) : Prop :=
  ∀ {r r' : Reader}, r.Alike r' → r.isContiguous = true → r'.isContiguous = true →
    Agrees (atomic read) r r'

/-- Two readers over contiguous bytes, at one place, that have the bytes before it and the next
`len` in common. -/
structure Reader.Shares (len : Nat) (r r' : Reader) : Prop where
  isContiguous : r.isContiguous = true
  isContiguous' : r'.isContiguous = true
  le_remaining : len ≤ r.remaining
  le_remaining' : len ≤ r'.remaining
  alike : ({ r with capacity := r.offset + len } : Reader).Alike
    { r' with capacity := r'.offset + len }

/-- At one place in a byte string and in a longer one that begins with it. -/
theorem Reader.shares_append {src : Bytes} {n len : Nat} (hle : n + len ≤ src.length)
    (more : Bytes) :
    Shares len ((ofBytes src).advance n) ((ofBytes (src ++ more)).advance n) := by
  have hle' : n + len ≤ (src ++ more).length := by
    rw [List.length_append]
    omega
  have hoffset : 0 + n + len = n + len := by rw [Nat.zero_add]
  have hroom : len ≤ src.length - (0 + n) := by omega
  have hroom' : len ≤ (src ++ more).length - (0 + n) := by omega
  refine ⟨rfl, rfl, hroom, hroom', ⟨Nat.le_add_right _ _, hoffset ▸ hle⟩,
    ⟨Nat.le_add_right _ _, hoffset ▸ hle'⟩, rfl, rfl, ?_⟩
  show src.take (0 + n + len) = (src ++ more).take (0 + n + len)
  rw [hoffset, List.take_append_of_le_length hle]

namespace Read

variable {read : ReadM α} {len : Nat} {r r' : Reader}

theorem Blind.agrees (h : Blind read) (halike : r.Alike r') : Agrees read r r' := by
  obtain ⟨answer, offset, -, hr, hr'⟩ := h halike
  constructor <;> rw [hr, hr']

theorem Local.indifferent (h : Local read) : Indifferent read :=
  Clean.blind h

theorem Indifferent.sighted (h : Indifferent read) : Sighted read :=
  fun halike _ _ => Blind.agrees h halike

theorem Local.sighted (h : Local read) : Sighted read :=
  Indifferent.sighted h.indifferent

/-- A limit only lowers what the read sees. -/
theorem Agrees.within (hle : len ≤ r.remaining) (hle' : len ≤ r'.remaining)
    (h : Agrees (atomic read) { r with capacity := r.offset + len }
      { r' with capacity := r'.offset + len }) : Agrees (within len read) r r' := by
  have hwithin {r : Reader} (hle : len ≤ r.remaining) : outcome (Read.within len read) r =
      ((outcome (atomic read) { r with capacity := r.offset + len }).1,
        { (outcome (atomic read) { r with capacity := r.offset + len }).2 with
          capacity := r.capacity }) := by
    rw [outcome_within, if_neg (Nat.not_lt.mpr hle)]
  constructor
  · rw [hwithin hle, hwithin hle']
    exact h.answer_eq
  · rw [hwithin hle, hwithin hle']
    exact h.offset_eq

/-- Limited to the bytes that two readers share, a sighted read does the same in both. -/
theorem Sighted.within (h : Sighted read) (hshares : r.Shares len r') :
    Agrees (within len read) r r' :=
  .within hshares.le_remaining hshares.le_remaining'
    (h hshares.alike hshares.isContiguous hshares.isContiguous')

/-- Limited to some bytes, an indifferent read does not see in which pieces they lie. -/
theorem Indifferent.within (h : Indifferent read) (halike : r.Alike r')
    (hle : len ≤ r.remaining) : Agrees (within len read) r r' :=
  .within hle (halike.remaining_eq ▸ hle) (Blind.agrees h (halike.limit hle))

end Read

namespace ReadProgram

/-- A program of reads does not see the pieces, wherever it moves the cursor and looks at it. -/
theorem indifferent_run (program : ReadProgram α) : Read.Indifferent program.run :=
  Read.Blind.atomic (blind_run program)

/-- Runs one program on contiguous bytes and another on pieces. A reader does not change from one to
the other, so to ask it at the start is as good as to ask it later. -/
def runByPieces (program : Bool → ReadProgram α) : ReadM α :=
  fun r => (program r.isContiguous).run r

/-- Whatever a caller does with a reader, what the reader shows decides the answer. -/
theorem sighted_runByPieces (program : Bool → ReadProgram α) :
    Read.Sighted (runByPieces program) := by
  intro r r' halike hr hr'
  have hrun {r : Reader} (hr : r.isContiguous = true) :
      Read.outcome (Read.atomic (runByPieces program)) r =
        Read.outcome (Read.atomic (program true).run) r := by
    rw [Read.outcome, Read.outcome, Read.atomic, Read.atomic, runByPieces, hr]
  have hagrees := Read.Blind.agrees (indifferent_run (program true)) halike
  constructor
  · rw [hrun hr, hrun hr', hagrees.answer_eq]
  · rw [hrun hr, hrun hr', hagrees.offset_eq]

end ReadProgram

end ChatCodec
