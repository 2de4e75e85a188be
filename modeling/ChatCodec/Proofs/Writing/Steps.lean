import ChatCodec.Proofs.Writing.Programs

/-!
# What the steps of a run do to a writer

Whatever a program does, the bytes a writer held before it stay as long as nothing is written over
them. Each step puts bytes behind these, or takes back what it put there itself.

* `Writer.Extends` — a writer is another with some bytes behind those written;
* `WriteProgram.Taken.PatchesFrom` — a step writes over nothing before a position;
* `WriteProgram.Taken.PatchesOwn` — what a step is made of writes over nothing before the step.

`WriteProgram.Taken.write_cases` and `WriteProgram.Taken.atomic_cases` say what a step does, an
induction over programs what a run does (`WriteProgram.extends_steps`). Main results:
`WriteProgram.Taken.after_of_error`, what a single write leaves that fails, and
`WriteProgram.Taken.restores`, what any step leaves that fails.
-/

namespace ChatCodec

variable {α β : Type}

/-! ## Writers with more behind -/

namespace Writer

variable {b w w' : Writer} {src : Bytes}

/-- The writer `w` is `b` with some bytes behind those written. -/
def Extends (b w : Writer) : Prop :=
  ∃ src, b.Adds src w

theorem Extends.refl (b : Writer) : b.Extends b :=
  ⟨[], .refl b⟩

theorem Extends.valid (h : b.Extends w) (hb : b.Valid) : w.Valid := by
  obtain ⟨src, hadds⟩ := h
  exact hadds.valid hb

theorem Extends.append (h : b.Extends w) (hb : b.Valid) (hfits : w.Fits src.length) :
    b.Extends (w.append src) := by
  obtain ⟨first, hadds⟩ := h
  exact ⟨first ++ src, hadds.trans (adds_append (hadds.valid hb) hfits)⟩

/-- Bytes are written over others that `b` did not have. -/
theorem Extends.replace {pos : Nat} (h : b.Extends w) (hb : b.Valid) (hpos : b.offset ≤ pos)
    (hend : pos + src.length ≤ w.offset) : b.Extends (w.replace pos src) := by
  obtain ⟨all, hadds⟩ := h
  obtain ⟨k, rfl⟩ := Nat.exists_eq_add_of_le hpos
  have hoffset := hadds.offset
  have hinside : k + src.length ≤ all.length := by omega
  exact ⟨all.overwrite k src, hadds.replace hb hinside⟩

/-- Bytes are taken back that `b` did not have. -/
theorem Extends.truncate {n : Nat} (h : b.Extends w) (hb : b.Valid) (hn : b.offset ≤ n)
    (hle : n ≤ w.offset) : b.Extends (w.truncate n) := by
  obtain ⟨all, hadds⟩ := h
  obtain ⟨k, rfl⟩ := Nat.exists_eq_add_of_le hn
  have hoffset := hadds.offset
  have hinside : k ≤ all.length := by omega
  exact ⟨all.take k, hadds.take hb hinside⟩

theorem Extends.offset_le (h : b.Extends w) : b.offset ≤ w.offset := by
  obtain ⟨src, hadds⟩ := h
  rw [hadds.offset]
  exact Nat.le_add_right _ _

theorem offset_truncate (w : Writer) (n : Nat) : (w.truncate n).offset = n := by
  obtain ⟨sink, offset⟩ := w
  cases sink <;> rfl

end Writer

namespace WriteProgram

/-! ## Single steps -/

namespace Taken

/-- If the step writes over bytes, then over none before position `start`. -/
def PatchesFrom (start : Nat) (t : Taken) : Prop :=
  ∀ pos, t.act.patched? = some pos → ∀ a, t.answer = .ok a → start ≤ pos

/-- What the step is made of writes over nothing before the step. -/
def PatchesOwn (t : Taken) : Prop :=
  ∀ s ∈ t.act.inner t.before, s.PatchesFrom t.before.offset

variable {b w : Writer} {e : CodecError}

/-- A part with rollback answers what is in it answers. It leaves the same writer, but for what it
takes back after an error. -/
theorem atomic_cases (body : WriteProgram β) (w : Writer) :
    let t : Taken := ⟨.atomic body, w⟩
    (∃ a w', Write.outcome body.run w = (.ok a, w') ∧ t.answer = .ok a ∧ t.after = w') ∨
    ∃ e w', Write.outcome body.run w = (.error e, w') ∧ t.answer = .error e ∧
      t.after = w'.truncate w.offset := by
  unfold answer after WriteAct.run
  dsimp only
  rw [Write.outcome_atomic]
  cases hout : Write.outcome body.run w with
  | mk answer w' =>
    cases answer with
    | ok a => exact .inl ⟨a, w', rfl, rfl, rfl⟩
    | error e => exact .inr ⟨e, w', rfl, rfl, rfl⟩

section Write

variable {writing : Writing} {single : writing.isSingle = true}

/-- A single write puts bytes behind those written, fails and leaves the writer as it was, or writes
over four bytes that are there. -/
theorem write_cases (single : writing.isSingle = true) (hw : w.Valid) :
    let t : Taken := ⟨.write writing single, w⟩
    (∃ src, w.Fits src.length ∧ t.answer = .ok () ∧ t.after = w.append src) ∨
    (∃ e, t.answer = .error e ∧ t.after = w) ∨
    ∃ pos n, writing = .patch pos n ∧ pos + 4 ≤ w.offset ∧ t.answer = .ok () ∧
      t.after = w.replace pos (Primitive.i32.encode n) := by
  unfold answer after WriteAct.run
  dsimp only
  rcases writing.single_cases single with ⟨src, hrun⟩ | ⟨e, hrun⟩ | ⟨pos, n, rfl⟩
  · by_cases hfits : w.Fits src.length
    · have hok := (hrun w hw).trans (Write.bytes_apply hfits)
      rw [Write.outcome_of_ok hok]
      exact .inl ⟨src, hfits, rfl, rfl⟩
    · obtain ⟨e, hspace, -⟩ := Write.ensureSpace_of_not_fits hfits
      have herror := (hrun w hw).trans (Write.bytes_of_no_space hspace)
      rw [Write.outcome_of_error herror]
      exact .inr (.inl ⟨e, rfl, rfl⟩)
  · rw [hrun]
    exact .inr (.inl ⟨e, rfl, rfl⟩)
  · rcases Nat.lt_or_ge w.offset (pos + 4) with hlt | hle
    · rw [Writing.run, Write.outcome_of_error (Write.patchI32_of_lt hlt)]
      exact .inr (.inl ⟨_, rfl, rfl⟩)
    · rw [Writing.run, Write.outcome_of_ok (Write.patchI32_apply hle)]
      exact .inr (.inr ⟨pos, n, rfl, hle, rfl, rfl⟩)

/-- A single write that fails leaves the writer as it was. -/
theorem after_of_error (hw : w.Valid) (h : (⟨.write writing single, w⟩ : Taken).answer = .error e) :
    (⟨.write writing single, w⟩ : Taken).after = w := by
  rcases write_cases single hw with ⟨src, -, hok, -⟩ | ⟨e', -, hafter⟩ | ⟨pos, n, -, -, hok, -⟩
  · cases hok.symm.trans h
  · exact hafter
  · cases hok.symm.trans h

/-- A single write puts bytes behind, or writes over bytes that `b` did not have. -/
theorem extends_write (hb : b.Valid) (h : b.Extends w)
    (hfrom : PatchesFrom b.offset ⟨.write writing single, w⟩) :
    b.Extends (⟨.write writing single, w⟩ : Taken).after ∧
      w.offset ≤ (⟨.write writing single, w⟩ : Taken).after.offset := by
  rcases write_cases single (h.valid hb) with
    ⟨src, hfits, -, hafter⟩ | ⟨e, -, hafter⟩ | ⟨pos, n, rfl, hend, hok, hafter⟩
  · rw [hafter, Writer.offset_append]
    exact ⟨h.append hb hfits, Nat.le_add_right _ _⟩
  · rw [hafter]
    exact ⟨h, Nat.le_refl _⟩
  · rw [hafter, Writer.offset_replace]
    exact ⟨h.replace hb (hfrom pos rfl () hok) hend, Nat.le_refl _⟩

end Write

end Taken

/-! ## Runs -/

section Runs

variable {b w : Writer}

/-- A part with rollback, of which it is known what it does: where it fails it is taken back. -/
theorem extends_atomic {body : WriteProgram β} (hb : b.Valid) (h : b.Extends w)
    (hbody : b.Extends (Write.outcome body.run w).2)
    (hle : w.offset ≤ (Write.outcome body.run w).2.offset) :
    b.Extends (⟨.atomic body, w⟩ : Taken).after ∧
      w.offset ≤ (⟨.atomic body, w⟩ : Taken).after.offset := by
  rcases Taken.atomic_cases body w with ⟨a, w', hout, -, hafter⟩ | ⟨e, w', hout, -, hafter⟩
  · rw [hout] at hbody hle
    rw [hafter]
    exact ⟨hbody, hle⟩
  · rw [hout] at hbody hle
    rw [hafter, Writer.offset_truncate]
    exact ⟨hbody.truncate hb h.offset_le hle, Nat.le_refl _⟩

/-- All the time of a run, the bytes that `b` had are followed by others. -/
theorem extends_steps (program : WriteProgram α) (hb : b.Valid) (h : b.Extends w)
    (hfrom : ∀ t ∈ program.steps w, t.PatchesFrom b.offset) :
    (∀ t ∈ program.steps w, b.Extends t.before ∧ b.Extends t.after) ∧
      b.Extends (Write.outcome program.run w).2 ∧
        w.offset ≤ (Write.outcome program.run w).2.offset := by
  -- on the program: a part is a run of its own, from the same `b`
  induction program generalizing w with
  | done result =>
    have hout : (Write.outcome (done result).run w).2 = w := by cases result <;> rfl
    rw [hout]
    exact ⟨nofun, h, Nat.le_refl _⟩
  | write writing single next ih =>
    obtain ⟨hfirst, hrest⟩ := List.forall_mem_cons.mp hfrom
    obtain ⟨hafter, hle⟩ := Taken.extends_write hb h hfirst
    obtain ⟨hsteps, hlast, hle'⟩ := ih _ hafter hrest
    exact ⟨List.forall_mem_cons.mpr ⟨⟨h, hafter⟩, hsteps⟩, hlast, Nat.le_trans hle hle'⟩
  | written next ih => exact ih _ h hfrom
  | atomic body next ihBody ih =>
    obtain ⟨hinner, hfrom⟩ := List.forall_mem_append.mp hfrom
    obtain ⟨hbody, hend, hle⟩ := ihBody h hinner
    obtain ⟨hafter, hle'⟩ := extends_atomic hb h hend hle
    obtain ⟨hsteps, hlast, hle''⟩ := ih _ hafter (List.forall_mem_cons.mp hfrom).2
    exact ⟨List.forall_mem_append.mpr ⟨hbody, List.forall_mem_cons.mpr ⟨⟨h, hafter⟩, hsteps⟩⟩,
      hlast, Nat.le_trans hle' hle''⟩

/-- A step that fails and writes over nothing before itself leaves what was there before it. -/
theorem Taken.restores {t : Taken} {e : CodecError} (hw : t.before.Valid)
    (h : t.answer = .error e) (hown : t.PatchesOwn) : t.before.Adds [] t.after := by
  obtain ⟨act, w⟩ := t
  cases act with
  | write writing single =>
    rw [after_of_error hw h]
    exact .refl w
  | atomic body =>
    obtain ⟨-, ⟨src, hadds⟩, -⟩ := extends_steps body hw (.refl w) hown
    rcases atomic_cases body w with ⟨a, w', -, hok, -⟩ | ⟨e', w', hout, -, hafter⟩
    · cases hok.symm.trans h
    · rw [hout] at hadds
      rw [hafter]
      exact hadds.truncate hw

end Runs

/-! ## Steps that write over nothing but their own -/

theorem Unpatched.patchesFrom {program : WriteProgram α} (h : program.Unpatched) (start : Nat) :
    program.Always (Taken.PatchesFrom start) :=
  Always.mono h fun _ ht _ hpos => nomatch hpos.symm.trans ht

/-- The step is one that callers take for a single write: it is one, or it is a value. -/
inductive Taken.IsPlain : Taken → Prop
  | write (writing : Writing) (single : writing.isSingle = true) (w : Writer) :
      IsPlain ⟨.write writing single, w⟩
  | value {β : Type} (layout : Layout β) (v : β) (w : Writer) :
      IsPlain ⟨.atomic (layout.program v), w⟩

theorem Taken.IsPlain.patchesOwn {t : Taken} (h : t.IsPlain) : t.PatchesOwn := by
  cases h with
  | write => exact nofun
  | value layout v w => exact (layout.unpatched_program v).patchesFrom w.offset w

end WriteProgram

end ChatCodec
