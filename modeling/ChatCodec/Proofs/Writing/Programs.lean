import ChatCodec.Proofs.Writing.Rollback
import ChatCodec.Writer.Program

/-!
# Programs of writes

A program writes by single writes and by parts with rollback, nested in any way, and goes on after
failures. What a single write does is one of three things: it puts some bytes behind those written,
it fails at once, or it writes over four bytes.

* `WriteProgram.Always` — all steps of a program are of some kind;
* `WriteProgram.Unpatched` — a program writes over nothing.

Main results: `Layout.run_program` and `Layout.unpatched_program` — a value is written by the
program of its parts, none of which writes over anything — and `Writing.single_cases`.
-/

namespace ChatCodec

variable {α β : Type}

/-! ## Programs and what they run as -/

namespace Write

variable {write : WriteM α} {w w' : Writer}

theorem outcome_of_ok {a : α} (h : write w = .ok a w') : outcome write w = (.ok a, w') := by
  rw [outcome, h]

theorem outcome_of_error {e : CodecError} (h : write w = .error e w') :
    outcome write w = (.error e, w') := by
  rw [outcome, h]

/-- A block with rollback does what is in it, and goes back to where it began if that fails. -/
theorem outcome_atomic (write : WriteM α) (w : Writer) :
    outcome (atomic write) w = match outcome write w with
      | (.ok a, w') => (.ok a, w')
      | (.error e, w') => (.error e, w'.truncate w.offset) := by
  unfold outcome atomic
  cases write w <;> rfl

end Write

namespace WriteProgram

theorem run_done_outcome (write : WriteM α) :
    (fun w => (done (Write.outcome write w).1).run (Write.outcome write w).2) = write := by
  funext w
  unfold Write.outcome
  cases write w <;> rfl

theorem run_single (writing : Writing) (h : writing.isSingle = true) :
    (single writing h).run = writing.run :=
  run_done_outcome _

theorem run_block (body : WriteProgram α) : body.block.run = Write.atomic body.run :=
  run_done_outcome _

theorem run_written (next : Nat → WriteProgram α) :
    (written next).run = (do (next (← get).offset).run) :=
  rfl

theorem run_andThen (first : WriteProgram α) (second : α → WriteProgram β) :
    (first.andThen second).run = first.run >>= fun a => (second a).run := by
  induction first with
  | done result => cases result <;> rfl
  | write writing h next ih =>
    funext w
    exact congrFun (ih _ second) _
  | written next ih =>
    funext w
    exact congrFun (ih _ second) w
  | atomic body next _ ih =>
    funext w
    exact congrFun (ih _ second) _

theorem run_each (program : α → WriteProgram Unit) (values : List α) :
    (each program values).run = Write.each (fun a => (program a).run) values := by
  induction values with
  | nil => rfl
  | cons a values ih => rw [each, run_andThen, ih, Write.each]

theorem run_counted (program : α → WriteProgram Unit) (values : List α) :
    (counted program values).run = (Write.atomic do
      Write.count values.length
      Write.each (fun a => (program a).run) values) := by
  have hcount : (single (.count values.length) rfl).run = Write.count values.length :=
    run_single _ _
  rw [counted, run_block, run_andThen, run_each, hcount]

end WriteProgram

open WriteProgram

/-- A value is written by the program of its parts. -/
theorem Layout.run_program (layout : Layout α) (v : α) :
    (layout.program v).run = layout.write v := by
  induction layout with
  | primitive | text | nullableText | errorCode | enumeration => exact run_single _ _
  | empty => rfl
  | pair first second ihFirst ihSecond =>
    simp only [program, write, run_block, run_andThen, ihFirst, ihSecond]
  | record shape fields ih => exact ih _
  | list element ih | set element ih => simp only [program, write, run_counted, ih]
  | map key value ihKey ihValue | orderedMap key value ihKey ihValue =>
    simp only [program, write, run_counted, run_andThen, ihKey, ihValue]

/-- As a block with rollback, that program is the write of the value. -/
theorem Layout.atomic_program (layout : Layout α) (v : α) :
    Write.atomic (layout.program v).run = Write.value layout v := by
  rw [layout.run_program, Write.value]

namespace WriteProgram

/-! ## What all steps of a program are like -/

theorem steps_andThen (first : WriteProgram α) (second : α → WriteProgram β) (w : Writer) :
    (first.andThen second).steps w = first.steps w ++
      match Write.outcome first.run w with
      | (.ok a, w') => (second a).steps w'
      | (.error _, _) => [] := by
  induction first generalizing w with
  | done result => cases result <;> rfl
  | write writing h next ih => exact congrArg (_ :: ·) (ih _ second _)
  | written next ih => exact ih _ second w
  | atomic body next _ ih =>
    simp only [andThen, steps, ih, List.append_assoc, List.cons_append]
    rfl

/-- All steps of the program are `P`, whatever writer it is run on. -/
def Always (P : Taken → Prop) (program : WriteProgram α) : Prop :=
  ∀ w, ∀ t ∈ program.steps w, P t

section Always

variable {P Q : Taken → Prop} {program : WriteProgram α}

theorem Always.mono (h : program.Always P) (hPQ : ∀ t, P t → Q t) : program.Always Q :=
  fun w t ht => hPQ t (h w t ht)

theorem always_done (result : Except CodecError α) : (done result).Always P :=
  fun _ _ ht => nomatch ht

theorem always_single {writing : Writing} (single : writing.isSingle = true)
    (h : ∀ w, P ⟨.write writing single, w⟩) : (WriteProgram.single writing single).Always P := by
  intro w t ht
  obtain rfl := List.mem_singleton.mp ht
  exact h w

theorem always_written {next : Nat → WriteProgram α} (h : ∀ n, (next n).Always P) :
    (written next).Always P :=
  fun w => h w.offset w

theorem Always.andThen {second : α → WriteProgram β} (h : program.Always P)
    (hsecond : ∀ a, (second a).Always P) : (program.andThen second).Always P := by
  intro w t ht
  rw [steps_andThen] at ht
  rcases List.mem_append.mp ht with ht | ht
  · exact h w t ht
  · split at ht
    · exact hsecond _ _ t ht
    · cases ht

theorem Always.block (h : program.Always P) (hblock : ∀ w, P ⟨.atomic program, w⟩) :
    program.block.Always P := by
  intro w t ht
  rcases List.mem_append.mp ht with ht | ht
  · exact h w t ht
  · obtain rfl := List.mem_singleton.mp ht
    exact hblock w

theorem Always.each {program : β → WriteProgram Unit} (h : ∀ b, (program b).Always P)
    (values : List β) : (each program values).Always P := by
  induction values with
  | nil => exact always_done _
  | cons b values ih => exact (h b).andThen fun _ => ih

end Always

/-- The program writes over nothing. -/
def Unpatched (program : WriteProgram α) : Prop :=
  program.Always fun t => t.act.patched? = none

theorem Unpatched.block {body : WriteProgram α} (h : body.Unpatched) : body.block.Unpatched :=
  Always.block h fun _ => rfl

theorem Unpatched.single {writing : Writing} (h : writing.isSingle = true)
    (hpatch : (WriteAct.write writing h).patched? = none) : (single writing h).Unpatched :=
  always_single h fun _ => hpatch

theorem Unpatched.counted {program : α → WriteProgram Unit} (h : ∀ a, (program a).Unpatched)
    (values : List α) : (counted program values).Unpatched :=
  have hcount : (WriteProgram.single (.count values.length) rfl).Unpatched := .single rfl rfl
  .block (hcount.andThen fun _ => .each h values)

end WriteProgram

/-- A value is written without writing over anything. -/
theorem Layout.unpatched_program (layout : Layout α) (v : α) : (layout.program v).Unpatched := by
  induction layout with
  | primitive | text | nullableText | errorCode | enumeration => exact .single _ rfl
  | empty => exact always_done _
  | pair first second ihFirst ihSecond =>
    exact .block ((ihFirst v.1).andThen fun _ => ihSecond v.2)
  | record shape fields ih => exact ih _
  | list element ih | set element ih =>
    exact .counted ih _
  | map key value ihKey ihValue | orderedMap key value ihKey ihValue =>
    exact .counted (fun _ => (ihKey _).andThen fun _ => ihValue _) _

/-! ## Single writes -/

/-- A single write puts some bytes at once, fails at once, or writes over four bytes. -/
theorem Writing.single_cases (writing : Writing) (h : writing.isSingle = true) :
    (∃ src, ∀ w, w.Valid → writing.run w = Write.bytes src w) ∨
    (∃ e, writing.run = throw e) ∨ ∃ pos n, writing = .patch pos n := by
  have hprefixed (n : Nat) : (∃ length, Write.prefix32 n = .ok length) ∨
      ∃ e, Write.prefix32 n = .error e := by
    cases Write.prefix32 n with
    | ok length => exact .inl ⟨length, rfl⟩
    | error e => exact .inr ⟨e, rfl⟩
  have htext (s : String) : (∃ src, ∀ w, w.Valid → Write.text s w = Write.bytes src w) ∨
      ∃ e, Write.text s = throw e := by
    rcases hprefixed (Text.toBytes s).length with ⟨length, hlength⟩ | ⟨e, he⟩
    · exact .inl ⟨_, fun w hw => Write.text_apply hw hlength⟩
    · exact .inr ⟨e, by rw [Write.text, he]⟩
  cases writing with
  | primitive p a => exact .inl ⟨p.encode a, fun _ _ => rfl⟩
  | text s => exact (htext s).imp_right .inl
  | nullableText s =>
    cases s with
    | some s => exact (htext s).imp_right .inl
    | none => exact .inl ⟨_, fun _ _ => rfl⟩
  | bytes src => exact .inl ⟨src, fun _ _ => rfl⟩
  | count n =>
    rcases hprefixed n with ⟨length, hlength⟩ | ⟨e, he⟩
    · exact .inl ⟨Primitive.i32.encode length, fun w _ => by rw [run, Write.count, hlength]; rfl⟩
    · exact .inr (.inl ⟨e, by rw [run, Write.count, he]⟩)
  | value => cases h
  | patch pos n => exact .inr (.inr ⟨pos, n, rfl⟩)
  | fail e => exact .inr (.inl ⟨e, rfl⟩)

end ChatCodec
