import ChatCodec.Proofs.Framing.Patching

/-!
# One program on both sinks

A buffer takes everything and is cut when something is taken back. A destination of fixed size
refuses what it has no room for, and keeps behind its offset what was taken back. As long as there
is room, nobody can tell them apart.

* `Writer.Twins` — a buffer and a destination, with the same bytes put into both.

A step makes twins of twins (`Writer.Twins.write`, `Writer.Twins.atomic`), and so does a run
(`Writer.Twins.steps`). Main result: `WriteProgram.sinks_agree`.
-/

namespace ChatCodec

open WriteProgram

variable {α β : Type} {buffer : Buffer} {destination : Bytes}

/-! ## Bytes put into a fresh writer -/

namespace Writer

variable {w v : Writer} {src : Bytes}

theorem valid_fixed (destination : Bytes) : (fixed destination).Valid :=
  Nat.zero_le _

theorem Adds.written_growable (h : (growable buffer).Adds src w) : w.written = src := by
  obtain ⟨sink, offset⟩ := w
  obtain ⟨-, hvisible, hbounds⟩ := h
  cases sink <;> cases hbounds
  next buffer' =>
  have hbytes : buffer'.bytes = buffer.bytes ++ src := hvisible
  show buffer'.bytes.drop buffer.length = src
  rw [hbytes]
  exact List.drop_left

theorem Adds.written_fixed (h : (fixed destination).Adds src w) : w.written = src := by
  obtain ⟨sink, offset⟩ := w
  obtain ⟨-, hvisible, hbounds⟩ := h
  cases sink with
  | growable => cases hbounds
  | fixed destination' => exact hvisible

section Fresh

variable {b : Writer} (hfresh : b.offset = 0)
include hfresh

/-- What was put into a fresh writer is as long as its offset says. -/
theorem Adds.offset_of_fresh (h : b.Adds src w) : w.offset = src.length := by
  rw [h.offset, hfresh, Nat.zero_add]

theorem Adds.replace_of_fresh {pos : Nat} {new : Bytes} (h : b.Adds src w) (hb : b.Valid)
    (hend : pos + new.length ≤ w.offset) :
    b.Adds (src.overwrite pos new) (w.replace pos new) := by
  rw [h.offset_of_fresh hfresh] at hend
  have hreplaced := h.replace hb hend
  rwa [hfresh, Nat.zero_add] at hreplaced

theorem Adds.take_of_fresh {n : Nat} (h : b.Adds src w) (hb : b.Valid) (hn : n ≤ w.offset) :
    b.Adds (src.take n) (w.truncate n) := by
  rw [h.offset_of_fresh hfresh] at hn
  have htaken := h.take hb hn
  rwa [hfresh, Nat.zero_add] at htaken

end Fresh

theorem Adds.fits_growable (h : (growable buffer).Adds src w) (n : Nat) : w.Fits n :=
  fits_of_space (space?_eq_none_iff.mpr ⟨_, h.bounds⟩) n

theorem Adds.fits_fixed_iff (h : (fixed destination).Adds src w) (n : Nat) :
    w.Fits n ↔ w.offset + n ≤ destination.length := by
  have hvalid := h.valid (valid_fixed destination)
  obtain ⟨sink, offset⟩ := w
  obtain ⟨-, -, hbounds⟩ := h
  cases sink with
  | growable => cases hbounds
  | fixed destination' =>
    have hlength : destination'.length = destination.length := Sum.inr.inj hbounds
    rw [fits_fixed hvalid, hlength]

/-! ## Twins -/

/-- The buffer `w` and the destination `v` have been given the same bytes. -/
def Twins (buffer : Buffer) (destination : Bytes) (w v : Writer) : Prop :=
  ∃ src, (growable buffer).Adds src w ∧ (fixed destination).Adds src v

namespace Twins

theorem refl (buffer : Buffer) (destination : Bytes) :
    Twins buffer destination (.growable buffer) (.fixed destination) :=
  ⟨[], .refl _, .refl _⟩

variable (h : Twins buffer destination w v)
include h

theorem offset : v.offset = w.offset := by
  obtain ⟨src, hw, hv⟩ := h
  rw [hw.offset_of_fresh rfl, hv.offset_of_fresh rfl]

theorem written : v.written = w.written := by
  obtain ⟨src, hw, hv⟩ := h
  rw [hw.written_growable, hv.written_fixed]

theorem valid_left : w.Valid := by
  obtain ⟨src, hw, -⟩ := h
  exact hw.valid (valid_growable buffer)

theorem valid_right : v.Valid := by
  obtain ⟨src, -, hv⟩ := h
  exact hv.valid (valid_fixed destination)

theorem extends_left : (growable buffer).Extends w := by
  obtain ⟨src, hw, -⟩ := h
  exact ⟨src, hw⟩

/-- The buffer has room for everything. -/
theorem fits_left (n : Nat) : w.Fits n := by
  obtain ⟨src, hw, -⟩ := h
  exact hw.fits_growable n

/-- The destination has room up to its end. -/
theorem fits_right {n : Nat} (hroom : w.offset + n ≤ destination.length) : v.Fits n := by
  rw [← h.offset] at hroom
  obtain ⟨src, -, hv⟩ := h
  exact (hv.fits_fixed_iff n).mpr hroom

theorem append {new : Bytes} (hroom : w.offset + new.length ≤ destination.length) :
    Twins buffer destination (w.append new) (v.append new) := by
  have hfits := h.fits_left new.length
  have hfits' := h.fits_right hroom
  have hvalid := h.valid_left
  have hvalid' := h.valid_right
  obtain ⟨src, hw, hv⟩ := h
  exact ⟨src ++ new, hw.trans (adds_append hvalid hfits), hv.trans (adds_append hvalid' hfits')⟩

theorem replace {pos : Nat} {new : Bytes} (hend : pos + new.length ≤ w.offset) :
    Twins buffer destination (w.replace pos new) (v.replace pos new) := by
  have hend' := hend
  rw [← h.offset] at hend'
  obtain ⟨src, hw, hv⟩ := h
  exact ⟨src.overwrite pos new, hw.replace_of_fresh rfl (valid_growable buffer) hend,
    hv.replace_of_fresh rfl (valid_fixed destination) hend'⟩

theorem truncate {n : Nat} (hn : n ≤ w.offset) :
    Twins buffer destination (w.truncate n) (v.truncate n) := by
  have hn' := hn
  rw [← h.offset] at hn'
  obtain ⟨src, hw, hv⟩ := h
  exact ⟨src.take n, hw.take_of_fresh rfl (valid_growable buffer) hn,
    hv.take_of_fresh rfl (valid_fixed destination) hn'⟩

/-- What a single write does to a buffer it does to a destination with room for it. -/
theorem write {writing : Writing} (single : writing.isSingle = true) :
    let t : Taken := ⟨.write writing single, w⟩
    let t' : Taken := ⟨.write writing single, v⟩
    t.after.offset ≤ destination.length →
      t'.answer = t.answer ∧ Twins buffer destination t.after t'.after := by
  unfold Taken.answer Taken.after WriteAct.run
  dsimp only
  rcases writing.single_cases single with ⟨src, hrun⟩ | ⟨e, hrun⟩ | ⟨pos, n, rfl⟩
  · have hok := (hrun w h.valid_left).trans (Write.bytes_apply (h.fits_left _))
    rw [Write.outcome_of_ok hok]
    intro hroom
    rw [Writer.offset_append] at hroom
    have hok' := (hrun v h.valid_right).trans (Write.bytes_apply (h.fits_right hroom))
    rw [Write.outcome_of_ok hok']
    exact ⟨rfl, h.append hroom⟩
  · rw [hrun]
    exact fun _ => ⟨rfl, h⟩
  · intro _
    rw [Writing.run]
    rcases Nat.lt_or_ge w.offset (pos + 4) with hlt | hle
    · have hlt' := hlt
      rw [← h.offset] at hlt'
      rw [Write.outcome_of_error (Write.patchI32_of_lt hlt),
        Write.outcome_of_error (Write.patchI32_of_lt hlt'), h.offset]
      exact ⟨rfl, h⟩
    · have hle' := hle
      rw [← h.offset] at hle'
      rw [Write.outcome_of_ok (Write.patchI32_apply hle),
        Write.outcome_of_ok (Write.patchI32_apply hle')]
      exact ⟨rfl, h.replace hle⟩

/-- A part with rollback, the same on both so far, is the same on both when it is taken back. -/
theorem atomic {body : WriteProgram β}
    (hanswer : (Write.outcome body.run v).1 = (Write.outcome body.run w).1)
    (hend : Twins buffer destination (Write.outcome body.run w).2 (Write.outcome body.run v).2) :
    let t : Taken := ⟨.atomic body, w⟩
    let t' : Taken := ⟨.atomic body, v⟩
    t'.answer = t.answer ∧ Twins buffer destination t.after t'.after := by
  intro t t'
  obtain ⟨-, -, hle⟩ := extends_steps body (valid_growable buffer) h.extends_left
    fun _ _ _ _ _ _ => Nat.zero_le _
  rcases Taken.atomic_cases body w with ⟨a, w', hout, hok, hafter⟩ | ⟨e, w', hout, herr, hafter⟩ <;>
    rcases Taken.atomic_cases body v with
      ⟨a', v', hout', hok', hafter'⟩ | ⟨e', v', hout', herr', hafter'⟩ <;>
    rw [hout, hout'] at hanswer hend <;> cases hanswer
  · exact ⟨hok'.trans hok.symm, hafter ▸ hafter' ▸ hend⟩
  · rw [hout] at hle
    refine ⟨herr'.trans herr.symm, ?_⟩
    show Twins buffer destination t.after t'.after
    rw [hafter, hafter', h.offset]
    exact hend.truncate hle

omit h

/-- The same step on twins is seen from outside as the same. -/
theorem record {act : WriteAct β} {w v : Writer}
    (hanswer : (⟨act, v⟩ : Taken).answer = (⟨act, w⟩ : Taken).answer)
    (hafter : Twins buffer destination (⟨act, w⟩ : Taken).after (⟨act, v⟩ : Taken).after) :
    (⟨act, v⟩ : Taken).record = (⟨act, w⟩ : Taken).record := by
  unfold Taken.record
  rw [hanswer, hafter.offset, hafter.written]

/-- A run is the same on both sinks, step by step, if the destination has room all the time. -/
theorem steps (program : WriteProgram α) (h : Twins buffer destination w v)
    (hroom : ∀ t ∈ program.steps w, t.after.offset ≤ destination.length) :
    (program.steps v).map Taken.record = (program.steps w).map Taken.record ∧
      (Write.outcome program.run v).1 = (Write.outcome program.run w).1 ∧
      Twins buffer destination (Write.outcome program.run w).2 (Write.outcome program.run v).2 := by
  induction program generalizing w v with
  | done result => cases result <;> exact ⟨rfl, rfl, h⟩
  | write writing single next ih =>
    let t' : Taken := ⟨.write writing single, v⟩
    obtain ⟨hfirst, hrest⟩ := List.forall_mem_cons.mp hroom
    obtain ⟨hanswer, hafter⟩ := h.write single hfirst
    obtain ⟨hrecords, hlast, hend⟩ := ih _ hafter hrest
    -- both go on in the same way, for they were answered the same
    show t'.record :: ((next t'.answer).steps t'.after).map Taken.record = _ ∧
      (Write.outcome (next t'.answer).run t'.after).1 = _ ∧
      Twins _ _ _ (Write.outcome (next t'.answer).run t'.after).2
    rw [hanswer]
    exact ⟨congrArg₂ List.cons (record hanswer hafter) hrecords, hlast, hend⟩
  | written next ih =>
    show ((next v.offset).steps v).map Taken.record = _ ∧
      (Write.outcome (next v.offset).run v).1 = _ ∧
      Twins _ _ _ (Write.outcome (next v.offset).run v).2
    rw [h.offset]
    exact ih w.offset h hroom
  | atomic body next ihBody ih =>
    let t' : Taken := ⟨.atomic body, v⟩
    obtain ⟨hinner, hroom⟩ := List.forall_mem_append.mp hroom
    obtain ⟨hinside, hlastInside, hendInside⟩ := ihBody h hinner
    obtain ⟨hanswer, hafter⟩ := h.atomic hlastInside hendInside
    obtain ⟨hrecords, hlast, hend⟩ := ih _ hafter (List.forall_mem_cons.mp hroom).2
    show (body.steps v ++ t' :: (next t'.answer).steps t'.after).map Taken.record =
        (body.steps w ++ _ :: _).map Taken.record ∧
      (Write.outcome (next t'.answer).run t'.after).1 = _ ∧
      Twins _ _ _ (Write.outcome (next t'.answer).run t'.after).2
    rw [hanswer, List.map_append, List.map_append, hinside]
    exact ⟨congrArg _ (congrArg₂ List.cons (record hanswer hafter) hrecords), hlast, hend⟩

end Twins

end Writer

/-! ## Any program, any buffer, any destination -/

namespace WriteProgram

variable {program : WriteProgram α} {b w : Writer} {t : Taken}

/-- Nothing can be written over before the start of a fresh writer. -/
theorem extends_fresh (program : WriteProgram α) (hb : b.Valid) (hfresh : b.offset = 0) :
    (∀ t ∈ program.steps b, b.Extends t.before ∧ b.Extends t.after) ∧
      b.Extends (Write.outcome program.run b).2 := by
  obtain ⟨hsteps, hend, -⟩ := extends_steps program hb (.refl b) fun _ _ _ _ _ _ => by
    rw [hfresh]
    exact Nat.zero_le _
  exact ⟨hsteps, hend⟩

theorem extends_of_mem_writers (hb : b.Valid) (hfresh : b.offset = 0)
    (hw : w ∈ program.writers b) : b.Extends w := by
  obtain ⟨hsteps, hend⟩ := extends_fresh program hb hfresh
  rcases List.mem_append.mp hw with hw | hw
  · obtain ⟨t, ht, rfl⟩ := List.mem_map.mp hw
    exact (hsteps t ht).2
  · obtain rfl := List.mem_singleton.mp hw
    exact hend

/-- A failed step of a run leaves no trace, unless it wrote over bytes that were there before. -/
theorem unchanged_of_error {e : CodecError} (hb : b.Valid) (hfresh : b.offset = 0)
    (ht : t ∈ program.steps b) (h : t.answer = .error e) (hown : t.IsPlain ∨ t.PatchesOwn) :
    t.after.offset = t.before.offset ∧ t.after.visible = t.before.visible := by
  have hvalid : t.before.Valid := ((extends_fresh program hb hfresh).1 t ht).1.valid hb
  have hadds := t.restores hvalid h (hown.elim Taken.IsPlain.patchesOwn id)
  exact ⟨hadds.offset, hadds.visible.trans (List.append_nil _)⟩

/-- **A buffer and a destination with enough room cannot be told apart.** Whatever a program does, a
buffer keeps what it held and shows what is written behind it, and a destination is not filled
beyond its end. A step that fails leaves nothing, if it is a single write or a value, or a part that
writes over nothing before it, as the frame of a packet is. If in the buffer there never are more
bytes than the destination holds, each step is the same on both. -/
theorem sinks_agree (program : WriteProgram α) (buffer : Buffer) (destination : Bytes) :
    let inBuffer := program.steps (.growable buffer)
    let inPlace := program.steps (.fixed destination)
    (∀ w ∈ program.writers (.growable buffer),
      w.visible = buffer.bytes ++ w.written ∧ w.written.length = w.offset) ∧
    (∀ w ∈ program.writers (.fixed destination),
      w.visible = w.written ∧ w.written.length = w.offset ∧ w.offset ≤ destination.length) ∧
    (∀ t ∈ inBuffer ++ inPlace, ∀ e, t.answer = .error e → t.IsPlain ∨ t.PatchesOwn →
      t.after.offset = t.before.offset ∧ t.after.visible = t.before.visible) ∧
    (∀ {β : Type} (layout : Layout β) (v : β),
      Write.atomic (layout.program v).run = Write.value layout v) ∧
    (∀ {β : Type} (codec : Codec) (packetType : PacketType) (errorCode : Option ErrorCode)
      (serializer : Serializer β) (body : β), serializer.Composed (fun _ s => s.Forward) →
        ∃ frame, codec.PutsFrame packetType errorCode serializer body frame) ∧
    ((∀ t ∈ inBuffer, t.after.offset ≤ destination.length) →
      inPlace.map Taken.record = inBuffer.map Taken.record ∧
      (Write.outcome program.run (.fixed destination)).1 =
        (Write.outcome program.run (.growable buffer)).1 ∧
      (program.writers (.fixed destination)).map Writer.written =
        (program.writers (.growable buffer)).map Writer.written) := by
  intro inBuffer inPlace
  refine ⟨fun w hw => ?_, fun w hw => ?_, fun t ht e herr hown => ?_, ?_, ?_, fun hroom => ?_⟩
  · obtain ⟨src, hadds⟩ := extends_of_mem_writers (Writer.valid_growable buffer) rfl hw
    rw [hadds.written_growable]
    exact ⟨hadds.visible, (hadds.offset_of_fresh rfl).symm⟩
  · obtain ⟨src, hadds⟩ := extends_of_mem_writers (Writer.valid_fixed destination) rfl hw
    rw [hadds.written_fixed]
    have hroom := (hadds.fits_fixed_iff 0).mp (Writer.fits_zero w)
    exact ⟨hadds.visible, (hadds.offset_of_fresh rfl).symm, hroom⟩
  · rcases List.mem_append.mp ht with ht | ht
    · exact unchanged_of_error (Writer.valid_growable buffer) rfl ht herr hown
    · exact unchanged_of_error (Writer.valid_fixed destination) rfl ht herr hown
  · intro β layout v
    exact layout.atomic_program v
  · intro β codec packetType errorCode serializer body hcomposed
    exact codec.exists_putsFrame packetType errorCode hcomposed.forward body
  · obtain ⟨hrecords, hlast, hend⟩ := (Writer.Twins.refl buffer destination).steps program hroom
    have hwritten := congrArg (List.map Record.written) hrecords
    rw [List.map_map, List.map_map] at hwritten
    refine ⟨hrecords, hlast, ?_⟩
    rw [writers, writers, List.map_append, List.map_append, List.map_map, List.map_map]
    exact congrArg₂ (· ++ ·) hwritten (congrArg ([·]) hend.written)

/-- A part that fails behind a patch of its own is taken back from both, and a patch far beyond the
end is refused by both. -/
theorem sinks_agree_patched :
    let words : Layout (UInt16 × UInt16) := .pair (.primitive .u16) (.primitive .u16)
    let program : WriteProgram Unit := value words (1, 2) fun _ =>
      atomic (write (.count 5) rfl fun _ => write (.patch 4 6) rfl fun _ =>
        single (.fail .missingPayload) rfl) fun _ =>
      write (.patch 18446744073709551615 7) rfl fun _ => single (.patch 0 8) rfl
    let inBuffer := program.steps (.growable (.ofBytes [9]))
    let inPlace := program.steps (.ofSize 8)
    (∀ t ∈ inBuffer, t.after.offset ≤ 8) ∧ inPlace.map Taken.record = inBuffer.map Taken.record ∧
      inPlace.map (·.after.written) = [[1, 0], [1, 0, 2, 0], [1, 0, 2, 0], [1, 0, 2, 0],
        [1, 0, 2, 0, 5, 0, 0, 0], [1, 0, 2, 0, 6, 0, 0, 0], [1, 0, 2, 0, 6, 0, 0, 0],
        [1, 0, 2, 0], [1, 0, 2, 0], [8, 0, 0, 0]] := by
  intro words program inBuffer inPlace
  have hroom : ∀ t ∈ inBuffer, t.after.offset ≤ 8 := by decide
  obtain ⟨-, -, -, -, -, hsame⟩ := sinks_agree program (.ofBytes [9]) (List.replicate 8 0)
  exact ⟨hroom, (hsame hroom).1, by decide⟩

end WriteProgram

end ChatCodec
