import ChatCodec.Proofs.Framing.Atomicity
import ChatCodec.Proofs.Writing.Steps

/-!
# Frames are programs too

To put out a frame is to run a program: its header, the content, and the size of the content over
the four bytes kept free in the header. Nothing else is ever written over, by no serializer, so a
frame that fails on the way can be taken back.

* `Write.Forward` — the write is a program that writes over nothing;
* `Serializer.Forward` — so is that of every value;
* `Codec.PutsFrame` — the program puts out a frame, and writes over nothing before it.

Main results: `Serializer.Composed.forward` and `Codec.exists_putsFrame`.
-/

namespace ChatCodec

open WriteProgram

variable {α β : Type}

/-! ## Writes that write over nothing -/

namespace Write

/-- The write is what a program does that writes over nothing. -/
def Forward (write : WriteM α) : Prop :=
  ∃ program : WriteProgram α, program.Unpatched ∧ program.run = write

variable {write : WriteM α} {next : α → WriteM β}

theorem forward_pure (a : α) : Forward (pure a : WriteM α) :=
  ⟨done (.ok a), always_done _, rfl⟩

theorem forward_throw (e : CodecError) : Forward (throw e : WriteM α) :=
  ⟨done (.error e), always_done _, rfl⟩

theorem forward_single (writing : Writing) (single : writing.isSingle = true)
    (hpatch : (WriteAct.write writing single).patched? = none) : Forward writing.run :=
  ⟨.single writing single, .single single hpatch, run_single writing single⟩

theorem Forward.bind (h : Forward write) (hnext : ∀ a, Forward (next a)) :
    Forward (write >>= next) := by
  obtain ⟨first, hfirst, rfl⟩ := h
  obtain ⟨second, hsecond⟩ := Classical.axiomOfChoice hnext
  refine ⟨first.andThen second, hfirst.andThen fun a => (hsecond a).1, ?_⟩
  rw [run_andThen]
  exact congrArg _ (funext fun a => (hsecond a).2)

theorem Forward.atomic (h : Forward write) : Forward (atomic write) := by
  obtain ⟨body, hbody, rfl⟩ := h
  exact ⟨body.block, hbody.block, run_block body⟩

theorem Forward.each {write : α → WriteM Unit} (h : ∀ a, Forward (write a)) (values : List α) :
    Forward (each write values) := by
  induction values with
  | nil => exact forward_pure ()
  | cons a rest ih => exact (h a).bind fun _ => ih

end Write

open Write

theorem Layout.forward_write (layout : Layout α) (v : α) : Forward (layout.write v) :=
  ⟨layout.program v, layout.unpatched_program v, layout.run_program v⟩

/-! ## Serializers -/

namespace Serializer

/-- The serializer writes over nothing. -/
def Forward (s : Serializer α) : Prop :=
  ∀ a, Write.Forward (s.serialize a)

theorem Forward.forward_writePayload {s : Serializer α} (h : s.Forward) (response : Response α) :
    Write.Forward (writePayload s response) := by
  unfold writePayload
  split
  · split
    · exact h _
    · exact forward_throw _
  · exact forward_pure ()

theorem forward_writeMessage (style : ResponseStyle) (message : Option String) :
    Write.Forward (writeMessage style message) := by
  cases style with
  | codeOnly => exact forward_pure ()
  | detailed => exact forward_single (.nullableText message) rfl rfl

/-- A serializer made of ones that write over nothing writes over nothing. -/
theorem Composed.forward {s : Serializer α} (h : s.Composed @Forward) : s.Forward := by
  induction h with
  | leaf h => exact h
  | ofLayout layout => exact layout.forward_write
  | through _ toWire _ ih => exact fun b => ih (toWire b)
  | groupRoom =>
    intro room
    cases room with
    | group room => exact CreateGroupRoom.layout.forward_write room
    | direct room => exact forward_throw _
  | directRoom =>
    intro room
    cases room with
    | group room => exact forward_throw _
    | direct room => exact CreateDirectRoom.layout.forward_write room
  | createRoom _ ih =>
    intro room
    cases hform : RoomForms.get? _ room.kind with
    | some form =>
      rw [serialize_createRoom hform]
      have hfields := ih room.kind form hform room
      exact ((Layout.roomKind.forward_write room.kind).bind fun _ => hfields).atomic
    | none =>
      rw [serialize_createRoom_of_none hform]
      exact forward_throw _
  | list _ ih =>
    intro values
    have hcount : Write.Forward (count values.length) := forward_single (.count _) rfl rfl
    exact (hcount.bind fun _ => .each ih values).atomic
  | tokenRequest _ ih =>
    intro request
    have htoken : Write.Forward (text request.token) := forward_single (.text _) rfl rfl
    exact (htoken.bind fun _ => ih request.payload).atomic
  | sessionRequest _ ih =>
    intro request
    have huser : Write.Forward (primitive .snowflake request.userId) :=
      forward_single (.primitive _ _) rfl rfl
    have hsession : Write.Forward (primitive .uuid request.sessionId) :=
      forward_single (.primitive _ _) rfl rfl
    exact (huser.bind fun _ => hsession.bind fun _ => ih request.payload).atomic
  | response style _ ih =>
    intro response
    have hcode := Layout.errorCode.forward_write response.error
    exact (hcode.bind fun _ => (forward_writeMessage style response.message).bind fun _ =>
      ih.forward_writePayload response).atomic

end Serializer

/-! ## Frames -/

theorem Header.forward_write (h : Header) (signature : UInt16) :
    Forward (h.write signature) := by
  have hprimitive {α : Type} (p : Primitive α) (a : α) : Forward (primitive p a) :=
    forward_single (.primitive p a) rfl rfl
  have hcode : Forward h.writeErrorCode := by
    unfold writeErrorCode
    split
    · exact hprimitive .i8 _
    · exact forward_pure ()
  exact ((hprimitive .u16 signature).bind fun _ => (hprimitive .u32 h.packetType.code).bind
    fun _ => hcode.bind fun _ => hprimitive .i32 h.contentSize).atomic

namespace Codec

variable {codec : Codec} {packetType : PacketType} {errorCode : Option ErrorCode}
variable {serializer : Serializer α} {body : α}

/-- The program, as a part with rollback, puts out the frame. It writes over nothing before it. -/
structure PutsFrame (codec : Codec) (packetType : PacketType) (errorCode : Option ErrorCode)
    (serializer : Serializer α) (body : α) (frame : WriteProgram Nat) : Prop where
  run : Write.atomic frame.run = codec.encodeWith packetType errorCode serializer body
  own : ∀ w, (⟨.atomic frame, w⟩ : Taken).PatchesOwn

/-- To write over four bytes, as a program. -/
def patching (pos : Nat) (n : Int32) : WriteProgram Unit :=
  single (.patch pos n) rfl

/-- What is done behind the content, step by step. -/
def finishing (codec : Codec) (header : Header) (start contentStart : Nat) : WriteProgram Nat :=
  written fun contentEnd =>
    let size := contentEnd - contentStart
    if codec.config.maxContentSize < size then
      done (.error (.payloadTooLarge size codec.config.maxContentSize))
    else
      (patching (start + header.contentSizeOffset) (.ofNat size)).andThen fun _ =>
        written fun n => done (.ok (n - start))

theorem run_finishing (codec : Codec) (header : Header) (start contentStart : Nat) :
    (codec.finishing header start contentStart).run = codec.finish header start contentStart := by
  have hpatch (pos : Nat) (n : Int32) : (patching pos n).run = Write.patchI32 pos n :=
    run_single _ _
  rw [finishing, finish, run_written]
  congr 1
  funext w
  dsimp only
  split
  · rfl
  · rw [run_andThen, hpatch]
    rfl

theorem patchesFrom_patching {start pos : Nat} (hpos : start ≤ pos) (n : Int32) :
    (patching pos n).Always (Taken.PatchesFrom start) := by
  refine always_single rfl fun w pos' hpos' _ _ => ?_
  cases hpos'
  exact hpos

/-- The size of the content is written over bytes of the frame. -/
theorem patchesFrom_finishing (codec : Codec) (header : Header) (start contentStart : Nat) :
    (codec.finishing header start contentStart).Always (Taken.PatchesFrom start) := by
  intro w t ht
  rw [finishing, steps] at ht
  dsimp only at ht
  split at ht
  · cases ht
  · have hpatch := patchesFrom_patching (Nat.le_add_right start header.contentSizeOffset)
      (.ofNat (w.offset - contentStart))
    exact hpatch.andThen (fun _ => always_written fun _ => always_done _) w t ht

/-- To put out a frame is to run a program that writes over nothing before the frame. -/
theorem exists_putsFrame (codec : Codec) (packetType : PacketType) (errorCode : Option ErrorCode)
    (hcontent : serializer.Forward) (body : α) :
    ∃ frame, PutsFrame codec packetType errorCode serializer body frame := by
  let header := provisionalHeader packetType errorCode
  obtain ⟨front, hfront, hrunFront⟩ := header.forward_write codec.config.signature
  obtain ⟨content, hforward, hrunContent⟩ := hcontent body
  let opened (start : Nat) : WriteProgram Nat := front.andThen fun _ =>
    written fun contentStart => content.andThen fun _ => codec.finishing header start contentStart
  have hopened (start : Nat) : (opened start).Always (Taken.PatchesFrom start) :=
    (hfront.patchesFrom start).andThen fun _ => always_written fun contentStart =>
      (hforward.patchesFrom start).andThen fun _ =>
        codec.patchesFrom_finishing header start contentStart
  refine ⟨written opened, ?_, fun w => hopened w.offset w⟩
  rw [encodeWith_eq_finish]
  simp only [opened, run_written, run_andThen, run_finishing, hrunFront, hrunContent]
  rfl

end Codec

end ChatCodec
