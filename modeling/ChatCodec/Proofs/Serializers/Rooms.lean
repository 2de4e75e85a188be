import ChatCodec.Proofs.RoundTrip.Lawful

/-!
# Rooms to create, in whatever forms

The forms of rooms are given kind by kind, and any kind may get the form of either kind: a later
call for the same kind replaces what an earlier one gave. A room is sent just if the form its kind
was given last is its own. With the form of the other kind, or none, it is refused, after its kind
was written, and nothing of it is left. Its own form refuses a room, too, if its name or its members
are too long for a prefix. A kind without a form is not read either.

* `Write.refusal?` — why a write into an empty buffer fails, if it does, part by part;
* `Serializer.Sends` — what becomes of a value in a buffer, and of what was written in a reader;
* `RoomForms.ofCalls` — the forms after some calls;
* `RoomForms.last?` — the last call for a kind;
* `RoomForms.refusal?` — why a room is refused, if it is.

Main result: `RoomForms.sends_ofCalls`.
-/

namespace ChatCodec

open Write (output)
open Read

variable {α : Type}

/-! ## Refusals

Into a buffer, a write made of several parts fails as the first part that does.
-/

namespace Write

/-- The error of a write into an empty buffer. -/
def refusal? (write : WriteM Unit) : Option CodecError :=
  match output write with
  | .ok _ => none
  | .error e => some e

/-- The error of a length that no prefix can say. -/
def overlong? (n : Nat) : Option CodecError :=
  if maxPrefix < n then some (.payloadTooLarge n maxPrefix) else none

theorem overlong?_of_lt {n : Nat} (h : maxPrefix < n) :
    overlong? n = some (.payloadTooLarge n maxPrefix) :=
  if_pos h

theorem overlong?_of_le {n : Nat} (h : n ≤ maxPrefix) : overlong? n = none :=
  if_neg (Nat.not_lt.mpr h)

section Refusals

variable {write : WriteM Unit} {next : Unit → WriteM Unit}

theorem refusal?_eq_none : refusal? write = none ↔ ∃ src, output write = .ok ((), src) := by
  unfold refusal?
  cases output write with
  | ok answer => exact iff_of_true rfl ⟨answer.2, rfl⟩
  | error e => exact iff_of_false nofun nofun

theorem refusal?_eq_some {e : CodecError} : refusal? write = some e ↔ output write = .error e := by
  unfold refusal?
  cases output write with
  | ok answer => exact iff_of_false nofun nofun
  | error e' =>
    rw [Option.some_inj, Except.error.injEq]

theorem refusal?_atomic (write : WriteM Unit) : refusal? (atomic write) = refusal? write := by
  rw [refusal?, refusal?, output_atomic]

theorem refusal?_bind (hwrite : Local write) (hnext : Local (next ())) :
    refusal? (write >>= next) = (refusal? write).or (refusal? (next ())) := by
  cases hfirst : output write with
  | error e =>
    rw [refusal?_eq_some.mpr hfirst, refusal?_eq_some.mpr (output_bind_of_error hfirst)]
    rfl
  | ok answer =>
    rw [refusal?_eq_none.mpr ⟨_, hfirst⟩, Option.none_or, refusal?, refusal?,
      output_bind_of_ok hwrite hnext hfirst]
    cases output (next ()) <;> rfl

theorem refusal?_primitive (p : Primitive α) (a : α) : refusal? (primitive p a) = none :=
  refusal?_eq_none.mpr ⟨_, output_primitive p a⟩

theorem prefix32_cases (n : Nat) :
    (∃ length, prefix32 n = .ok length ∧ overlong? n = none) ∨
    ∃ e, prefix32 n = .error e ∧ overlong? n = some e := by
  rcases Nat.lt_or_ge maxPrefix n with hlong | hle
  · exact .inr ⟨_, if_neg (Nat.not_le.mpr hlong), overlong?_of_lt hlong⟩
  · exact .inl ⟨_, if_pos hle, overlong?_of_le hle⟩

theorem refusal?_count (n : Nat) : refusal? (count n) = overlong? n := by
  rcases prefix32_cases n with ⟨length, hprefixed, hlong⟩ | ⟨e, hprefixed, hlong⟩
  · rw [hlong, count, hprefixed]
    exact refusal?_primitive .i32 length
  · rw [hlong, count, hprefixed]
    rfl

theorem refusal?_text (s : String) : refusal? (text s) = overlong? s.utf8ByteSize := by
  rw [← Text.length_toBytes]
  rcases prefix32_cases (Text.toBytes s).length with
    ⟨length, hprefixed, hlong⟩ | ⟨e, hprefixed, hlong⟩
  · rw [hlong]
    exact refusal?_eq_none.mpr ⟨_, output_text hprefixed⟩
  · rw [hlong, text, hprefixed]
    rfl

theorem refusal?_each {write : α → WriteM Unit} (hwrite : ∀ a, Local (write a))
    (values : List α) :
    refusal? (each write values) = values.findSome? fun a => refusal? (write a) := by
  induction values with
  | nil => rfl
  | cons a values ih =>
    rw [each, refusal?_bind (hwrite a) (Local.each hwrite values), ih, List.findSome?_cons]
    cases refusal? (write a) <;> rfl

theorem refusal?_counted {write : α → WriteM Unit} (hwrite : ∀ a, Local (write a))
    (values : List α) :
    refusal? (atomic do
      count values.length
      each write values) =
      (overlong? values.length).or (values.findSome? fun a => refusal? (write a)) := by
  rw [refusal?_atomic, refusal?_bind (local_count _) (Local.each hwrite values), refusal?_count,
    refusal?_each hwrite]

end Refusals

end Write

open Write (refusal? overlong?)

/-! ## Sending -/

namespace Serializer

/-- What becomes of a value in a buffer, whatever the buffer holds. With a refusal, the write fails
with it and leaves nothing behind. Without one, the value is written, and any reader that comes to
the bytes written reads the value and moves on by just these bytes. -/
def Sends (s : Serializer α) (a : α) : Option CodecError → Prop
  | none => ∃ src, (∀ w : Writer, w.Valid → w.space? = none →
      ∃ w', s.serialize a w = .ok () w' ∧ w.Adds src w') ∧ TakesAnywhere s.deserialize src a
  | some e => ∀ w : Writer, w.Valid → w.space? = none →
      ∃ w', s.serialize a w = .error e w' ∧ w.Adds [] w'

/-- A lawful serializer sends what it does not refuse. -/
theorem Lawful.sends {s : Serializer α} {Good : α → Prop} {normal : α → α} {a : α}
    (h : s.Lawful .buffers Good normal) (hlocal : s.WritesLocally) (hgood : Good a)
    (hnormal : normal a = a) : s.Sends a (refusal? (s.serialize a)) := by
  cases hrefusal : refusal? (s.serialize a) with
  | none =>
    obtain ⟨src, hout⟩ := Write.refusal?_eq_none.mp hrefusal
    have hok {w : Writer} (hw : w.Valid) (hspace : w.space? = none) :
        s.serialize a w = .ok () (w.append src) :=
      (hlocal a).ok hw hout (Writer.fits_of_space hspace _)
    refine ⟨src, fun w hw hspace => ⟨_, hok hw hspace,
      Writer.adds_append hw (Writer.fits_of_space hspace _)⟩, ?_⟩
    -- that the bytes come back is known of those added to any one buffer
    have hvalid := Writer.valid_growable .empty
    obtain ⟨src', hadds, hencodes⟩ := (h.writes a).ok ⟨hvalid, fun _ => rfl⟩ (hok hvalid rfl)
    obtain rfl : src' = src := List.append_cancel_left (hadds.visible.symm.trans
      (Writer.adds_append hvalid (Writer.fits_of_space rfl _)).visible)
    rw [← hnormal]
    exact hencodes.takes hgood
  | some e =>
    intro w hw hspace
    obtain ⟨e', w', herror, he⟩ := (hlocal a).error hw (Write.refusal?_eq_some.mp hrefusal)
    obtain rfl : e' = e := he.resolve_right fun hfull => hfull.1 hspace
    exact ⟨w', herror, (h.writes a).error ⟨hw, fun _ => hspace⟩ herror⟩

end Serializer

/-! ## Forms -/

/-- The form a kind of room has of its own. -/
def RoomKind.form : RoomKind → Serializer CreateRoom
  | group => .groupRoom
  | direct => .directRoom

/-- The error of a room too long for its prefixes. No form takes such a room. -/
def CreateRoom.overlong? : CreateRoom → Option CodecError
  | group room => (Write.overlong? room.name.utf8ByteSize).or (Write.overlong? room.members.length)
  | direct _ => none

namespace RoomForms

/-- The forms after some calls; each call gives a kind the form of some kind. -/
def ofCalls (calls : List (RoomKind × RoomKind)) : RoomForms :=
  calls.foldl (fun forms call => forms.insert call.1 call.2.form) .empty

/-- Whose form a kind was given last. -/
def last? (calls : List (RoomKind × RoomKind)) (kind : RoomKind) : Option RoomKind :=
  (calls.reverse.find? fun call => call.1 == kind).map Prod.snd

/-- Why a room is refused: its kind was not given its own form, or the room is too long. -/
def refusal? (calls : List (RoomKind × RoomKind)) (room : CreateRoom) : Option CodecError :=
  if last? calls room.kind = some room.kind then room.overlong? else some room.kind.unsupported

section Calls

variable {calls : List (RoomKind × RoomKind)} {kind : RoomKind} {form : Serializer CreateRoom}

theorem get?_insert (forms : RoomForms) (kind' : RoomKind) (form : Serializer CreateRoom) :
    (forms.insert kind' form).get? kind = if kind' = kind then some form else forms.get? kind := by
  cases kind' <;> cases kind <;> rfl

theorem last?_cons (call : RoomKind × RoomKind) : last? (call :: calls) kind =
    (last? calls kind).or (if call.1 = kind then some call.2 else none) := by
  have hhead : ([call].find? fun call => call.1 == kind).map Prod.snd =
      if call.1 = kind then some call.2 else none := by
    rw [List.find?_singleton]
    by_cases h : call.1 = kind <;> simp [h]
  rw [last?, List.reverse_cons, List.find?_append, Option.map_or, hhead, last?]

theorem get?_foldl (forms : RoomForms) :
    (calls.foldl (fun forms call => forms.insert call.1 call.2.form) forms).get? kind =
      ((last? calls kind).map RoomKind.form).or (forms.get? kind) := by
  induction calls generalizing forms with
  | nil => rfl
  | cons call calls ih =>
    rw [List.foldl_cons, ih, get?_insert, last?_cons]
    -- a later call for the kind hides this one
    cases last? calls kind with
    | some later => rfl
    | none => split <;> rfl

/-- A kind has the form it was given last. -/
theorem get?_ofCalls (calls : List (RoomKind × RoomKind)) (kind : RoomKind) :
    (ofCalls calls).get? kind = (last? calls kind).map RoomKind.form := by
  have hempty : RoomForms.empty.get? kind = none := by cases kind <;> rfl
  rw [ofCalls, get?_foldl, hempty, Option.or_none]

/-- Only the forms of the two kinds are given. -/
theorem exists_form (h : (ofCalls calls).get? kind = some form) :
    ∃ own : RoomKind, form = own.form := by
  rw [get?_ofCalls] at h
  obtain ⟨own, -, rfl⟩ := Option.map_eq_some_iff.mp h
  exact ⟨own, rfl⟩

end Calls

/-! ## What forms write -/

theorem local_form (kind : RoomKind) : kind.form.WritesLocally := by
  intro room
  cases kind <;> cases room
  · exact CreateGroupRoom.layout.local_write _
  · exact Write.local_throw _
  · exact Write.local_throw _
  · exact CreateDirectRoom.layout.local_write _

theorem lawful_form {scope : Writer.Scope} (kind : RoomKind) :
    kind.form.Lawful scope (fun _ => True) id := by
  cases kind with
  | group => exact .groupRoom
  | direct => exact .directRoom

theorem local_deserialize_form (kind : RoomKind) : Local kind.form.deserialize := by
  cases kind with
  | group => exact CreateGroupRoom.layout.clean_read.local.map CreateRoom.group
  | direct => exact CreateDirectRoom.layout.clean_read.local.map CreateRoom.direct

theorem refusal?_groupRoom (room : CreateGroupRoom) :
    Write.refusal? (CreateGroupRoom.layout.write room) = (CreateRoom.group room).overlong? := by
  have hids : (room.members.findSome? fun a => Write.refusal? (Layout.snowflake.write a)) = none :=
    List.findSome?_eq_none_iff.mpr fun _ _ => Write.refusal?_primitive _ _
  show Write.refusal? (Write.atomic do
    Layout.text.write room.name
    Layout.snowflake.list.write room.members) = _
  rw [Write.refusal?_atomic, Write.refusal?_bind (Layout.text.local_write _)
    (Layout.snowflake.list.local_write _), Layout.write, Layout.write, Write.refusal?_text,
    Write.refusal?_counted Layout.snowflake.local_write, hids, Option.or_none]
  rfl

/-- A form takes the rooms of its kind, unless they are too long, and no others. -/
theorem refusal?_form (kind : RoomKind) (room : CreateRoom) :
    Write.refusal? (kind.form.serialize room) =
      if kind = room.kind then room.overlong? else some room.kind.unsupported := by
  cases kind <;> cases room
  · exact refusal?_groupRoom _
  · rfl
  · rfl
  · exact Write.refusal?_primitive _ _

theorem refusal?_createRoom (calls : List (RoomKind × RoomKind)) (room : CreateRoom) :
    Write.refusal? ((Serializer.createRoom (ofCalls calls)).serialize room) =
      refusal? calls room := by
  have hget := get?_ofCalls calls room.kind
  unfold refusal?
  cases hlast : last? calls room.kind with
  | none =>
    rw [hlast] at hget
    rw [Serializer.serialize_createRoom_of_none hget]
    rfl
  | some own =>
    rw [hlast] at hget
    -- the kind itself is written in any case
    rw [Serializer.serialize_createRoom hget, Write.refusal?_atomic,
      Write.refusal?_bind (Layout.roomKind.local_write _) (local_form own room), Layout.roomKind,
      Layout.write, Write.refusal?_primitive, Option.none_or, refusal?_form]
    simp only [Option.some_inj]

/-! ## Rooms alone and inside other values -/

section Sends

variable (calls : List (RoomKind × RoomKind))

theorem local_createRoom : (Serializer.createRoom (ofCalls calls)).WritesLocally :=
  Serializer.writesLocally_createRoom fun kind form h => by
    obtain ⟨own, rfl⟩ := exists_form h
    exact local_form own

theorem lawful_createRoom {scope : Writer.Scope} :
    (Serializer.createRoom (ofCalls calls)).Lawful scope (fun _ => True) id := by
  have hforms (kind : RoomKind) (form : Serializer CreateRoom)
      (h : (ofCalls calls).get? kind = some form) : form.Lawful scope (fun _ => True) id := by
    obtain ⟨own, rfl⟩ := exists_form h
    exact lawful_form own
  exact @Serializer.Lawful.createRoom scope (ofCalls calls) (fun _ _ => True) (fun _ => id) hforms

theorem sends_createRoom (room : CreateRoom) :
    (Serializer.createRoom (ofCalls calls)).Sends room (refusal? calls room) := by
  rw [← refusal?_createRoom]
  exact (lawful_createRoom calls).sends (local_createRoom calls) trivial rfl

theorem sends_sessionRequest (request : SessionRequest CreateRoom) :
    (Serializer.sessionRequest (.createRoom (ofCalls calls))).Sends request
      (refusal? calls request.payload) := by
  have hlocal := local_createRoom calls
  have hrefusal : Write.refusal? ((Serializer.sessionRequest
      (.createRoom (ofCalls calls))).serialize request) = refusal? calls request.payload := by
    -- the two ids are written in any case
    rw [Serializer.sessionRequest, Write.refusal?_atomic,
      Write.refusal?_bind (Write.local_primitive _ _)
        ((Write.local_primitive _ _).bind fun _ => hlocal _),
      Write.refusal?_bind (Write.local_primitive _ _) (hlocal _), Write.refusal?_primitive,
      Write.refusal?_primitive, Option.none_or, Option.none_or, refusal?_createRoom]
  rw [← hrefusal]
  exact (lawful_createRoom calls).sessionRequest.sends
    (Serializer.writesLocally_sessionRequest hlocal) trivial rfl

theorem sends_list (rooms : List CreateRoom) :
    (Serializer.list (.createRoom (ofCalls calls))).Sends rooms
      ((overlong? rooms.length).or (rooms.findSome? (refusal? calls))) := by
  have hlocal := local_createRoom calls
  have hrefusal : Write.refusal? ((Serializer.list (.createRoom (ofCalls calls))).serialize rooms) =
      (overlong? rooms.length).or (rooms.findSome? (refusal? calls)) := by
    rw [Serializer.list, Write.refusal?_counted hlocal]
    simp only [refusal?_createRoom]
  rw [← hrefusal]
  refine (lawful_createRoom calls).list.sends (Serializer.writesLocally_list hlocal)
    ⟨fun hmin => ?_, fun _ _ => trivial⟩ (List.map_id rooms)
  -- a room has a kind at least
  rw [Serializer.createRoom, Nat.add_eq_zero_iff] at hmin
  exact absurd hmin.1 Nat.one_ne_zero

end Sends

section Overlong

variable {calls : List (RoomKind × RoomKind)} {n : Nat}

theorem sends_group_of_overlong {room : CreateGroupRoom} (hlast : last? calls .group = some .group)
    (hname : room.name.utf8ByteSize ≤ Write.maxPrefix) (hlength : room.members.length = n)
    (hlong : Write.maxPrefix < n) :
    (Serializer.createRoom (ofCalls calls)).Sends (.group room)
      (some (.payloadTooLarge n Write.maxPrefix)) := by
  have hrefusal : refusal? calls (.group room) = some (.payloadTooLarge n Write.maxPrefix) := by
    rw [refusal?, CreateRoom.kind, if_pos hlast, CreateRoom.overlong?,
      Write.overlong?_of_le hname, Option.none_or, hlength, Write.overlong?_of_lt hlong]
  exact hrefusal ▸ sends_createRoom calls (.group room)

theorem sends_list_of_overlong {rooms : List CreateRoom} (hlength : rooms.length = n)
    (hlong : Write.maxPrefix < n) :
    (Serializer.list (.createRoom (ofCalls calls))).Sends rooms
      (some (.payloadTooLarge n Write.maxPrefix)) := by
  have hrooms := sends_list calls rooms
  rwa [hlength, Write.overlong?_of_lt hlong, Option.some_or] at hrooms

end Overlong

/-! ## What is not read -/

/-- The kind of a room is its first byte, if that names one. -/
theorem run_roomKind (byte : UInt8) (rest : Bytes) :
    run Layout.roomKind.read (byte :: rest) =
      match RoomKind.ofByte? byte with
      | some kind => .ok (kind, 1)
      | none => .error (.unknownDiscriminant .roomKind byte) := by
  have hbyte : run (Read.primitive .u8) (byte :: rest) = .ok (byte, 1) :=
    takes_primitive .u8 byte rest
  rw [Layout.roomKind, Layout.read, run_atomic,
    run_bind_of_ok (parses_primitive _).local ?hname hbyte]
  case hname =>
    split
    · exact (parses_pure _).local
    · exact (parses_throw _).local
  have hofByte : RoomKind.enumeration.ofByte? byte = RoomKind.ofByte? byte := rfl
  rw [hofByte]
  cases RoomKind.ofByte? byte <;> rfl

/-- A byte that names no kind with a form is refused, whatever follows it. -/
theorem deserialize_of_unnamed (calls : List (RoomKind × RoomKind)) {r : Reader} {byte : UInt8}
    {rest : Bytes} (hr : r.Valid) (hrest : r.rest = byte :: rest)
    (h : ∀ kind, RoomKind.ofByte? byte = some kind → last? calls kind = none) :
    (Serializer.createRoom (ofCalls calls)).deserialize r =
      .error (.unknownDiscriminant .roomKind byte) r := by
  have hforms (kind : RoomKind) (form : Serializer CreateRoom)
      (h : (ofCalls calls).get? kind = some form) : Local form.deserialize := by
    obtain ⟨own, rfl⟩ := exists_form h
    exact local_deserialize_form own
  have hfields := Serializer.local_readFields hforms
  have hkind := Layout.roomKind.clean_read.local
  have hrun : run (Serializer.createRoom (ofCalls calls)).deserialize (byte :: rest) =
      .error (.unknownDiscriminant .roomKind byte) := by
    have hbyte := run_roomKind byte rest
    rw [Serializer.createRoom, run_atomic]
    cases hname : RoomKind.ofByte? byte with
    | none =>
      rw [hname] at hbyte
      exact run_bind_of_error hkind hbyte
    | some kind =>
      rw [hname] at hbyte
      have hform : (ofCalls calls).form kind = .error kind.unsupported := by
        rw [RoomForms.form, get?_ofCalls, h kind hname]
        rfl
      rw [run_bind_of_ok hkind (hfields kind) hbyte, hform, RoomKind.unsupported,
        RoomKind.toByte_of_ofByte? hname]
      rfl
  rw [Parses.eq (Serializer.clean_createRoom hforms) hr, hrest, hrun]
  rfl

/-- Whatever forms were given to which kinds, a room, alone, in a request or in a list, is sent just
if its kind was last given the form of that kind, and neither the room nor the list has a length
that no prefix can say. It is refused otherwise, and nothing is left of what was written: by its
kind, if the form of that kind was not given last, and else by the length. And whatever follows a
byte that names no kind, or one without a form, the reader refuses this byte and stays. -/
theorem sends_ofCalls (calls : List (RoomKind × RoomKind)) :
    let s := Serializer.createRoom (ofCalls calls)
    (∀ room, s.Sends room (refusal? calls room)) ∧
    (∀ request, (Serializer.sessionRequest s).Sends request (refusal? calls request.payload)) ∧
    (∀ rooms, (Serializer.list s).Sends rooms
      ((overlong? rooms.length).or (rooms.findSome? (refusal? calls)))) ∧
    ∀ (r : Reader) byte rest, r.Valid → r.rest = byte :: rest →
      (∀ kind, RoomKind.ofByte? byte = some kind → last? calls kind = none) →
      s.deserialize r = .error (.unknownDiscriminant .roomKind byte) r :=
  ⟨sends_createRoom calls, sends_sessionRequest calls, sends_list calls,
    fun _ _ _ => deserialize_of_unnamed calls⟩

/-- Group rooms in their own form first and then in that of direct rooms, which have none. -/
theorem sends_ofCalls_crossed :
    let s := Serializer.createRoom (ofCalls [(.group, .group), (.group, .direct)])
    s.Sends (.group ⟨"ops", [⟨2⟩]⟩) (some (.unknownDiscriminant .roomKind 1)) ∧
      s.deserialize (.ofBytes [2, 9, 0]) =
        .error (.unknownDiscriminant .roomKind 2) (.ofBytes [2, 9, 0]) := by
  obtain ⟨hroom, -, -, hread⟩ := sends_ofCalls [(.group, .group), (.group, .direct)]
  refine ⟨hroom (.group ⟨"ops", [⟨2⟩]⟩), hread _ 2 [9, 0] (Reader.valid_ofBytes _) rfl ?_⟩
  intro kind hkind
  cases kind with
  | group => exact absurd hkind (by decide)
  | direct => rfl

/-- The form of its own kind does not take every room. It refuses one with more members than a
prefix can say. So is a list refused of more rooms than that, each of which alone is sent. -/
theorem refuses_of_own_form :
    let calls : List (RoomKind × RoomKind) := [(.group, .group)]
    let s := Serializer.createRoom (ofCalls calls)
    last? calls .group = some .group ∧
      s.Sends (.group ⟨"", .replicate 2147483648 ⟨0⟩⟩)
        (some (.payloadTooLarge 2147483648 2147483647)) ∧
      s.Sends (.group ⟨"", []⟩) none ∧
      (Serializer.list s).Sends (.replicate 2147483648 (.group ⟨"", []⟩))
        (some (.payloadTooLarge 2147483648 2147483647)) := by
  have hlast : last? [(.group, .group)] .group = some .group := rfl
  have hlong : Write.maxPrefix < 2147483648 := Nat.lt_succ_self _
  exact ⟨hlast, sends_group_of_overlong hlast (Nat.zero_le _) List.length_replicate hlong,
    sends_createRoom [(.group, .group)] (.group ⟨"", []⟩),
    sends_list_of_overlong List.length_replicate hlong⟩

end RoomForms

end ChatCodec
