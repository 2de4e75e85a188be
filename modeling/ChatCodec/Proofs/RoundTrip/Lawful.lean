import ChatCodec.Proofs.Reading.Rollback
import ChatCodec.Proofs.RoundTrip.Normal
import ChatCodec.Proofs.RoundTrip.Serializers
import ChatCodec.Proofs.Writing.Bounded
import ChatCodec.Proofs.Writing.Rollback

/-!
# Envelopes around any lawful serializer

A serializer is lawful if it reads back what it writes, up to a normal form, within the sizes it
announces, and does nothing where it fails. Lists and envelopes of lawful serializers are lawful,
whatever else these do: which bytes they write may depend on the writer, and what they read on the
place of the reader. The serializer of a layout is lawful too, up to the normal form
`Layout.withOwnCodes`, but not for all values: a list of too many elements without bytes is written
and not read, and so is a set of two codes that are the same byte. It is for those that are
`Layout.Readable`.

* `Serializer.Encodes` — some bytes are a lawful output for a value;
* `Serializer.Lawful` — a serializer that writes lawful output or nothing, and reads all or nothing;
* `Serializer.Nested` — serializers built from lawful ones by lists, envelopes and rooms to create.

Main results: `Serializer.Nested.lawful`, and against values of any kind
`Serializer.not_lawful_for_all`.
-/

namespace ChatCodec

open Write (output Parts Puts Whole whole_count whole_nullableText whole_primitive whole_pure
  whole_text whole_throw)
open Read

variable {α β : Type}

namespace Serializer

/-- The bytes are as many as announced for the value, and they are read back as its normal form if
the value is `Good`, wherever they lie and whatever follows. -/
structure Encodes (s : Serializer α) (Good : α → Prop) (normal : α → α) (a : α) (src : Bytes) :
    Prop where
  minSize_le : s.minSize ≤ src.length
  length_le : src.length ≤ s.maxSize a
  takes : Good a → TakesAnywhere s.deserialize src (normal a)

/-- A write adds bytes that encode the value, or nothing at all where it fails. A read moves the
cursor inside its capacity, or not at all where it fails. -/
structure Lawful (scope : Writer.Scope) (s : Serializer α) (Good : α → Prop) (normal : α → α) :
    Prop where
  writes : ∀ a, Whole scope (s.serialize a) (s.Encodes Good normal a)
  reads : Stays s.deserialize

variable {scope : Writer.Scope} {s : Serializer α} {Good : α → Prop} {normal : α → α}

/-- Bytes that encode a value encode another one too, by a serializer that announces the same sizes,
if they are read back as its normal form. -/
theorem Encodes.transfer {s' : Serializer β} {Good' : β → Prop} {normal' : β → β} {a : α} {b : β}
    {src : Bytes} (h : s.Encodes Good normal a src) (hmin : s'.minSize = s.minSize)
    (hmax : s'.maxSize b = s.maxSize a)
    (htakes : Good' b → TakesAnywhere s'.deserialize src (normal' b)) :
    s'.Encodes Good' normal' b src where
  minSize_le := hmin ▸ h.minSize_le
  length_le := hmax ▸ h.length_le
  takes := htakes

/-- What is written to one writer, a reader that starts with it takes. -/
theorem Lawful.read_of_write (h : s.Lawful scope Good normal) {a : α} {src : Bytes} {w : Writer}
    (hgood : Good a) (hw : scope.Covers w) (hfits : w.Fits src.length)
    (hsmall : src.length < UInt64.size) (hwrite : s.serialize a w = .ok () (w.append src)) :
    s.deserialize (Reader.ofBytes src) =
      .ok (normal a) ((Reader.ofBytes src).advance src.length) := by
  obtain ⟨src', hadds, hencodes⟩ := (h.writes a).ok hw hwrite
  -- what was added is what the buffer shows behind the bytes of before
  obtain rfl : src' = src := List.append_cancel_left
    (hadds.visible.symm.trans (Writer.adds_append hw.1 hfits).visible)
  have hrest : (Reader.ofBytes src').rest = src' := Reader.rest_ofBytes src'
  exact hencodes.takes hgood _ [] (Reader.valid_ofBytes src') (by rw [hrest, List.append_nil])
    (by rwa [hrest])

/-! ## Several values in turn -/

section Parts

variable {values : List α} {src : Bytes}

theorem length_mul_minSize_le (h : Parts (s.Encodes Good normal) values src) :
    values.length * s.minSize ≤ src.length := by
  induction values generalizing src with
  | nil => simp
  | cons a values ih =>
    obtain ⟨first, more, hfirst, hmore, rfl⟩ := h
    have hle := hfirst.minSize_le
    have hrest := ih hmore
    rw [List.length_cons, List.length_append, Nat.succ_mul]
    omega

theorem length_le_totalSize (h : Parts (s.Encodes Good normal) values src) :
    src.length ≤ Layout.totalSize (values.map s.maxSize) := by
  induction values generalizing src with
  | nil =>
    cases h
    exact Nat.le_refl 0
  | cons a values ih =>
    obtain ⟨first, more, hfirst, hmore, rfl⟩ := h
    rw [List.length_append]
    exact Nat.add_le_add hfirst.length_le (ih hmore)

theorem takesAnywhere_times (h : Parts (s.Encodes Good normal) values src)
    (hgood : ∀ a ∈ values, Good a) :
    TakesAnywhere (times s.deserialize values.length) src (values.map normal) := by
  induction values generalizing src with
  | nil =>
    cases h
    exact takesAnywhere_pure []
  | cons a values ih =>
    obtain ⟨first, more, hfirst, hmore, rfl⟩ := h
    have hrest := ih hmore fun b hb => hgood b (List.mem_cons_of_mem a hb)
    exact (hfirst.takes (hgood a List.mem_cons_self)).bind (hrest.bind_pure _)

end Parts

/-! ## Responses -/

/-- The error code of a response comes back, and its payload is good if it is sent. -/
def GoodResponse (Good : α → Prop) (response : Response α) : Prop :=
  ErrorCode.ofInt8 response.error.toInt8 = response.error ∧
    (response.isSuccess = true → ∀ payload, response.payload = some payload → Good payload)

/-- The normal form of a response: that of its payload, if it is sent. -/
def normalResponse (style : ResponseStyle) (normal : α → α) (response : Response α) : Response α :=
  { response.normalize style with
    payload := (response.normalize style).payload.map normal }

/-- The bytes of the payload of a success; a failure has none. -/
def PayloadPut (s : Serializer α) (Good : α → Prop) (normal : α → α) (response : Response α)
    (src : Bytes) : Prop :=
  if response.isSuccess then
    ∃ payload, response.payload = some payload ∧ s.Encodes Good normal payload src
  else
    src = []

theorem clean_readMessage (style : ResponseStyle) : Clean (readMessage style) := by
  cases style with
  | codeOnly => exact (parses_pure none).clean
  | detailed => exact clean_text

theorem takesAnywhere_readMessage {style : ResponseStyle} {response : Response α} {src : Bytes}
    (hout : output (writeMessage style response.message) = .ok ((), src)) :
    TakesAnywhere (readMessage style) src (response.normalize style).message :=
  (clean_readMessage style).local.takesAnywhere fun _ => Restores.takes_readMessage hout

namespace Lawful

theorem whole_writePayload (h : s.Lawful scope Good normal) (response : Response α) :
    Whole scope (writePayload s response) (s.PayloadPut Good normal response) := by
  unfold writePayload PayloadPut
  cases response.isSuccess with
  | true =>
    cases response.payload with
    | some payload => exact (h.writes payload).mono fun src hsrc => ⟨payload, rfl, hsrc⟩
    | none => exact whole_throw _
  | false => exact whole_pure ()

theorem stays_readPayload (h : s.Lawful scope Good normal) (error : ErrorCode) :
    Stays (readPayload s error) := by
  unfold readPayload
  split
  · exact h.reads.map some
  · exact stays_pure none

end Lawful

theorem takesAnywhere_readPayload {style : ResponseStyle} {response : Response α} {src : Bytes}
    (hput : s.PayloadPut Good normal response src) (hgood : GoodResponse Good response) :
    TakesAnywhere (readPayload s response.error) src
      (normalResponse style normal response).payload := by
  have hnormal : (normalResponse style normal response).payload =
      (if response.isSuccess then response.payload else none).map normal := rfl
  have hsent := hgood.2
  rw [hnormal, readPayload]
  unfold PayloadPut at hput
  show TakesAnywhere (if response.isSuccess then _ else _) src _
  cases hsuccess : response.isSuccess with
  | true =>
    rw [hsuccess] at hput hsent
    obtain ⟨payload, hpayload, hsrc⟩ := hput
    rw [if_pos rfl, if_pos rfl, hpayload]
    exact (hsrc.takes (hsent rfl payload hpayload)).map some
  | false =>
    rw [hsuccess] at hput
    obtain rfl : src = [] := hput
    exact takesAnywhere_pure none

theorem length_payload_le {response : Response α} {src : Bytes}
    (hput : s.PayloadPut Good normal response src) : src.length ≤
      if response.isSuccess then (response.payload.map s.maxSize).getD 0 else 0 := by
  unfold PayloadPut at hput
  split at hput
  · next hsuccess =>
    obtain ⟨payload, hpayload, hsrc⟩ := hput
    rw [if_pos hsuccess, hpayload]
    exact hsrc.length_le
  · next hfailure =>
    rw [hput, if_neg hfailure]
    exact Nat.le_refl 0

/-! ## Lists, envelopes and rooms -/

namespace Lawful

/-- A good value has to come back in its normal form. -/
theorem ofLayout (layout : Layout α)
    (htakes : ∀ v src, Good v → output (layout.write v) = .ok ((), src) →
      src.length < UInt64.size → Takes layout.read src (normal v)) :
    (Serializer.ofLayout layout).Lawful scope Good normal where
  writes v := (layout.whole_write v).mono fun src hout =>
    ⟨layout.minSize_le_length hout, Nat.le_of_eq (layout.length_output hout), fun hv =>
      layout.clean_read.local.takesAnywhere (htakes v src hv hout)⟩
  reads := layout.clean_read.stays

theorem ofReadable (layout : Layout α) :
    (Serializer.ofLayout layout).Lawful scope layout.Readable layout.withOwnCodes :=
  ofLayout layout fun _ _ => layout.takes_withOwnCodes

theorem ofPlain (layout : Layout α) (h : layout.isPlain = true) :
    (Serializer.ofLayout layout).Lawful scope (fun _ => True) id :=
  ofLayout layout fun v _ _ => layout.takes_read (layout.recoverable_of_isPlain h v)

/-- Values that stand for others come back as what the normal forms of these stand for. -/
theorem through (h : s.Lawful scope Good normal) (toWire : β → α) (ofWire : α → β) :
    (s.through toWire ofWire).Lawful scope (fun b => Good (toWire b))
      (fun b => ofWire (normal (toWire b))) where
  writes b := (h.writes (toWire b)).mono fun _ hsrc =>
    hsrc.transfer rfl rfl fun hgood => (hsrc.takes hgood).map ofWire
  reads := h.reads.map ofWire

/-- Rooms for listings come back without their members. -/
theorem roomSummary :
    Serializer.roomSummary.Lawful scope (fun _ => True) RoomInfo.withoutMembers :=
  (ofPlain RoomInfo.headLayout rfl).through RoomInfo.head (RoomInfo.ofHead · [])

theorem list (h : s.Lawful scope Good normal) :
    (Serializer.list s).Lawful scope
      (fun values => (s.minSize = 0 → values.length ≤ maxEmptyElements) ∧ ∀ a ∈ values, Good a)
      (List.map normal) where
  writes values := by
    have helements := Puts.each (fun a => (h.writes a).puts) values
    refine ((whole_count values.length).puts.bind fun _ => helements).atomic.mono ?_
    rintro src ⟨first, more, hcount, hmore, rfl⟩
    obtain ⟨length, hprefixed, rfl⟩ := Write.output_count_eq_ok hcount
    have hlength : (Primitive.i32.encode length).length = 4 := Primitive.length_encode _ _
    refine ⟨?_, ?_, fun hgood => ?_⟩
    -- an empty list is a count alone, whatever the elements would take
    · rw [List.length_append, hlength]
      exact Nat.le_add_right 4 _
    · rw [List.length_append, hlength]
      exact Nat.add_le_add_left (length_le_totalSize hmore) 4
    · -- the count is believed, since each element has the size its serializer announces
      exact (takesAnywhere_counted hprefixed (length_mul_minSize_le hmore) hgood.1
        (takesAnywhere_times hmore hgood.2)).atomic
  reads := ((clean_count s.minSize).stays.moves.bind fun n => h.reads.moves.times n).atomic

theorem tokenRequest (h : s.Lawful scope Good normal) :
    (Serializer.tokenRequest s).Lawful scope (fun request => Good request.payload)
      (fun request => { request with payload := normal request.payload }) where
  writes request := by
    refine ((whole_text request.token).puts.bind fun _ =>
      (h.writes request.payload).puts).atomic.mono ?_
    rintro src ⟨token, payload, htoken, hpayload, rfl⟩
    have hlength := Layout.length_output_text htoken
    have hmin : Layout.text.minSize ≤ token.length := Layout.text.minSize_le_length htoken
    have htakes : TakesAnywhere requiredText token request.token :=
      clean_requiredText.local.takesAnywhere fun _ => takes_requiredText htoken
    refine ⟨?_, ?_, fun hgood => ?_⟩
    · rw [List.length_append]
      exact Nat.add_le_add hmin hpayload.minSize_le
    · rw [List.length_append, hlength]
      exact Nat.add_le_add_left hpayload.length_le _
    · exact (htakes.bind ((hpayload.takes hgood).bind_pure _)).atomic
  reads := (clean_requiredText.stays.moves.bind fun _ =>
    h.reads.moves.bind fun _ => (stays_pure _).moves).atomic

theorem sessionRequest (h : s.Lawful scope Good normal) :
    (Serializer.sessionRequest s).Lawful scope (fun request => Good request.payload)
      (fun request => { request with payload := normal request.payload }) where
  writes request := by
    refine ((whole_primitive .snowflake request.userId).puts.bind fun _ =>
      (whole_primitive .uuid request.sessionId).puts.bind fun _ =>
        (h.writes request.payload).puts).atomic.mono ?_
    rintro src ⟨_, _, rfl, ⟨_, payload, rfl, hpayload, rfl⟩, rfl⟩
    have hmin := hpayload.minSize_le
    have hmax := hpayload.length_le
    -- the two ids take 24 bytes
    have hlength : (Primitive.snowflake.encode request.userId ++
        (Primitive.uuid.encode request.sessionId ++ payload)).length =
          sessionSize + payload.length := by
      rw [List.length_append, List.length_append, Primitive.length_encode, Primitive.length_encode,
        ← Nat.add_assoc]
      rfl
    have hids {α : Type} (p : Primitive α) (a : α) :
        TakesAnywhere (Read.primitive p) (p.encode a) a :=
      (parses_primitive p).local.takesAnywhere fun _ => takes_primitive p a
    refine ⟨?_, ?_, fun hgood => ?_⟩
    · rw [hlength]
      exact Nat.add_le_add_left hmin sessionSize
    · rw [hlength]
      exact Nat.add_le_add_left hmax sessionSize
    · exact ((hids .snowflake request.userId).bind ((hids .uuid request.sessionId).bind
        ((hpayload.takes hgood).bind_pure _))).atomic
  reads := ((parses_primitive _).clean.stays.moves.bind fun _ =>
    (parses_primitive _).clean.stays.moves.bind fun _ =>
      h.reads.moves.bind fun _ => (stays_pure _).moves).atomic

theorem response (h : s.Lawful scope Good normal) (style : ResponseStyle) :
    (Serializer.response style s).Lawful scope (GoodResponse Good)
      (normalResponse style normal) where
  writes response := by
    refine ((whole_primitive .i8 response.error.toInt8).puts.bind fun _ =>
      (whole_writeMessage style response.message).puts.bind fun _ =>
        (h.whole_writePayload response).puts).atomic.mono ?_
    rintro src ⟨_, _, rfl, ⟨message, payload, hmessage, hpayload, rfl⟩, rfl⟩
    have hlength := (within_writeMessage style response.message).length_le hmessage
    have hmax := length_payload_le hpayload
    refine ⟨?_, ?_, fun hgood => ?_⟩
    · -- the code, and in the detailed style the prefix of the message
      rw [List.length_append, List.length_append, Primitive.length_encode]
      cases style with
      | codeOnly => exact Nat.le_add_right 1 _
      | detailed =>
        have hmin : Layout.nullableText.minSize ≤ message.length :=
          Layout.nullableText.minSize_le_length hmessage
        exact Nat.add_le_add_left (Nat.le_trans hmin (Nat.le_add_right _ _)) 1
    · rw [List.length_append, List.length_append, Primitive.length_encode, ← Nat.add_assoc]
      exact Nat.add_le_add (Nat.add_le_add_left hlength 1) hmax
    · have hcode : TakesAnywhere Layout.errorCode.read (Primitive.i8.encode response.error.toInt8)
          response.error :=
        Layout.errorCode.clean_read.local.takesAnywhere
          (Layout.errorCode.takes_read hgood.1 (Write.output_primitive _ _))
      exact (hcode.bind ((takesAnywhere_readMessage hmessage).bind
        ((takesAnywhere_readPayload hpayload hgood).bind_pure _))).atomic
  reads := (Layout.errorCode.clean_read.stays.moves.bind fun error =>
    (clean_readMessage style).stays.moves.bind fun _ =>
      (h.stays_readPayload error).moves.bind fun _ => (stays_pure _).moves).atomic

theorem groupRoom : Serializer.groupRoom.Lawful scope (fun _ => True) id where
  writes
    | .group room => ((ofPlain CreateGroupRoom.layout rfl).writes room).mono fun _ hsrc =>
      hsrc.transfer rfl rfl fun _ => (hsrc.takes trivial).map CreateRoom.group
    | .direct _ => whole_throw _
  reads := CreateGroupRoom.layout.clean_read.stays.map CreateRoom.group

theorem directRoom : Serializer.directRoom.Lawful scope (fun _ => True) id where
  writes
    | .direct room => ((ofPlain CreateDirectRoom.layout rfl).writes room).mono fun _ hsrc =>
      hsrc.transfer rfl rfl fun _ => (hsrc.takes trivial).map CreateRoom.direct
    | .group _ => whole_throw _
  reads := CreateDirectRoom.layout.clean_read.stays.map CreateRoom.direct

/-- A room to create is as lawful as the form of its kind. -/
theorem createRoom {forms : RoomForms} {Good : RoomKind → CreateRoom → Prop}
    {normal : RoomKind → CreateRoom → CreateRoom}
    (h : ∀ kind form, forms.get? kind = some form → form.Lawful scope (Good kind) (normal kind)) :
    (Serializer.createRoom forms).Lawful scope (fun room => Good room.kind room)
      (fun room => normal room.kind room) where
  writes room := by
    cases hform : forms.get? room.kind with
    | none =>
      rw [serialize_createRoom_of_none hform]
      exact whole_throw _
    | some form =>
      have hlawful := h room.kind form hform
      rw [serialize_createRoom hform]
      refine ((Layout.roomKind.whole_write room.kind).puts.bind fun _ =>
        (hlawful.writes room).puts).atomic.mono ?_
      rintro src ⟨kind, fields, hkind, hfields, rfl⟩
      have hlength : kind.length = 1 := Layout.roomKind.length_output hkind
      have htakes : TakesAnywhere Layout.roomKind.read kind room.kind :=
        Layout.roomKind.clean_read.local.takesAnywhere (Layout.roomKind.takes_read trivial hkind)
      refine ⟨?_, ?_, fun hgood => ?_⟩
      · -- the least size of all forms is no more than that of this one
        rw [List.length_append, hlength]
        exact Nat.le_trans (minSize_createRoom_le hform)
          (Nat.add_le_add_left hfields.minSize_le 1)
      · rw [List.length_append, hlength, maxSize_createRoom hform]
        exact Nat.add_le_add_left hfields.length_le 1
      · refine (htakes.bind ?_).atomic
        rw [RoomForms.form, hform]
        exact hfields.takes hgood
  reads := by
    refine (Layout.roomKind.clean_read.stays.moves.bind fun kind => ?_).atomic
    rw [RoomForms.form]
    cases hform : forms.get? kind with
    | some form => exact (h kind form hform).reads.moves
    | none => exact (stays_throw _).moves

end Lawful

/-! ## Nested to any depth -/

/-- Serializers built from lawful ones, with the values that come back from them and as what. -/
inductive Nested (scope : Writer.Scope) :
    {α : Type} → Serializer α → (α → Prop) → (α → α) → Prop
  /-- Any lawful serializer. -/
  | ofLawful {α : Type} {s : Serializer α} {Good : α → Prop} {normal : α → α}
      (h : s.Lawful scope Good normal) : Nested scope s Good normal
  /-- A value by its layout. Chat messages, users and rooms are of this kind. -/
  | ofLayout {α : Type} (layout : Layout α) :
      Nested scope (.ofLayout layout) layout.Readable layout.withOwnCodes
  /-- A room without its members. -/
  | roomSummary : Nested scope .roomSummary (fun _ => True) RoomInfo.withoutMembers
  | groupRoom : Nested scope .groupRoom (fun _ => True) id
  | directRoom : Nested scope .directRoom (fun _ => True) id
  /-- A room to create, in the form of its kind. -/
  | createRoom {forms : RoomForms} {Good : RoomKind → CreateRoom → Prop}
      {normal : RoomKind → CreateRoom → CreateRoom}
      (h : ∀ kind form, forms.get? kind = some form →
        Nested scope form (Good kind) (normal kind)) :
      Nested scope (.createRoom forms) (fun room => Good room.kind room)
        (fun room => normal room.kind room)
  | list {α : Type} {s : Serializer α} {Good : α → Prop} {normal : α → α}
      (h : Nested scope s Good normal) :
      Nested scope (.list s)
        (fun values => (s.minSize = 0 → values.length ≤ maxEmptyElements) ∧ ∀ a ∈ values, Good a)
        (List.map normal)
  | tokenRequest {π : Type} {s : Serializer π} {Good : π → Prop} {normal : π → π}
      (h : Nested scope s Good normal) :
      Nested scope (.tokenRequest s) (fun request => Good request.payload)
        (fun request => { request with payload := normal request.payload })
  | sessionRequest {π : Type} {s : Serializer π} {Good : π → Prop} {normal : π → π}
      (h : Nested scope s Good normal) :
      Nested scope (.sessionRequest s) (fun request => Good request.payload)
        (fun request => { request with payload := normal request.payload })
  | response {π : Type} {s : Serializer π} {Good : π → Prop} {normal : π → π}
      (style : ResponseStyle) (h : Nested scope s Good normal) :
      Nested scope (.response style s) (GoodResponse Good) (normalResponse style normal)

/-- Whatever is built from lawful serializers is lawful: a list, a request or a response around any
lawful serializer, and all that is nested further. -/
theorem Nested.lawful (h : Nested scope s Good normal) : s.Lawful scope Good normal := by
  -- on the nesting: a serializer is lawful because those in it are
  induction h with
  | ofLawful h => exact h
  | ofLayout layout => exact .ofReadable layout
  | roomSummary => exact .roomSummary
  | groupRoom => exact .groupRoom
  | directRoom => exact .directRoom
  | createRoom _ ih => exact .createRoom ih
  | list _ ih => exact ih.list
  | tokenRequest _ ih => exact ih.tokenRequest
  | sessionRequest _ ih => exact ih.sessionRequest
  | response style _ ih => exact ih.response style

/-- A response with a list of rooms, each of which loses its members on the way. -/
theorem Nested.lawful_rooms :
    let Good : Response (List RoomInfo) → Prop := GoodResponse fun rooms =>
      (Serializer.roomSummary.minSize = 0 → rooms.length ≤ maxEmptyElements) ∧ ∀ room ∈ rooms, True
    let normal : Response (List RoomInfo) → Response (List RoomInfo) :=
      normalResponse .codeOnly (List.map RoomInfo.withoutMembers)
    let s : Serializer (Response (List RoomInfo)) := .response .codeOnly (.list .roomSummary)
    let room : RoomInfo := ⟨⟨1⟩, .group, some "a", ⟨2⟩, ⟨0⟩, [⟨2⟩, ⟨3⟩]⟩
    Nested .all s Good normal ∧ Good (.success [room]) ∧
      normal (.success [room]) = .success [{ room with members := [] }] ∧
      s.Lawful .all Good normal := by
  intro Good normal s room
  have hnested : Nested .all s Good normal := .response .codeOnly (.list .roomSummary)
  have hgood : Good (.success [room]) :=
    ⟨rfl, fun _ rooms hrooms => by cases hrooms; exact ⟨fun _ => by decide, fun _ _ => trivial⟩⟩
  exact ⟨hnested, hgood, rfl, Nested.lawful hnested⟩

/-! ## Values that do not come back -/

/-- If a value is written to a buffer, and refused by the reader, no normal form is right for it. -/
theorem not_lawful_of_refused {a : α} {e : CodecError} {src : Bytes}
    (hsmall : src.length < UInt64.size)
    (hwrite : s.serialize a (.growable .empty) = .ok () ((Writer.growable .empty).append src))
    (hread : s.deserialize (.ofBytes src) = .error e (.ofBytes src)) :
    ¬ ∃ normal, s.Lawful .buffers (fun _ => True) normal := by
  rintro ⟨normal, h⟩
  have hcovers : Writer.Scope.buffers.Covers (.growable .empty) :=
    ⟨Writer.valid_growable _, fun _ => rfl⟩
  have hok := h.read_of_write trivial hcovers (Write.growable_fits _ _) hsmall hwrite
  rw [hread] at hok
  cases hok

theorem each_write_empty (units : List Unit) :
    Write.each (Layout.write .empty) units = pure () := by
  induction units with
  | nil => rfl
  | cons _ units ih =>
    rw [Write.each, ih]
    rfl

/-- Some values are written and then refused by the reader, so that no normal form is right for all:
a list of too many units, a set of two codes that are the same byte, and a map with two such
keys. -/
theorem not_lawful_for_all :
    (let s := Serializer.ofLayout (.list .empty)
     let src : Bytes := [1, 0, 1, 0]
     s.serialize (.replicate 65537 ()) (.growable .empty) =
         .ok () ((Writer.growable .empty).append src) ∧
       s.deserialize (.ofBytes src) = .error (.invalidLength 65537) (.ofBytes src) ∧
       ¬ ∃ normal, s.Lawful .buffers (fun _ => True) normal) ∧
    (let s := Serializer.ofLayout (.set .errorCode)
     let src : Bytes := [2, 0, 0, 0, 0, 0]
     s.serialize ⟨[.success, .unknown 0], by decide⟩ (.growable .empty) =
         .ok () ((Writer.growable .empty).append src) ∧
       s.deserialize (.ofBytes src) = .error (.duplicateKey .set) (.ofBytes src) ∧
       ¬ ∃ normal, s.Lawful .buffers (fun _ => True) normal) ∧
    let s := Serializer.ofLayout (.map .errorCode .u8)
    let src : Bytes := [2, 0, 0, 0, 0, 7, 0, 8]
    s.serialize ⟨[(.success, 7), (.unknown 0, 8)], by decide⟩ (.growable .empty) =
        .ok () ((Writer.growable .empty).append src) ∧
      s.deserialize (.ofBytes src) = .error (.duplicateKey .map) (.ofBytes src) ∧
      ¬ ∃ normal, s.Lawful .buffers (fun _ => True) normal := by
  refine ⟨?_, ?_, ?_⟩
  · intro s src
    -- only the number of units matters to the writer
    have hunits {units : List Unit} (h : units.length = 65537) :
        s.serialize units (.growable .empty) =
          .ok () ((Writer.growable .empty).append src) := by
      have hserialize : s.serialize units = Layout.write (.list .empty) units := rfl
      rw [hserialize, Layout.write, each_write_empty, h]
      rfl
    have hwrite : s.serialize (.replicate 65537 ()) (.growable .empty) =
        .ok () ((Writer.growable .empty).append src) := hunits List.length_replicate
    have hread : s.deserialize (.ofBytes src) = .error (.invalidLength 65537) (.ofBytes src) := rfl
    exact ⟨hwrite, hread, not_lawful_of_refused (by decide) hwrite hread⟩
  · intro s src
    have hwrite : s.serialize ⟨[.success, .unknown 0], by decide⟩ (.growable .empty) =
        .ok () ((Writer.growable .empty).append src) := rfl
    have hread : s.deserialize (.ofBytes src) = .error (.duplicateKey .set) (.ofBytes src) := rfl
    exact ⟨hwrite, hread, not_lawful_of_refused (by decide) hwrite hread⟩
  · intro s src
    have hwrite : s.serialize ⟨[(.success, 7), (.unknown 0, 8)], by decide⟩ (.growable .empty) =
        .ok () ((Writer.growable .empty).append src) := rfl
    have hread : s.deserialize (.ofBytes src) = .error (.duplicateKey .map) (.ofBytes src) := rfl
    exact ⟨hwrite, hread, not_lawful_of_refused (by decide) hwrite hread⟩

end Serializer

end ChatCodec
