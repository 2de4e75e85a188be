import ChatCodec.Proofs.RoundTrip.Serializers

/-!
# Every value has one spelling

What is read is written again as the very bytes it was read from: no reader accepts a second
spelling of a value, such as another byte for true, another negative length for an absent string, or
bytes that are not UTF-8. Only sets and maps may come in any order, and no packet has one.

* `Read.Spells` — a write puts out what a read consumed;
* `Layout.isSequential` — a layout without sets and maps;
* `Serializer.Canonical` — a serializer that writes what it read.

The parts that a read consumes one after another are put together by `output_take_add`. Main
results: `Layout.spells_read`, and from it `Packet.canonical`.
-/

namespace ChatCodec

open Write (output)
open Read

variable {α β : Type}

/-! ## Prefixes -/

namespace Write

theorem ofNat_toNat_toInt {length : Int32} (h : 0 ≤ length.toInt) :
    Int32.ofNat length.toInt.toNat = length := by
  have hint : Int32.ofInt length.toInt.toNat = length := by
    rw [Int.toNat_of_nonneg h, Int32.ofInt_toInt]
  exact hint

/-- A length that is not negative is the prefix of what it counts. -/
theorem prefix32_toInt {length : Int32} (h : 0 ≤ length.toInt) :
    prefix32 length.toInt.toNat = .ok length := by
  have hlt := length.toInt_lt
  rw [prefix32, if_pos (by rw [maxPrefix]; omega), ofNat_toNat_toInt h]

/-- Writes one after the other put out adjoining parts as one. -/
theorem output_take_add {write next : WriteM Unit} {src : Bytes} {m k : Nat}
    (hwrite : Write.Local write) (hnext : Write.Local next)
    (h : output write = .ok ((), src.take m))
    (hmore : output next = .ok ((), (src.drop m).take k)) :
    output (write >>= fun _ => next) = .ok ((), src.take (m + k)) :=
  (output_bind_eq_ok hwrite fun _ => hnext).mpr
    ⟨(), src.take m, (src.drop m).take k, h, hmore, List.take_add⟩

end Write

/-! ## Reads -/

namespace Read

/-- What is read is written as the bytes it was read from. -/
def Spells (read : ReadM α) (write : α → WriteM Unit) : Prop :=
  ∀ src a n, run read src = .ok (a, n) → output (write a) = .ok ((), src.take n)

variable {read : ReadM α} {write : α → WriteM Unit} {src : Bytes} {n : Nat}

theorem spells_primitive (p : Primitive α) : Spells (primitive p) (Write.primitive p) := by
  intro src a n h
  obtain ⟨htake, -⟩ := eq_of_run_primitive h
  rw [Write.output_primitive, htake]

/-- A value made of another one is written as that one was read. -/
theorem Spells.map {f : α → β} {write' : β → WriteM Unit} (h : Spells read write)
    (hread : Local read) (hwrite : ∀ a, write' (f a) = write a) : Spells (f <$> read) write' := by
  intro src b n hrun
  obtain ⟨a, ha, rfl⟩ := run_bind_pure_eq_ok hread hrun
  rw [hwrite]
  exact h src a n ha

theorem Spells.atomic (h : Spells read write) :
    Spells (atomic read) fun a => Write.atomic (write a) := by
  intro src a n hrun
  rw [run_atomic] at hrun
  rw [Write.output_atomic]
  exact h src a n hrun

/-! ### Strings -/

/-- Bytes that are read stand at the start. -/
theorem eq_of_run_bytes {len : Nat} {content : Bytes}
    (h : run (bytes len) src = .ok (content, n)) :
    content = src.take n ∧ n = len ∧ content.length = n := by
  rw [(parses_bytes len).run_eq] at h
  split at h
  · cases h
  · next hle =>
      cases h
      exact ⟨rfl, rfl, by rw [List.length_take]; omega⟩

/-- A length that is neither -1 nor below it is none of the negative ones. -/
theorem nonneg_of_not_null {length : Int32} (hne : length ≠ nullLength)
    (hge : ¬ length < nullLength) : 0 ≤ length.toInt := by
  have hnull : nullLength.toInt = -1 := rfl
  have hdiff : length.toInt ≠ nullLength.toInt := fun heq => hne (Int32.toInt_inj.mp heq)
  rw [Int32.lt_iff_toInt_lt] at hge
  omega

/-- Behind a length stands just what has it: nothing for an absent string, and else as many bytes,
which spell the string. -/
theorem eq_of_run_textOfLength {length : Int32} {s : Option String}
    (h : run (textOfLength length) src = .ok (s, n)) :
    (length = nullLength ∧ s = none ∧ n = 0) ∨
      ∃ content, s = some content ∧ 0 ≤ length.toInt ∧ n = length.toInt.toNat ∧
        src.take n = Text.toBytes content ∧ (src.take n).length = n := by
  unfold textOfLength at h
  simp only [throw_bind] at h
  split at h
  · next hnull =>
      cases h
      exact .inl ⟨hnull, rfl, rfl⟩
  · next hne =>
      split at h
      · cases h
      · next hge =>
          rw [run_bind_eq_ok (parses_bytes _).local fun bytes => by
            split
            · exact (parses_pure _).local
            · exact (parses_throw _).local] at h
          obtain ⟨bytes, m, k, hbytes, htext, rfl⟩ := h
          obtain ⟨rfl, rfl, hlen⟩ := eq_of_run_bytes hbytes
          split at htext
          · -- to check and to convert the bytes consumes nothing
            next content hcontent =>
              cases htext
              have hspelt := Text.ofBytes?_eq_some_iff.mp hcontent
              exact .inr ⟨content, rfl, nonneg_of_not_null hne hge, rfl, hspelt.symm, hlen⟩
          · cases htext

theorem spells_text : Spells text Write.nullableText := by
  intro src s n h
  rw [text, run_atomic] at h
  obtain ⟨length, m, k, hprefix, htext, rfl⟩ :=
    (run_bind_eq_ok (parses_primitive .i32).local local_textOfLength).mp h
  obtain ⟨htake, -⟩ := eq_of_run_primitive hprefix
  rcases eq_of_run_textOfLength htext with
    ⟨rfl, rfl, rfl⟩ | ⟨content, rfl, hnonneg, hk, hspelt, hlen⟩
  · rw [Write.nullableText, Write.output_primitive, Nat.add_zero, htake]
    rfl
  · have hprefixed : Write.prefix32 (Text.toBytes content).length = .ok length := by
      rw [← hspelt, hlen, hk, Write.prefix32_toInt hnonneg]
    rw [Write.nullableText, Write.output_text hprefixed, List.take_add, htake, hspelt]

theorem spells_requiredText : Spells requiredText Write.text := by
  intro src s n h
  rw [requiredText, run_atomic, run_bind_eq_ok clean_text.local fun s => by
    split
    · exact (parses_pure _).local
    · exact (parses_throw _).local] at h
  obtain ⟨read, m, k, htext, hread, rfl⟩ := h
  cases read with
  | some s =>
    cases hread
    exact spells_text src (some s) m htext
  | none => cases hread

/-! ### Counted values -/

/-- A prefix that is accepted as a count is the count, and nothing behind it is consumed. -/
theorem eq_of_run_countOfPrefix {minSize number : Nat} {length : Int32}
    (h : run (countOfPrefix minSize length) src = .ok (number, n)) :
    0 ≤ length.toInt ∧ number = length.toInt.toNat ∧ n = 0 := by
  unfold countOfPrefix at h
  simp only [throw_bind] at h
  split at h
  · cases h
  · next hnonneg =>
      rw [Int32.lt_iff_toInt_lt] at hnonneg
      split at h
      · cases h
      split at h
      · cases h
      -- the last check looks at what is left
      obtain ⟨_, hensure, hnumber⟩ := run_bind_pure_eq_ok (parses_ensure _).local h
      rw [(parses_ensure _).run_eq] at hensure
      split at hensure
      · cases hensure
      · cases hensure
        exact ⟨Int.not_lt.mp hnonneg, hnumber, rfl⟩

/-- A count that is accepted is the one that was written. -/
theorem output_count_of_run {minSize number : Nat}
    (h : run (Read.count minSize) src = .ok (number, n)) :
    output (Write.count number) = .ok ((), src.take n) := by
  rw [Read.count, run_atomic] at h
  obtain ⟨length, m, k, hprefix, hcount, rfl⟩ := (run_bind_eq_ok (parses_primitive .i32).local
    (local_countOfPrefix minSize)).mp h
  obtain ⟨htake, -⟩ := eq_of_run_primitive hprefix
  obtain ⟨hnonneg, rfl, rfl⟩ := eq_of_run_countOfPrefix hcount
  rw [Write.count, Write.prefix32_toInt hnonneg]
  dsimp only
  rw [Write.output_primitive, ← htake]
  rfl

/-- As many values are read as are asked for, and each is written as it was read. -/
theorem spells_times (h : Spells read write) (hread : Local read)
    (hwrite : ∀ a, Write.Local (write a)) {number : Nat} {values : List α}
    (hrun : run (times read number) src = .ok (values, n)) :
    values.length = number ∧ output (Write.each write values) = .ok ((), src.take n) := by
  induction number generalizing src n values with
  | zero =>
    cases hrun
    exact ⟨rfl, rfl⟩
  | succ number ih =>
    obtain ⟨a, m, k, ha, hrest, rfl⟩ := (run_bind_eq_ok hread
      fun a => (hread.times number).bind_pure (a :: ·)).mp hrun
    obtain ⟨others, hothers, rfl⟩ := run_bind_pure_eq_ok (hread.times number) hrest
    obtain ⟨hcount, hwritten⟩ := ih hothers
    exact ⟨congrArg (· + 1) hcount,
      Write.output_take_add (hwrite a) (.each hwrite others) (h src a m ha) hwritten⟩

/-- A counted list is written as it was read. -/
theorem spells_list (h : Spells read write) (hread : Local read)
    (hwrite : ∀ a, Write.Local (write a)) (minSize : Nat) :
    Spells (Read.atomic do
        let n ← Read.count minSize
        Read.times read n)
      (fun values => Write.atomic do
        Write.count values.length
        Write.each write values) := by
  refine Spells.atomic fun src values n hrun => ?_
  obtain ⟨number, m, k, hcount, htimes, rfl⟩ := (run_bind_eq_ok (clean_count minSize).local
    fun n => hread.times n).mp hrun
  obtain ⟨rfl, hwritten⟩ := spells_times h hread hwrite htimes
  exact Write.output_take_add (Write.local_count _) (.each hwrite values)
    (output_count_of_run hcount) hwritten

end Read

/-! ## Layouts -/

namespace Layout

/-- There are no sets and no maps, which are read in whatever order they come. -/
def isSequential {α : Type} : Layout α → Bool
  | pair first second => first.isSequential && second.isSequential
  | record _ fields => fields.isSequential
  | list element => element.isSequential
  | set _ => false
  | map _ _ => false
  | orderedMap _ _ => false
  | _ => true

/-- Without sets and maps, a value is written as the bytes it was read from. -/
theorem spells_read (layout : Layout α) (h : layout.isSequential = true) :
    Spells layout.read layout.write := by
  induction layout with
  | primitive p => exact spells_primitive p
  | text => exact spells_requiredText
  | nullableText => exact spells_text
  | empty =>
    intro src v n hrun
    cases hrun
    rfl
  | errorCode =>
    refine (spells_primitive .i8).map (parses_primitive _).local fun value => ?_
    rw [write, ErrorCode.toInt8_ofInt8]
  | enumeration e =>
    intro src v n hrun
    rw [read, run_atomic, run_bind_eq_ok (parses_primitive .u8).local fun byte => by
      split
      · exact (parses_pure _).local
      · exact (parses_throw _).local] at hrun
    obtain ⟨byte, m, k, hbyte, hvalue, rfl⟩ := hrun
    split at hvalue
    · next v hv =>
        cases hvalue
        rw [write, e.toByte_of_ofByte? byte v hv]
        exact spells_primitive .u8 src byte m hbyte
    · cases hvalue
  | pair first second ihFirst ihSecond =>
    rw [isSequential, Bool.and_eq_true] at h
    refine Spells.atomic fun src v n hrun => ?_
    obtain ⟨a, m, k, ha, hrest, rfl⟩ := (run_bind_eq_ok first.clean_read.local
      fun a => second.clean_read.local.bind_pure (Prod.mk a)).mp hrun
    obtain ⟨b, hb, rfl⟩ := run_bind_pure_eq_ok second.clean_read.local hrest
    exact Write.output_take_add (first.local_write a) (second.local_write b)
      (ihFirst h.1 src a m ha) (ihSecond h.2 (src.drop m) b k hb)
  | record shape fields ih =>
    refine (ih h).map fields.clean_read.local fun t => ?_
    rw [write, shape.toTuple_ofTuple]
  | list element ih => exact spells_list (ih h) element.clean_read.local element.local_write _
  | set | map | orderedMap => cases h

end Layout

/-! ## Serializers -/

/-- A serializer that writes what it read as the bytes it was read from. -/
structure Serializer.Canonical (s : Serializer α) : Prop where
  writes : s.WritesLocally
  reads : Local s.deserialize
  spells : Spells s.deserialize s.serialize

namespace Serializer

/-- A message is written in the style it was read in. -/
theorem spells_message (style : ResponseStyle) :
    Spells (readMessage style) (writeMessage style) := by
  cases style with
  | codeOnly =>
    intro src message n hrun
    cases hrun
    rfl
  | detailed => exact spells_text

namespace Canonical

variable {s : Serializer α}

theorem ofLayout (layout : Layout α) (h : layout.isSequential = true) :
    (Serializer.ofLayout layout).Canonical where
  writes := layout.local_write
  reads := layout.clean_read.local
  spells := layout.spells_read h

theorem list (h : s.Canonical) : (Serializer.list s).Canonical where
  writes := writesLocally_list h.writes
  reads := (clean_list h.reads).local
  spells := spells_list h.spells h.reads h.writes s.minSize

theorem tokenRequest (h : s.Canonical) : (Serializer.tokenRequest s).Canonical where
  writes := writesLocally_tokenRequest h.writes
  reads := (clean_tokenRequest h.reads).local
  spells := by
    refine Spells.atomic fun src request n hrun => ?_
    obtain ⟨token, m, k, htoken, hrest, rfl⟩ := (run_bind_eq_ok clean_requiredText.local
      fun _ => h.reads.bind_pure _).mp hrun
    obtain ⟨payload, hpayload, rfl⟩ := run_bind_pure_eq_ok h.reads hrest
    exact Write.output_take_add (Write.local_text token) (h.writes payload)
      (spells_requiredText _ _ _ htoken) (h.spells _ _ _ hpayload)

theorem sessionRequest (h : s.Canonical) : (Serializer.sessionRequest s).Canonical where
  writes := writesLocally_sessionRequest h.writes
  reads := (clean_sessionRequest h.reads).local
  spells := by
    refine Spells.atomic fun src request n hrun => ?_
    obtain ⟨userId, m₁, k₁, huser, hmore, rfl⟩ := (run_bind_eq_ok (parses_primitive _).local
      fun _ => (parses_primitive .uuid).local.bind fun _ => h.reads.bind_pure _).mp hrun
    obtain ⟨sessionId, m₂, k₂, hsession, hrest, rfl⟩ := (run_bind_eq_ok (parses_primitive _).local
      fun _ => h.reads.bind_pure _).mp hmore
    obtain ⟨payload, hpayload, rfl⟩ := run_bind_pure_eq_ok h.reads hrest
    have hbehind := Write.output_take_add (Write.local_primitive .uuid sessionId) (h.writes payload)
      (spells_primitive .uuid _ _ _ hsession) (h.spells _ _ _ hpayload)
    exact Write.output_take_add (Write.local_primitive .snowflake userId)
      ((Write.local_primitive _ _).bind fun _ => h.writes payload)
      (spells_primitive .snowflake _ _ _ huser) hbehind

/-- Behind a code that was read, the payload is written as it was read. -/
theorem output_writePayload (h : s.Canonical) {response : Response α} {src : Bytes} {n : Nat}
    (hrun : run (readPayload s response.error) src = .ok (response.payload, n)) :
    output (writePayload s response) = .ok ((), src.take n) := by
  unfold readPayload at hrun
  rw [writePayload, Response.isSuccess]
  split at hrun
  · next hsuccess =>
    obtain ⟨content, hcontent, hpayload⟩ := run_bind_pure_eq_ok h.reads hrun
    rw [if_pos hsuccess, hpayload]
    exact h.spells _ _ _ hcontent
  · next hfailure =>
    have hn : n = 0 := (Prod.mk.inj (Except.ok.inj hrun)).2.symm
    rw [if_neg hfailure, hn]
    rfl

theorem response (h : s.Canonical) (style : ResponseStyle) :
    (Serializer.response style s).Canonical where
  writes := writesLocally_response h.writes style
  reads := (clean_response style h.reads).local
  spells := by
    intro src response n hrun
    obtain ⟨m, k, j, herror, hmessage, hpayload, rfl⟩ := ok_of_run_response h.reads hrun
    have hbehind := Write.output_take_add (local_writeMessage style response.message)
      (local_writePayload h.writes response) (spells_message style _ _ _ hmessage)
      (h.output_writePayload hpayload)
    have hwhole := Write.output_take_add (Layout.errorCode.local_write response.error)
      ((local_writeMessage style response.message).bind fun _ => local_writePayload h.writes _)
      (Layout.errorCode.spells_read rfl _ _ _ herror) hbehind
    exact (Write.output_atomic _).trans hwhole

/-! ### Rooms to create -/

theorem groupRoom : Serializer.groupRoom.Canonical where
  writes := Restores.groupRoom.writes
  reads := Restores.groupRoom.reads
  spells := (CreateGroupRoom.layout.spells_read rfl).map CreateGroupRoom.layout.clean_read.local
    fun _ => rfl

theorem directRoom : Serializer.directRoom.Canonical where
  writes := Restores.directRoom.writes
  reads := Restores.directRoom.reads
  spells := (CreateDirectRoom.layout.spells_read rfl).map CreateDirectRoom.layout.clean_read.local
    fun _ => rfl

/-- A room to create is written in the form it was read in, if each form reads only rooms of its
kind. -/
theorem createRoom {forms : RoomForms}
    (h : ∀ kind form, forms.get? kind = some form → form.Canonical)
    (hkind : ∀ kind form src room n, forms.get? kind = some form →
      run form.deserialize src = .ok (room, n) → room.kind = kind) :
    (Serializer.createRoom forms).Canonical where
  writes := writesLocally_createRoom fun kind form hform => (h kind form hform).writes
  reads := (clean_createRoom fun kind form hform => (h kind form hform).reads).local
  spells := by
    have hfields := local_readFields fun kind form hform => (h kind form hform).reads
    intro src room n hrun
    rw [Serializer.createRoom, run_atomic] at hrun
    obtain ⟨kind, m, k, hbyte, hroom, rfl⟩ := (run_bind_eq_ok Layout.roomKind.clean_read.local
      hfields).mp hrun
    rw [RoomForms.form] at hroom
    cases hform : forms.get? kind with
    | some form =>
      rw [hform] at hroom
      obtain rfl := hkind kind form _ room k hform hroom
      rw [serialize_createRoom hform, Write.output_atomic]
      exact Write.output_take_add (Layout.roomKind.local_write room.kind)
        ((h _ form hform).writes room) (Layout.roomKind.spells_read rfl _ _ _ hbyte)
        ((h _ form hform).spells _ _ _ hroom)
    | none =>
      rw [hform] at hroom
      cases hroom

theorem createRoom_all : (Serializer.createRoom .all).Canonical := by
  refine createRoom (fun kind form hform => ?_) fun kind form src room n hform hrun => ?_
  · cases kind <;> cases hform
    · exact groupRoom
    · exact directRoom
  · -- each form puts what it reads under its own kind
    cases kind <;> cases hform
    · obtain ⟨_, -, rfl⟩ := run_bind_pure_eq_ok CreateGroupRoom.layout.clean_read.local hrun
      rfl
    · obtain ⟨_, -, rfl⟩ := run_bind_pure_eq_ok CreateDirectRoom.layout.clean_read.local hrun
      rfl

end Canonical

end Serializer

open Serializer in
/-- No packet has a set or a map in it, so every body has one spelling. -/
theorem Packet.canonical (p : Packet) : p.serializer.Canonical := by
  cases p with
  | loginRequest | registerRequest | messagePostedBroadcast | userJoinedBroadcast
  | userLeftBroadcast | roomDeletedBroadcast =>
    exact Canonical.ofLayout _ rfl
  | logoutRequest | refreshSessionRequest => exact (Canonical.ofLayout _ rfl).tokenRequest
  | createRoomRequest => exact Canonical.createRoom_all.sessionRequest
  | joinRoomRequest | leaveRoomRequest | deleteRoomRequest | kickMemberRequest
  | fetchRoomsRequest | postMessageRequest | fetchMessagesRequest =>
    exact (Canonical.ofLayout _ rfl).sessionRequest
  | loginResponse | registerResponse => exact (Canonical.ofLayout _ rfl).response .detailed
  | ackResponse | createRoomResponse | joinRoomResponse | postMessageResponse =>
    exact (Canonical.ofLayout _ rfl).response .codeOnly
  | fetchRoomsResponse | fetchMessagesResponse =>
    exact (Canonical.ofLayout _ rfl).list.response .codeOnly

end ChatCodec
