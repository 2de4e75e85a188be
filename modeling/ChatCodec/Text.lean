import ChatCodec.Bytes

/-!
# Text as bytes

Strings travel as UTF-8. `Text.toBytes` writes a string and `Text.ofBytes?` reads one, refusing
bytes that are not UTF-8.

Main results: `Text.ofBytes?_eq_some_iff` — a byte string is read as exactly the text that is
written as it.
-/

namespace ChatCodec.Text

/-- The UTF-8 bytes of a string. -/
def toBytes (s : String) : Bytes :=
  s.toByteArray.data.toList

/-- The string whose UTF-8 bytes are given, if they are UTF-8. -/
def ofBytes? (bytes : Bytes) : Option String :=
  String.fromUTF8? ⟨bytes.toArray⟩

theorem length_toBytes (s : String) : (toBytes s).length = s.utf8ByteSize := by
  rfl

theorem ofBytes?_eq_some_iff {bytes : Bytes} {s : String} :
    ofBytes? bytes = some s ↔ toBytes s = bytes := by
  unfold ofBytes? String.fromUTF8? toBytes
  constructor
  · intro h
    split at h
    · cases h
      rfl
    · cases h
  · rintro rfl
    rw [dif_pos s.isValidUTF8]
    rfl

end ChatCodec.Text
