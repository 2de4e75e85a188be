/-!
# Hexadecimal text

`hexText width n` writes a number in lower-case hexadecimal digits, padded with zeros on the left
to a width. Codes and signatures are shown to people this way.
-/

namespace ChatCodec

/-- The number in lower-case hexadecimal, at least `width` digits wide. -/
def hexText (width n : Nat) : String :=
  let digits := Nat.toDigits 16 n
  String.ofList (List.replicate (width - digits.length) '0' ++ digits)

end ChatCodec
