/-!
# JSON tokens

`Json.tokens?` cuts JSON text into tokens, or refuses text no JSON document contains. The text is
read character by character by an automaton (`Lexer.step`), whose states are: between tokens,
inside a string, and inside a number or a word.

A string may hold `\u` escapes that spell no text, half a surrogate pair. Such a string is a token
without text (`Token.string none`), since it matters only where its text is asked for.
-/

namespace ChatCodec.Json

/-- The pieces JSON text is made of. -/
inductive Token where
  | arrayOpen
  | arrayClose
  | objectOpen
  | objectClose
  | comma
  | colon
  | null
  | bool (value : Bool)
  /-- A number as it is spelled. -/
  | number (literal : String)
  | string (text : Option String)
  deriving DecidableEq, Repr

/-- A piece of a string: a character, or a 16-bit unit given by a `\u` escape. -/
inductive Piece where
  | char (c : Char)
  | unit (n : Nat)
  deriving DecidableEq, Repr

/-- The text of the pieces of a string. Escaped units above U+FFFF come in pairs, a high and a low
surrogate; a surrogate alone has no text. -/
def textOfPieces : List Piece → Option (List Char)
  | [] => some []
  | .char c :: rest => (c :: ·) <$> textOfPieces rest
  | .unit high :: rest =>
    -- the first half of a pair needs the second right behind it, and the second needs the first
    if 0xd800 ≤ high ∧ high ≤ 0xdbff then
      match rest with
      | .unit low :: rest =>
        if 0xdc00 ≤ low ∧ low ≤ 0xdfff then
          (.ofNat (0x10000 + (high - 0xd800) * 0x400 + (low - 0xdc00)) :: ·) <$> textOfPieces rest
        else
          none
      | _ => none
    else if 0xdc00 ≤ high ∧ high ≤ 0xdfff then
      none
    else
      (.ofNat high :: ·) <$> textOfPieces rest

/-- How far a number is spelled. -/
inductive NumberPhase where
  | sign
  | zero
  | whole
  | point
  | fraction
  | exponent
  | exponentSign
  | exponentDigits
  deriving DecidableEq, Repr

namespace NumberPhase

/-- A number may end here. -/
def isComplete : NumberPhase → Bool
  | zero | whole | fraction | exponentDigits => true
  | sign | point | exponent | exponentSign => false

/-- The phase after one more character, if it continues the number. -/
def next? (phase : NumberPhase) (c : Char) : Option NumberPhase :=
  if c.isDigit then
    match phase with
    | sign => some (if c == '0' then zero else whole)
    | zero => none
    | whole => some whole
    | point | fraction => some fraction
    | exponent | exponentSign | exponentDigits => some exponentDigits
  else if c == '.' then
    match phase with
    | zero | whole => some point
    | _ => none
  else if c == 'e' || c == 'E' then
    match phase with
    | zero | whole | fraction => some exponent
    | _ => none
  else if c == '+' || c == '-' then
    match phase with
    | exponent => some exponentSign
    | _ => none
  else
    none

end NumberPhase

namespace Lexer

/-- Where the automaton stands; what is read of a token is kept in reverse. -/
inductive State where
  | between
  | string (pieces : List Piece)
  | escape (pieces : List Piece)
  /-- Inside a `\u` escape, of which `left` digits are missing. -/
  | unit (pieces : List Piece) (left value : Nat)
  | number (phase : NumberPhase) (digits : List Char)
  /-- Inside a word, of which some characters are missing. -/
  | word (token : Token) (left : List Char)
  deriving DecidableEq, Repr

/-- The tokens read so far, in reverse, and where the automaton stands. -/
abbrev Run := List Token × State

/-- The value of a hexadecimal digit. -/
def hexDigit? (c : Char) : Option Nat :=
  if c.isDigit then some (c.toNat - '0'.toNat)
  else if 'a' ≤ c ∧ c ≤ 'f' then some (c.toNat - 'a'.toNat + 10)
  else if 'A' ≤ c ∧ c ≤ 'F' then some (c.toNat - 'A'.toNat + 10)
  else none

/-- The character of a one-letter escape. -/
def escaped? : Char → Option Char
  | '\x22' => some '\x22'
  | '\x5c' => some '\x5c'
  | '/' => some '/'
  | 'b' => some '\x08'
  | 'f' => some '\x0c'
  | 'n' => some '\n'
  | 'r' => some '\r'
  | 't' => some '\t'
  | _ => none

/-- Reads a character between tokens. -/
def start (tokens : List Token) (c : Char) : Option Run :=
  match c with
  | ' ' | '\n' | '\t' | '\r' => some (tokens, .between)
  | '[' => some (.arrayOpen :: tokens, .between)
  | ']' => some (.arrayClose :: tokens, .between)
  | '\x7b' => some (.objectOpen :: tokens, .between)
  | '\x7d' => some (.objectClose :: tokens, .between)
  | ',' => some (.comma :: tokens, .between)
  | ':' => some (.colon :: tokens, .between)
  | '\x22' => some (tokens, .string [])
  | '-' => some (tokens, .number .sign ['-'])
  | 'n' => some (tokens, .word .null ['u', 'l', 'l'])
  | 't' => some (tokens, .word (.bool true) ['r', 'u', 'e'])
  | 'f' => some (tokens, .word (.bool false) ['a', 'l', 's', 'e'])
  | c =>
    match NumberPhase.sign.next? c with
    | some phase => some (tokens, .number phase [c])
    | none => none

/-- Reads one character. -/
def step : Run → Char → Option Run
  | (tokens, .between), c => start tokens c
  | (tokens, .string pieces), c =>
    if c == '\x22' then
      some (.string ((textOfPieces pieces.reverse).map String.ofList) :: tokens, .between)
    else if c == '\x5c' then some (tokens, .escape pieces)
    else if c < ' ' then none
    else some (tokens, .string (.char c :: pieces))
  | (tokens, .escape pieces), c =>
    if c == 'u' then some (tokens, .unit pieces 4 0)
    else (escaped? c).map fun e => (tokens, .string (.char e :: pieces))
  | (tokens, .unit pieces left value), c =>
    (hexDigit? c).map fun digit =>
      let value := value * 16 + digit
      if left ≤ 1 then (tokens, .string (.unit value :: pieces))
      else (tokens, .unit pieces (left - 1) value)
  | (tokens, .number phase digits), c =>
    match phase.next? c with
    | some next => some (tokens, .number next (c :: digits))
    | none =>
      -- a digit that does not continue the number follows a leading zero
      if phase.isComplete && !c.isDigit then
        start (.number (.ofList digits.reverse) :: tokens) c
      else
        none
  | (tokens, .word token left), c =>
    match left with
    | [] => none
    | [last] => if c == last then some (token :: tokens, .between) else none
    | letter :: left => if c == letter then some (tokens, .word token left) else none

/-- Ends the text: only a number may still be open. -/
def finish : Run → Option (List Token)
  | (tokens, .between) => some tokens.reverse
  | (tokens, .number phase digits) =>
    if phase.isComplete then some (.number (.ofList digits.reverse) :: tokens).reverse else none
  | _ => none

end Lexer

/-- The tokens of a text, if JSON has such tokens. -/
def tokens? (text : String) : Option (List Token) := do
  Lexer.finish (← text.toList.foldlM Lexer.step ([], .between))

end ChatCodec.Json
