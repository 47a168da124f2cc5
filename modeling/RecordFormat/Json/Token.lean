/-!
# JSON tokens

The first pass over a JSON text. Words (`null`, `true`, `false` and numbers) and strings are
only delimited here; whether a word means anything, and whether the escapes of a string
denote characters, is decided where the value is used.
-/

namespace RecordFormat.Json

/-- A part of a string: a character, or a `\u` escape of a 16-bit unit. -/
inductive Piece where
  | char (c : Char)
  | unit (n : Nat)
  deriving DecidableEq, Repr

inductive Token where
  | openArray
  | closeArray
  | openObject
  | closeObject
  | comma
  | colon
  | word (cs : List Char)
  | text (pieces : List Piece)
  deriving DecidableEq, Repr

def isSpace (c : Char) : Bool := c == ' ' || c == '\n' || c == '\r' || c == '\t'

def isWordChar (c : Char) : Bool := c.isAlphanum || c == '+' || c == '-' || c == '.'

/-- The token that a punctuation character is. -/
def punctuation? : Char → Option Token
  | '[' => some .openArray
  | ']' => some .closeArray
  | '\x7b' => some .openObject
  | '\x7d' => some .closeObject
  | ',' => some .comma
  | ':' => some .colon
  | _ => none

/-- The character of a short escape. -/
def shortEscape? : Char → Option Char
  | '"' => some '"'
  | '\\' => some '\\'
  | '/' => some '/'
  | 'b' => some '\x08'
  | 'f' => some '\x0c'
  | 'n' => some '\n'
  | 'r' => some '\r'
  | 't' => some '\t'
  | _ => none

/-- The value of a hexadecimal digit. -/
def hexDigit? (c : Char) : Option Nat :=
  if c.isDigit then some (c.toNat - '0'.toNat)
  else if 'a' ≤ c ∧ c ≤ 'f' then some (c.toNat - 'a'.toNat + 10)
  else if 'A' ≤ c ∧ c ≤ 'F' then some (c.toNat - 'A'.toNat + 10)
  else none

/-- The unit written by four hexadecimal digits. -/
def hexUnit? (a b c d : Char) : Option Nat := do
  let a ← hexDigit? a
  let b ← hexDigit? b
  let c ← hexDigit? c
  let d ← hexDigit? d
  return ((a * 16 + b) * 16 + c) * 16 + d

/-- What the lexer is inside of. Parts already read are kept in reverse. -/
inductive Mode where
  | between
  | word (cs : List Char)
  | text (pieces : List Piece)

/-- The tokens of a text after those in `done`, which are in reverse. -/
def tokensFrom (done : List Token) : Mode → List Char → Option (List Token)
  | .between, [] => some done.reverse
  | .between, c :: rest =>
    if isSpace c then tokensFrom done .between rest
    else if c = '"' then tokensFrom done (.text []) rest
    else if isWordChar c then tokensFrom done (.word [c]) rest
    else match punctuation? c with
      | some token => tokensFrom (token :: done) .between rest
      | none => none
  | .word cs, [] => some (Token.word cs.reverse :: done).reverse
  | .word cs, c :: rest =>
    let ended := Token.word cs.reverse :: done
    if isWordChar c then tokensFrom done (.word (c :: cs)) rest
    else if isSpace c then tokensFrom ended .between rest
    else if c = '"' then tokensFrom ended (.text []) rest
    else match punctuation? c with
      | some token => tokensFrom (token :: ended) .between rest
      | none => none
  | .text _, [] => none
  | .text pieces, '"' :: rest => tokensFrom (.text pieces.reverse :: done) .between rest
  | .text pieces, '\\' :: 'u' :: a :: b :: c :: d :: rest =>
    match hexUnit? a b c d with
    | some n => tokensFrom done (.text (.unit n :: pieces)) rest
    | none => none
  | .text pieces, '\\' :: c :: rest =>
    match shortEscape? c with
    | some c => tokensFrom done (.text (.char c :: pieces)) rest
    | none => none
  | .text pieces, c :: rest =>
    if c = '\\' ∨ c.toNat < 0x20 then none
    else tokensFrom done (.text (.char c :: pieces)) rest

/-- The tokens of a text. -/
def tokens? (text : String) : Option (List Token) := tokensFrom [] .between text.toList

private def isHighUnit (n : Nat) : Bool := 0xD800 ≤ n && n < 0xDC00

private def isLowUnit (n : Nat) : Bool := 0xDC00 ≤ n && n < 0xE000

/-- The characters of a string: a high and a low unit side by side are one character, and
neither may stand alone. -/
def characters? (done : List Char) : List Piece → Option (List Char)
  | [] => some done.reverse
  | .char c :: rest => characters? (c :: done) rest
  | .unit high :: .unit low :: rest =>
    if isHighUnit high then
      if isLowUnit low then
        let c := Char.ofNat (0x10000 + (high - 0xD800) * 0x400 + (low - 0xDC00))
        characters? (c :: done) rest
      else none
    else if isLowUnit high then none
    else characters? (Char.ofNat high :: done) (.unit low :: rest)
  | .unit n :: rest =>
    if isHighUnit n || isLowUnit n then none
    else characters? (Char.ofNat n :: done) rest

/-- The string that pieces denote. -/
def string? (pieces : List Piece) : Option String :=
  (characters? [] pieces).map String.ofList

end RecordFormat.Json
