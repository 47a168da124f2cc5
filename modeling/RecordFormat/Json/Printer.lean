import RecordFormat.Floating.Decimal
import RecordFormat.Json.Value

/-!
# Writing JSON

The compact form has no spaces; the indented form puts every item and member on its own
line, two spaces deeper than what it is in.
-/

namespace RecordFormat.Json

/-- Decimals are positional from `0.00001` up to sixteen digits before the point; a positive
exponent has a sign. -/
def decimalStyle : Decimal.Style := ⟨-5, 15, true, .toEven⟩

private def hexDigit (n : Nat) : Char := (Nat.toDigits 16 n).headD '0'

/-- A character inside quotes. Quotes, backslashes and control characters are escaped. -/
def escape (c : Char) : String :=
  if c = '"' then "\\\""
  else if c = '\\' then "\\\\"
  else if c = '\x08' then "\\b"
  else if c = '\x0c' then "\\f"
  else if c = '\n' then "\\n"
  else if c = '\r' then "\\r"
  else if c = '\t' then "\\t"
  else if c.toNat < 0x20 then
    "\\u00" ++ String.ofList [hexDigit (c.toNat / 16), hexDigit (c.toNat % 16)]
  else c.toString

/-- A string in quotes. -/
def quote (s : String) : String :=
  s.toList.foldl (fun out c => out ++ escape c) "\"" ++ "\""

mutual

/-- The compact form, appended to `out`. -/
def compactOnto (out : String) : Json → String
  | .null => out ++ "null"
  | .bool b => out ++ if b then "true" else "false"
  | .integer n => out ++ toString n
  | .number x => out ++ x.text decimalStyle
  | .string s => out ++ quote s
  | .array [] => out ++ "[]"
  | .array (v :: rest) => compactItems (compactOnto (out ++ "[") v) rest ++ "]"
  | .object [] => out ++ "\x7b\x7d"
  | .object ((k, v) :: rest) =>
    compactMembers (compactOnto (out ++ "\x7b" ++ quote k ++ ":") v) rest ++ "\x7d"

def compactItems (out : String) : List Json → String
  | [] => out
  | v :: rest => compactItems (compactOnto (out ++ ",") v) rest

def compactMembers (out : String) : List (String × Json) → String
  | [] => out
  | (k, v) :: rest => compactMembers (compactOnto (out ++ "," ++ quote k ++ ":") v) rest

end

/-- The compact form. -/
def compact (v : Json) : String := compactOnto "" v

/-- A new line at the given depth. -/
def newLine (depth : Nat) : String := "\n" ++ String.ofList (List.replicate (2 * depth) ' ')

mutual

/-- The indented form, appended to `out`. -/
def indentedOnto (depth : Nat) (out : String) : Json → String
  | .array [] => out ++ "[]"
  | .array (v :: rest) =>
    let first := indentedOnto (depth + 1) (out ++ "[" ++ newLine (depth + 1)) v
    indentedItems (depth + 1) first rest ++ newLine depth ++ "]"
  | .object [] => out ++ "\x7b\x7d"
  | .object ((k, v) :: rest) =>
    let first := out ++ "\x7b" ++ newLine (depth + 1) ++ quote k ++ ": "
    indentedMembers (depth + 1) (indentedOnto (depth + 1) first v) rest ++ newLine depth ++ "\x7d"
  | .null => out ++ "null"
  | .bool b => out ++ if b then "true" else "false"
  | .integer n => out ++ toString n
  | .number x => out ++ x.text decimalStyle
  | .string s => out ++ quote s

def indentedItems (depth : Nat) (out : String) : List Json → String
  | [] => out
  | v :: rest => indentedItems depth (indentedOnto depth (out ++ "," ++ newLine depth) v) rest

def indentedMembers (depth : Nat) (out : String) : List (String × Json) → String
  | [] => out
  | (k, v) :: rest =>
    let next := out ++ "," ++ newLine depth ++ quote k ++ ": "
    indentedMembers depth (indentedOnto depth next v) rest

end

/-- The indented form. -/
def indented (v : Json) : String := indentedOnto 0 "" v

end RecordFormat.Json
