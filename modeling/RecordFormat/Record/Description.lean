import RecordFormat.Record.Basic
import RecordFormat.Text.Hidden

/-!
# Descriptions of records

One-line texts that show what a record is made of: its buffer, staged values, cleared numbers
and bound computations.
-/

namespace RecordFormat

namespace Text

/-- A character inside the quotes of a description. A hidden one shows as its code point. -/
def describeChar (c : Char) : String :=
  if c = '"' then "\\\""
  else if c = '\\' then "\\\\"
  else if c = '\n' then "\\n"
  else if c = '\r' then "\\r"
  else if c = '\t' then "\\t"
  else if c.toNat = 0 then "\\0"
  else if isHidden c then
    "\\u\x7b" ++ String.ofList (Nat.toDigits 16 c.toNat) ++ "\x7d"
  else c.toString

/-- A string in quotes. -/
def describeString (s : String) : String :=
  "\"" ++ String.join (s.toList.map describeChar) ++ "\""

/-- Parts separated by commas, between an opening and a closing bracket. -/
def enclose (opening closing : String) (parts : List String) : String :=
  opening ++ String.intercalate ", " parts ++ closing

end Text

/-- How floating point numbers look in descriptions. -/
private def describedStyle : Decimal.Style := ⟨-4, 15, false, .upwards⟩

/-- A constructor with one argument. -/
def Text.applied (constructor argument : String) : String :=
  constructor ++ "(" ++ argument ++ ")"

def Scalar.description : Scalar → String
  | .bool v => Text.applied "Bool" (toString v)
  | .byte v => Text.applied "Byte" (toString v)
  | .int16 v => Text.applied "Int16" (toString v)
  | .int32 v => Text.applied "Int32" (toString v)
  | .int64 v => Text.applied "Int64" (toString v)
  | .float v => Text.applied "Float" (v.text describedStyle)
  | .double v => Text.applied "Double" (v.text describedStyle)
  | .string v => Text.applied "String" (Text.describeString v)
  | .binary v => Text.applied "Binary" (Text.enclose "[" "]" ((octets v).map toString))

mutual

def Value.description : Value → String
  | .scalar s => s.description
  | .list items => Text.applied "List" (Text.enclose "[" "]" (describeItems items))
  | .group r => Text.applied "Group" r.description

def describeItems : List Value → List String
  | [] => []
  | v :: rest => v.description :: describeItems rest

def describePending : List (Int16 × Value) → List String
  | [] => []
  | (id, v) :: rest => (toString id ++ ": " ++ v.description) :: describePending rest

def Record.description : Record → String
  | ⟨codec, buffer, pending, cleared, derived⟩ =>
    let buffer := match buffer with
      | some b => Text.applied "Some" b.description
      | none => "None"
    let pending := Text.enclose "\x7b" "\x7d" (describePending pending)
    let cleared := Text.enclose "\x7b" "\x7d" (cleared.map toString)
    let derived := Text.enclose "[" "]" (derived.map fun e => Text.describeString e.1)
    "Record \x7b table: " ++ Text.describeString codec.table.name ++ ", buffer: " ++ buffer ++
      ", pending: " ++ pending ++ ", cleared: " ++ cleared ++ ", derived: " ++ derived ++ " \x7d"

end

end RecordFormat
