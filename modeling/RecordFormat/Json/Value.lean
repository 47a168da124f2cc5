import RecordFormat.Floating.Format

/-!
# JSON values

Integers of 64 bits, signed or unsigned, are kept apart from other numbers. The members of
an object read from text are sorted by key.
-/

namespace RecordFormat

/-- A JSON value. -/
inductive Json where
  | null
  | bool (value : Bool)
  | integer (value : Int)
  | number (value : Binary64)
  | string (value : String)
  | array (items : List Json)
  | object (members : List (String × Json))
  deriving Inhabited

namespace Json

/-- Puts a member at its place among sorted members; a member of the same key is replaced. -/
def insertMember (key : String) (value : Json) :
    List (String × Json) → List (String × Json)
  | [] => [(key, value)]
  | (k, v) :: rest =>
    if key < k then (key, value) :: (k, v) :: rest
    else if key = k then (key, value) :: rest
    else (k, v) :: insertMember key value rest

/-- The object of the given members in key order, the last one winning. -/
def ofMembers (members : List (String × Json)) : Json :=
  .object (members.foldl (fun sorted (k, v) => insertMember k v sorted) [])

/-- The integers that keep their exact value: signed or unsigned of 64 bits. -/
def isIntegerRange (n : Int) : Bool := -0x8000000000000000 ≤ n && n < 0x10000000000000000

/-- A signed 64-bit integer. -/
def asInt? : Json → Option Int
  | .integer n => if n < 0x8000000000000000 then some n else none
  | _ => none

/-- Any number, integers rounded to the nearest double. -/
def asBinary64? : Json → Option Binary64
  | .integer n => some (.ofInt n)
  | .number x => some x
  | _ => none

def isNull : Json → Bool
  | .null => true
  | _ => false

def asBool? : Json → Option Bool
  | .bool b => some b
  | _ => none

def asString? : Json → Option String
  | .string s => some s
  | _ => none

def asArray? : Json → Option (List Json)
  | .array items => some items
  | _ => none

def asObject? : Json → Option (List (String × Json))
  | .object members => some members
  | _ => none

end Json

end RecordFormat
