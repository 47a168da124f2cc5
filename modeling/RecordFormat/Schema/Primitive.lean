/-!
# Primitive kinds

The scalar kinds a field can have, with their numbers and names. `null` and `unknown` are
sentinels: they have a number and a name, but no values.
-/

namespace RecordFormat

/-- The kinds of scalar data, and two sentinels. -/
inductive Primitive where
  | null
  | bool
  | byte
  | int16
  | int32
  | int64
  | float
  | double
  | string
  | binary
  | unknown
  deriving DecidableEq, Repr, Inhabited

namespace Primitive

/-- Every kind that has values, by number. -/
def all : List Primitive :=
  [.bool, .byte, .int16, .int32, .int64, .float, .double, .string, .binary]

/-- The permanent number of a kind. -/
def id : Primitive → Int
  | .null => 0
  | .bool => 1
  | .byte => 2
  | .int16 => 3
  | .int32 => 4
  | .int64 => 5
  | .float => 6
  | .double => 7
  | .string => 8
  | .binary => 9
  | .unknown => -1

/-- The kind with a number, sentinels included. -/
def ofId? (id : Int) : Option Primitive :=
  (.null :: .unknown :: all).find? fun p => p.id = id

def name : Primitive → String
  | .null => "null"
  | .bool => "bool"
  | .byte => "byte"
  | .int16 => "int16"
  | .int32 => "int32"
  | .int64 => "int64"
  | .float => "float"
  | .double => "double"
  | .string => "string"
  | .binary => "binary"
  | .unknown => "unknown"

/-- The kind with a name. Sentinels are not found by name. -/
def ofName? (name : String) : Option Primitive := all.find? fun p => p.name = name

/-- The payload width of the kinds whose values all have the same width. -/
def width? : Primitive → Option Nat
  | .bool | .byte => some 1
  | .int16 => some 2
  | .int32 | .float => some 4
  | .int64 | .double => some 8
  | .string | .binary | .null | .unknown => none

def isSentinel (p : Primitive) : Bool := p = .null || p = .unknown

def isFloating (p : Primitive) : Bool := p = .float || p = .double

theorem ofId?_id (p : Primitive) : ofId? p.id = some p := by cases p <;> decide

theorem ofName?_name {p : Primitive} (h : p ∈ all) : ofName? p.name = some p := by
  revert p
  decide

end Primitive

end RecordFormat
