import RecordFormat.Schema.Basic
import RecordFormat.Wire.Error
import RecordFormat.Wire.Limits

/-!
# Operators and table codecs

An operator knows how one field type is written; a table codec holds the operators of a
table's stored fields in the order of their numbers. Groups nest the codec of their table.
-/

namespace RecordFormat

/-- The kinds whose payloads all have the same width. -/
inductive FixedKind where
  | bool
  | byte
  | int16
  | int32
  | int64
  | float
  | double
  deriving DecidableEq, Repr

namespace FixedKind

def primitive : FixedKind → Primitive
  | .bool => .bool
  | .byte => .byte
  | .int16 => .int16
  | .int32 => .int32
  | .int64 => .int64
  | .float => .float
  | .double => .double

/-- The octets of a payload. -/
def width : FixedKind → Nat
  | .bool | .byte => 1
  | .int16 => 2
  | .int32 | .float => 4
  | .int64 | .double => 8

end FixedKind

mutual

/-- How the values of a type are written. -/
inductive Operator where
  | fixed (kind : FixedKind) (limit : Binary64)
  | string
  | binary
  | group (codec : TableCodec)
  | list (element : Operator) (maxElements : Nat)

/-- How the records of a table version are written. -/
structure TableCodec where
  table : Table
  limits : Limits
  slots : List Slot

/-- A stored field and its operator. -/
structure Slot where
  field : Field
  operator : Operator

end

namespace Operator

/-- The operator of a primitive kind that has values. -/
def ofPrimitive (limit : Binary64) : Primitive → Except CodecError Operator
  | .bool => .ok (.fixed .bool limit)
  | .byte => .ok (.fixed .byte limit)
  | .int16 => .ok (.fixed .int16 limit)
  | .int32 => .ok (.fixed .int32 limit)
  | .int64 => .ok (.fixed .int64 limit)
  | .float => .ok (.fixed .float limit)
  | .double => .ok (.fixed .double limit)
  | .string => .ok .string
  | .binary => .ok .binary
  | p => .error (.unsupportedType p.name)

/-- The operator of a kind of fixed width; others are refused. -/
def ofFixedPrimitive (limit : Binary64) (p : Primitive) : Except CodecError Operator :=
  if p.width?.isSome then ofPrimitive limit p else .error (.unsupportedType p.name)

/-- The type that the operator writes. -/
def type : Operator → FieldType
  | .fixed kind _ => .primitive kind.primitive
  | .string => .primitive .string
  | .binary => .primitive .binary
  | .group codec => .bound codec.table
  | .list element _ => .list element.type

/-- The text of the type. -/
def typeText (op : Operator) : String := op.type.text

/-- The payload width, where it is the same for all values. -/
def width? : Operator → Option Nat
  | .fixed kind _ => some kind.width
  | _ => none

def isFixed (op : Operator) : Bool := op.width?.isSome

/-- The octets of the length slot in front of a payload. -/
def lengthWidth : Operator → Nat
  | .fixed .. => 0
  | .string => 2
  | _ => 4

end Operator

mutual

/-- How deep codecs nest inside an operator. -/
def Operator.depth : Operator → Nat
  | .group codec => codec.depth
  | .list element _ => element.depth + 1
  | _ => 0

/-- How deep codecs nest, this one counted. -/
def TableCodec.depth : TableCodec → Nat
  | ⟨_, _, slots⟩ => depthOfSlots slots + 1

def depthOfSlots : List Slot → Nat
  | [] => 0
  | ⟨_, operator⟩ :: rest => max operator.depth (depthOfSlots rest)

end

theorem Operator.depth_le_depthOfSlots {slots : List Slot} {s : Slot} (h : s ∈ slots) :
    s.operator.depth ≤ depthOfSlots slots := by
  induction slots with
  | nil => cases h
  | cons t rest ih =>
    obtain ⟨field, operator⟩ := t
    rw [depthOfSlots]
    rcases List.mem_cons.1 h with rfl | h
    · exact Nat.le_max_left ..
    · exact Nat.le_trans (ih h) (Nat.le_max_right ..)

namespace TableCodec

variable (c : TableCodec)

/-- The slot of a field number. Where several fields share a number the last one has it. -/
def slot? (id : Int16) : Option Slot := c.slots.findRev? fun s => s.field.id = id

def operator? (id : Int16) : Option Operator := (c.slot? id).map Slot.operator

theorem mem_of_slot? {c : TableCodec} {id : Int16} {s : Slot} (h : c.slot? id = some s) :
    s ∈ c.slots := by
  rw [slot?, List.findRev?_eq_find?_reverse] at h
  exact List.mem_reverse.1 (List.mem_of_find?_eq_some h)

end TableCodec

end RecordFormat
