import RecordFormat.Octets

/-!
# Causes of failure in reading and writing

What can be wrong with the octets of a payload or of a record buffer, why a value cannot be
written, and the wording of each cause.
-/

namespace RecordFormat

/-- A structural inconsistency of octets. -/
inductive Defect where
  | shortHeader (length : Nat)
  | lengthMismatch (declared length : Nat)
  | indexOverrun (entries length : Nat)
  | unorderedIndex (entry : Nat)
  | offsetOutside (id : Int16) (offset first length : Nat)
  | payloadWidth (type : String) (width length : Nat)
  | noElementCount (length : Nat)
  | tooManyElements (count limit : Nat)
  | elementsOverrun (count length : Nat)
  | elementsMismatch (count width length : Nat)
  | elementOutside (index offset length : Nat)
  | elementOverrun (index size : Nat)
  | fieldOverrun (field : String) (size length : Nat)
  deriving DecidableEq, Repr

def Defect.message : Defect → String
  | .shortHeader length => s!"buffer of {length} bytes is shorter than the header"
  | .lengthMismatch declared length =>
    s!"length prefix {declared} does not match buffer length {length}"
  | .indexOverrun entries length => s!"{entries} index entries do not fit buffer of {length} bytes"
  | .unorderedIndex entry => s!"field ids not strictly ascending at entry {entry}"
  | .offsetOutside id offset first length =>
    s!"field {id} offset {offset} outside data region {first}..{length}"
  | .payloadWidth type width length => s!"{type} expects {width} bytes, got {length}"
  | .noElementCount length => s!"list payload of {length} bytes has no element count"
  | .tooManyElements count limit => s!"list element count {count} exceeds limit {limit}"
  | .elementsOverrun count length => s!"list of {count} elements does not fit {length} bytes"
  | .elementsMismatch count width length =>
    s!"list of {count} x {width} bytes has payload of {length} bytes"
  | .elementOutside index offset length =>
    s!"list element {index} offset {offset} outside payload of {length} bytes"
  | .elementOverrun index size => s!"list element {index} of {size} bytes overruns payload"
  | .fieldOverrun field size length =>
    s!"field {field} of {size} bytes overruns buffer of {length} bytes"

/-- What a configured limit bounds. -/
inductive Limited where
  | recordSize
  | listElements
  deriving DecidableEq, Repr

def Limited.text : Limited → String
  | .recordSize => "record size"
  | .listElements => "list elements"

/-- Why octets cannot be read, or a value not be written. -/
inductive CodecError where
  | invalidValue (expected got : String)
  | outOfBounds (offset length size : Nat)
  | corrupt (defect : Defect)
  | invalidUtf8 (offset : Nat)
  | lengthOverflow (type : String) (length limit : Nat)
  | unresolvedGroup (group : String)
  | unsupportedType (type : String)
  | limitExceeded (what : Limited) (requested limit : Nat)
  /-- a nested record failed, for the stated reason -/
  | nestedRecord (table reason : String)
  deriving DecidableEq, Repr

/-- The name of the cause. -/
def CodecError.name : CodecError → String
  | .invalidValue .. => "InvalidValue"
  | .outOfBounds .. => "OutOfBounds"
  | .corrupt .. => "Corrupt"
  | .invalidUtf8 .. => "InvalidUtf8"
  | .lengthOverflow .. => "LengthOverflow"
  | .unresolvedGroup .. => "UnresolvedGroup"
  | .unsupportedType .. => "UnsupportedType"
  | .limitExceeded .. => "LimitExceeded"
  | .nestedRecord .. => "NestedRecord"

def CodecError.message : CodecError → String
  | .invalidValue expected got => s!"Invalid value: expected {expected}, got {got}"
  | .outOfBounds offset length size =>
    s!"Out of bounds read: offset {offset}, length {length}, buffer length {size}"
  | .corrupt defect => s!"Corrupt buffer: {defect.message}"
  | .invalidUtf8 offset => s!"Invalid UTF-8 in string at offset {offset}"
  | .lengthOverflow type length limit => s!"Length {length} of {type} exceeds maximum {limit}"
  | .unresolvedGroup group => s!"Group '{group}' is not resolved to a table"
  | .unsupportedType type => s!"Unsupported type '{type}'"
  | .limitExceeded what requested limit => s!"{what.text} {requested} exceeds limit {limit}"
  | .nestedRecord table reason => s!"Nested record of table '{table}' failed: {reason}"

namespace Bytes

/-- The `length` octets at `offset`, which must all be there. -/
def slice (bytes : Bytes) (offset length : Nat) : Except CodecError Bytes :=
  if offset + length ≤ bytes.size then .ok (bytes.extract offset (offset + length))
  else .error (.outOfBounds offset length bytes.size)

/-- The big-endian number of `width` octets at `offset`. -/
def number (bytes : Bytes) (offset width : Nat) : Except CodecError Nat :=
  BigEndian.decode <$> slice bytes offset width

theorem slice_eq_ok_iff {bytes part : Bytes} {offset length : Nat} :
    slice bytes offset length = .ok part ↔
      offset + length ≤ bytes.size ∧ part = bytes.extract offset (offset + length) := by
  unfold slice
  by_cases h : offset + length ≤ bytes.size <;> simp [h, eq_comm]

/-- A part between two others is read back. -/
theorem slice_append (before part after : Bytes) :
    slice (before ++ part ++ after) before.size part.size = .ok part := by
  refine slice_eq_ok_iff.2 ⟨?_, octets_inj.1 ?_⟩
  · simp only [ByteArray.size_append]
    omega
  · simp [octets_extract, ← length_octets]

end Bytes

end RecordFormat
