import RecordFormat.Wire.Error
import RecordFormat.Wire.Limits

/-!
# Record buffers

A buffer starts with its total length (four octets), the version of the table that wrote it
(two) and the number of entries (two). An index follows with one entry for each field, its
number (two) and the position of its data (four), ascending by number; the data is after the
index. A `RecordBuffer` is a run of octets in which all of this is consistent. Payloads are
not checked here.
-/

namespace RecordFormat

namespace RecordBuffer

/-- The octets before the index. -/
def headerLength : Nat := 8

/-- The octets of an index entry. -/
def entryLength : Nat := 6

/-- The number written at `offset`, in `width` octets. -/
def numberAt (bytes : Bytes) (offset width : Nat) : Nat :=
  BigEndian.decode (bytes.extract offset (offset + width))

/-- A signed number of two octets. -/
def int16At (bytes : Bytes) (offset : Nat) : Int16 :=
  (UInt16.ofNat (numberAt bytes offset 2)).toInt16

/-- The number of entries that the header declares. -/
def entriesOf (bytes : Bytes) : Nat := numberAt bytes 6 2

/-- Where the data begins. -/
def dataStartOf (bytes : Bytes) : Nat := headerLength + entriesOf bytes * entryLength

/-- Field number and data position of an index entry. -/
def entryOf (bytes : Bytes) (index : Nat) : Int16 × Nat :=
  let position := headerLength + index * entryLength
  (int16At bytes position, numberAt bytes (position + 2) 4)

/-- The first defect of the entries from `index` on; `previous` is the number before. -/
def entryDefect? (bytes : Bytes) (length : Nat) (previous : Option Int16) :
    (index count : Nat) → Option Defect
  | _, 0 => none
  | index, count + 1 =>
    let (id, offset) := entryOf bytes index
    if previous.any fun p => id ≤ p then some (.unorderedIndex index)
    else if offset < dataStartOf bytes ∨ length ≤ offset then
      some (.offsetOutside id offset (dataStartOf bytes) length)
    else entryDefect? bytes length (some id) (index + 1) count

/-- The first inconsistency of header or index. -/
def defect? (bytes : Bytes) : Option Defect :=
  let length := bytes.size
  if length < headerLength then some (.shortHeader length)
  else if numberAt bytes 0 4 ≠ length then some (.lengthMismatch (numberAt bytes 0 4) length)
  else if length < dataStartOf bytes then some (.indexOverrun (entriesOf bytes) length)
  else entryDefect? bytes length none 0 (entriesOf bytes)

end RecordBuffer

/-- Octets with a consistent header and index. -/
structure RecordBuffer where
  bytes : Bytes
  consistent : RecordBuffer.defect? bytes = none
  deriving DecidableEq

namespace RecordBuffer

/-- Takes octets as a buffer, if they are consistent and within a size limit. -/
def ofBytes (bytes : Bytes) (limit : Nat) : Except CodecError RecordBuffer :=
  if limit < bytes.size then .error (.limitExceeded .recordSize bytes.size limit)
  else
    match h : defect? bytes with
    | some defect => .error (.corrupt defect)
    | none => .ok ⟨bytes, h⟩

variable (b : RecordBuffer)

def size : Nat := b.bytes.size

/-- The version of the table that wrote the buffer. -/
def version : Int16 := int16At b.bytes 4

/-- The number of stored fields. -/
def entryCount : Nat := entriesOf b.bytes

def dataStart : Nat := dataStartOf b.bytes

def entry (index : Nat) : Int16 × Nat := entryOf b.bytes index

/-- All entries, in index order. -/
def entries : List (Int16 × Nat) := (List.range b.entryCount).map b.entry

/-- The stored field numbers, ascending. -/
def fieldIds : List Int16 := b.entries.map Prod.fst

/-- Looks for a field number among the entries from `low` up to but not including `high`. -/
def search (id : Int16) (low high : Nat) : Option Nat :=
  if _h : low < high then
    let middle := low + (high - low) / 2
    let (found, offset) := b.entry middle
    if found = id then some offset
    else if found < id then search id (middle + 1) high
    else search id low middle
  else none
termination_by high - low

/-- The data position of a field, found by halving the index. -/
def locate? (id : Int16) : Option Nat := b.search id 0 b.entryCount

def contains (id : Int16) : Bool := (b.locate? id).isSome

/-- Numbers separated by commas, in brackets. -/
private def listing (ids : List Int16) : String :=
  "[" ++ String.intercalate ", " (ids.map fun id => s!"{id}") ++ "]"

def description : String :=
  s!"RecordBuffer \x7b len: {b.size}, version: {b.version}, fields: {listing b.fieldIds} \x7d"

end RecordBuffer

end RecordFormat
