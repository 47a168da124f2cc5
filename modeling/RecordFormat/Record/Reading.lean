import RecordFormat.Record.Decoding

/-!
# Reading fields from a buffer

A codec reads one field, one element of a list, or everything. Reading everything walks the
index and skips the numbers that the table does not store; they were written by another
version of it. Reading one field looks only at that field's octets.
-/

namespace RecordFormat

open Outcome

namespace TableCodec

variable (c : TableCodec)

/-- The slot of one of the table's own stored fields. -/
def storedSlot (f : Field) : Except RecordError Slot :=
  if f.isDerived && c.table.contains f then .error (.derivedNotBound c.table.name f.name)
  else
    match (c.slot? f.id).filter fun s => s.field.name = f.name with
    | some s => .ok s
    | none => .error (.unknownField c.table.name f.name)

variable {c} in
theorem slot?_of_storedSlot {f : Field} {s : Slot} (h : c.storedSlot f = .ok s) :
    c.slot? f.id = some s := by
  unfold storedSlot at h
  split at h
  · cases h
  · split at h
    · next found =>
      cases h
      exact Option.eq_some_of_filter_eq_some found
    · cases h

end TableCodec

namespace Slot

/-- Position and length of the payload of the data at `offset`. -/
def span (s : Slot) (b : RecordBuffer) (offset : Nat) : Except CodecError (Nat × Nat) :=
  match s.operator.width? with
  | some width => do
    let _ ← Bytes.slice b.bytes offset width
    return (offset, width)
  | none => do
    let length ← Bytes.number b.bytes offset s.operator.lengthWidth
    let start := offset + s.operator.lengthWidth
    refuseIf (b.size < start + length) (.corrupt (.fieldOverrun s.field.name length b.size))
    return (start, length)

/-- The value of the data at `offset`. -/
def read (s : Slot) (b : RecordBuffer) (offset : Nat) : Except CodecError Value := do
  let (start, length) ← s.span b offset
  s.operator.decode b.bytes start length

end Slot

namespace TableCodec

variable (c : TableCodec)

/-- The entries of a buffer that the table stores: slot and data position. -/
def knownEntries (b : RecordBuffer) : List (Slot × Nat) :=
  b.entries.filterMap fun (id, offset) => (c.slot? id).map fun s => (s, offset)

/-- Reads every stored field that a buffer has. -/
def decodeAll (b : RecordBuffer) : Except RecordError (IdMap Value) :=
  (c.knownEntries b).mapM fun (s, offset) => do
    return (s.field.id, ← RecordError.lift (s.read b offset))

/-- Reads one field, if the buffer has it. -/
def readField (b : RecordBuffer) (f : Field) : Except RecordError (Option Value) := do
  let s ← c.storedSlot f
  match b.locate? f.id with
  | some offset => some <$> RecordError.lift (s.read b offset)
  | none => return none

/-- The payload of one field, if the buffer has it. -/
def payload? (b : RecordBuffer) (f : Field) : Except RecordError (Option Bytes) := do
  let s ← c.storedSlot f
  match b.locate? f.id with
  | some offset => do
    let (start, length) ← RecordError.lift (s.span b offset)
    some <$> RecordError.lift (Bytes.slice b.bytes start length)
  | none => return none

/-- A list field's element operator and element limit, and where its payload is, if the
buffer has it. -/
def listSpan (b : RecordBuffer) (f : Field) :
    Except RecordError (Option (Operator × Nat × Nat × Nat)) := do
  let s ← c.storedSlot f
  match s.operator with
  | .list element maxElements =>
    match b.locate? f.id with
    | some offset => do
      let (start, length) ← RecordError.lift (s.span b offset)
      return some (element, maxElements, start, length)
    | none => return none
  | _ => throw (.notACollection c.table.name f.name)

/-- The element count of a list field, if the buffer has it. -/
def listSize (b : RecordBuffer) (f : Field) : Except RecordError (Option Nat) := do
  match ← c.listSpan b f with
  | some (element, maxElements, start, length) =>
    some <$> RecordError.lift (element.elementCount maxElements b.bytes start length)
  | none => return none

/-- One element of a list field, if the buffer has the field. -/
def listElement (b : RecordBuffer) (f : Field) (index : Nat) :
    Except RecordError (Option Value) := do
  match ← c.listSpan b f with
  | some (element, maxElements, start, length) => do
    let count ← RecordError.lift (element.elementCount maxElements b.bytes start length)
    refuseIf (count ≤ index) (.indexOutOfRange f.name index count)
    some <$> RecordError.lift (element.decodeElement maxElements b.bytes start length index)
  | none => return none

/-- What a codec reads is no deeper than the codec and one record. -/
theorem depth_of_read {c : TableCodec} {s : Slot} {b : RecordBuffer} {offset : Nat} {v : Value}
    (known : s ∈ c.slots) (h : s.read b offset = .ok v) : v.depth ≤ c.depth + 1 := by
  obtain ⟨_, _, h⟩ := bind_eq_ok_iff.1 h
  have inner := s.operator.depth_of_decode h
  have outer := Operator.depth_le_depthOfSlots known
  have : c.depth = depthOfSlots c.slots + 1 := by cases c; rfl
  omega

theorem depth_of_readField {c : TableCodec} {b : RecordBuffer} {f : Field} {v : Value}
    (h : c.readField b f = .ok (some v)) : v.depth ≤ c.depth + 1 := by
  obtain ⟨s, own, h⟩ := bind_eq_ok_iff.1 h
  split at h
  · obtain ⟨w, read, eq⟩ := map_eq_ok_iff.1 h
    cases eq
    exact depth_of_read (mem_of_slot? (slot?_of_storedSlot own)) (mapError_eq_ok_iff.1 read)
  · cases h

theorem depth_of_decodeAll {c : TableCodec} {b : RecordBuffer} {m : IdMap Value}
    (h : c.decodeAll b = .ok m) {e : Int16 × Value} (mem : e ∈ m) : e.2.depth ≤ c.depth + 1 := by
  obtain ⟨⟨s, offset⟩, known, h⟩ := exists_of_mem_mapM h mem
  obtain ⟨v, read, eq⟩ := bind_eq_ok_iff.1 h
  obtain rfl := pure_eq_ok_iff.1 eq
  obtain ⟨_, _, found⟩ := List.mem_filterMap.1 known
  obtain ⟨_, slot, same⟩ := Option.map_eq_some_iff.1 found
  cases same
  exact depth_of_read (mem_of_slot? slot) (mapError_eq_ok_iff.1 read)

end TableCodec

end RecordFormat
