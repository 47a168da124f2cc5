import RecordFormat.Outcome
import RecordFormat.Record.Basic
import RecordFormat.Record.Error
import RecordFormat.Text.Utf8

/-!
# Reading payloads and buffers

Numbers are big-endian, in two's complement or by their IEEE bits. A list begins with its
element count (four octets); elements of fixed width follow directly, others after one
position (four octets, from the start of the list) for each, every element behind its own
length slot. A group is the buffer of a record, kept unread: nested payloads are only read
when they are asked for.
-/

namespace RecordFormat

open Outcome

/-- The octets of an element count. -/
def countWidth : Nat := 4

/-- The octets of an element position. -/
def positionWidth : Nat := 4

namespace FixedKind

/-- The scalar that a payload of the right width stands for. -/
def read (k : FixedKind) (payload : Bytes) : Scalar :=
  let n := BigEndian.decode payload
  match k with
  | .bool => .bool (n ≠ 0)
  | .byte => .byte (UInt8.ofNat n).toInt8
  | .int16 => .int16 (UInt16.ofNat n).toInt16
  | .int32 => .int32 (UInt32.ofNat n).toInt32
  | .int64 => .int64 (UInt64.ofNat n).toInt64
  | .float => .float ⟨.ofNat n⟩
  | .double => .double ⟨.ofNat n⟩

end FixedKind

namespace TableCodec

/-- Every required stored field must have an entry. -/
def checkBuffer (c : TableCodec) (b : RecordBuffer) : Except RecordError Unit :=
  match (c.table.requiredFields.filter Field.isStored).find? fun f => !b.contains f.id with
  | some f => .error (.missingRequired c.table.name f.name)
  | none => .ok ()

end TableCodec

namespace Record

/-- A record without buffer and values. -/
def empty (codec : TableCodec) : Record := ⟨codec, none, [], [], []⟩

/-- A record that reads from a buffer. -/
def ofBuffer (codec : TableCodec) (b : RecordBuffer) : Except RecordError Record := do
  codec.checkBuffer b
  return { empty codec with buffer := some b }

/-- A record that reads from octets. -/
def ofBytes (codec : TableCodec) (bytes : Bytes) : Except RecordError Record := do
  let b ← RecordError.lift (RecordBuffer.ofBytes bytes codec.limits.maxRecordSize)
  ofBuffer codec b

end Record

namespace Operator

/-- The element count of a list in the `length` octets at `offset`. -/
def elementCount (element : Operator) (maxElements : Nat) (bytes : Bytes) (offset length : Nat) :
    Except CodecError Nat := do
  refuseIf (length < countWidth) (.corrupt (.noElementCount length))
  let count ← Bytes.number bytes offset countWidth
  refuseIf (maxElements < count) (.corrupt (.tooManyElements count maxElements))
  refuseIf (length < countWidth + count * element.width?.getD positionWidth)
    (.corrupt (.elementsOverrun count length))
  return count

/-- Where the payload of an element is: position and length. -/
def elementSpan (element : Operator) (bytes : Bytes) (offset length count index : Nat) :
    Except CodecError (Nat × Nat) := do
  refuseIf (count ≤ index) (.outOfBounds index 1 count)
  match element.width? with
  | some width => return (offset + countWidth + index * width, width)
  | none =>
    let relative ← Bytes.number bytes (offset + countWidth + index * positionWidth) positionWidth
    let payload := relative + element.lengthWidth
    refuseIf (relative < countWidth + count * positionWidth ∨ length < payload)
      (.corrupt (.elementOutside index relative length))
    let size ← Bytes.number bytes (offset + relative) element.lengthWidth
    refuseIf (length < payload + size) (.corrupt (.elementOverrun index size))
    return (offset + payload, size)

/-- Elements of fixed width leave no octets of the list over. -/
def checkFilled (element : Operator) (count length : Nat) : Except CodecError Unit :=
  match element.width? with
  | some width =>
    refuseIf (countWidth + count * width ≠ length) (.corrupt (.elementsMismatch count width length))
  | none => .ok ()

/-- Reads the value in the `length` octets at `offset`. -/
def decode : Operator → (bytes : Bytes) → (offset length : Nat) → Except CodecError Value
  | .fixed kind _, bytes, offset, length => do
    refuseIf (length ≠ kind.width)
      (.corrupt (.payloadWidth kind.primitive.name kind.width length))
    return .scalar (kind.read (← Bytes.slice bytes offset length))
  | .string, bytes, offset, length => do
    match Text.ofUtf8? (← Bytes.slice bytes offset length) with
    | some s => return .scalar (.string s)
    | none => throw (.invalidUtf8 offset)
  | .binary, bytes, offset, length => do
    return .scalar (.binary (← Bytes.slice bytes offset length))
  | .group codec, bytes, offset, length => do
    let payload ← Bytes.slice bytes offset length
    let b ← RecordBuffer.ofBytes payload codec.limits.maxRecordSize
    return .group (← RecordError.nest codec.table.name (Record.ofBuffer codec b))
  | .list element maxElements, bytes, offset, length => do
    let count ← element.elementCount maxElements bytes offset length
    element.checkFilled count length
    let items ← (List.range count).mapM fun index => do
      let (position, size) ← element.elementSpan bytes offset length count index
      element.decode bytes position size
    return .list items

/-- Reads one element of a list. -/
def decodeElement (element : Operator) (maxElements : Nat) (bytes : Bytes)
    (offset length index : Nat) : Except CodecError Value := do
  let count ← element.elementCount maxElements bytes offset length
  let (position, size) ← element.elementSpan bytes offset length count index
  element.decode bytes position size

end Operator

theorem Record.depth_of_ofBuffer {codec : TableCodec} {b : RecordBuffer} {r : Record}
    (h : Record.ofBuffer codec b = .ok r) : r.depth = codec.depth + 2 := by
  obtain ⟨_, _, h⟩ := bind_eq_ok_iff.1 h
  obtain rfl := pure_eq_ok_iff.1 h
  simp [Record.depth, Record.empty, depthOfPending, depthOfDerived]

/-- A value that was read is no deeper than its operator and one record. -/
theorem Operator.depth_of_decode (op : Operator) {bytes : Bytes} {offset length : Nat} {v : Value}
    (h : op.decode bytes offset length = .ok v) : v.depth ≤ op.depth + 2 := by
  match op with
  | .fixed kind limit =>
    rw [decode] at h
    obtain ⟨_, _, h⟩ := bind_eq_ok_iff.1 h
    obtain ⟨_, _, h⟩ := bind_eq_ok_iff.1 h
    obtain rfl := pure_eq_ok_iff.1 h
    simp [Value.depth]
  | .string =>
    rw [decode] at h
    obtain ⟨_, _, h⟩ := bind_eq_ok_iff.1 h
    split at h
    · obtain rfl := pure_eq_ok_iff.1 h
      simp [Value.depth]
    · exact absurd h throw_ne_ok
  | .binary =>
    rw [decode] at h
    obtain ⟨_, _, h⟩ := bind_eq_ok_iff.1 h
    obtain rfl := pure_eq_ok_iff.1 h
    simp [Value.depth]
  | .group codec =>
    rw [decode] at h
    obtain ⟨_, _, h⟩ := bind_eq_ok_iff.1 h
    obtain ⟨_, _, h⟩ := bind_eq_ok_iff.1 h
    obtain ⟨_, nested, h⟩ := bind_eq_ok_iff.1 h
    obtain rfl := pure_eq_ok_iff.1 h
    have := Record.depth_of_ofBuffer (mapError_eq_ok_iff.1 nested)
    simp only [Value.depth, Operator.depth]
    omega
  | .list element maxElements =>
    rw [decode] at h
    obtain ⟨_, _, h⟩ := bind_eq_ok_iff.1 h
    obtain ⟨_, _, h⟩ := bind_eq_ok_iff.1 h
    obtain ⟨items, read, h⟩ := bind_eq_ok_iff.1 h
    obtain rfl := pure_eq_ok_iff.1 h
    rw [Value.depth, Operator.depth]
    refine Nat.add_le_add_right (depthOfItems_le fun w hw => ?_) 1
    obtain ⟨_, _, hw⟩ := exists_of_mem_mapM read hw
    obtain ⟨_, _, hw⟩ := bind_eq_ok_iff.1 hw
    exact Nat.le_trans (element.depth_of_decode hw) (by omega)

end RecordFormat
