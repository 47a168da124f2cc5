import RecordFormat.Record.Encoding

/-!
# Appending to a buffer

`Operator.appendTo` writes the payload of a value behind what a buffer holds already. Where the
elements of a list vary in width, the index in front of them is reserved first, and each place in
it is filled in when the element is about to be written.
-/

namespace RecordFormat

open Outcome

namespace Bytes

/-- Octets that are zero. -/
def zeros (n : Nat) : Bytes := (List.replicate n 0).toByteArray

/-- Puts `part` in the place of the octets from `offset` on. -/
def overwrite (bytes : Bytes) (offset : Nat) (part : Bytes) : Bytes :=
  bytes.extract 0 offset ++ part ++ bytes.extract (offset + part.size) bytes.size

end Bytes

namespace Operator

/-- Appends elements, each behind its length slot. Where each one starts, counted from `start`, is
written to the index, whose next place is `place`. -/
def appendElements (element : Operator) (append : Bytes → Value → Except CodecError Bytes)
    (start : Nat) : (place : Nat) → List Value → (out : Bytes) → Except CodecError Bytes
  | _, [], out => .ok out
  | place, x :: rest, out => do
    let indexed := out.overwrite place (BigEndian.encode positionWidth (out.size - start))
    let slot ← lengthSlot element.lengthWidth (← element.size x) element.typeText
    let written ← append (indexed ++ slot) x
    appendElements element append start (place + positionWidth) rest written

/-- Appends the payload of a value. -/
def appendTo : Operator → (out : Bytes) → Value → Except CodecError Bytes
  | .list element maxElements, out, .list items => do
    refuseIf (maxElements < items.length) (.limitExceeded .listElements items.length maxElements)
    let counted := out ++ BigEndian.encode countWidth items.length
    if element.isFixed then items.foldlM (fun out x => element.appendTo out x) counted
    else
      appendElements element (fun out x => element.appendTo out x) out.size counted.size items
        (counted ++ Bytes.zeros (items.length * positionWidth))
  | op, out, v => return out ++ (← op.payload v)

end Operator

end RecordFormat
