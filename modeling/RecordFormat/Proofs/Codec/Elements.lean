import Mathlib
import RecordFormat.Proofs.Codec.Confinement
import RecordFormat.Proofs.Registry.Compilation

/-!
# A list and its elements

Elements are read one by one through the count and the positions, whatever else the list has. The
list as a whole has a check more: elements of fixed width leave no octets over. It is the only
difference. A list whose elements can all be read is read as these elements, unless they are of
fixed width and its octets are not just theirs (`decode_list_of_elements`). Elements of fixed
width can always be read, so that such a list is readable one way and not the other whenever
octets follow its last element (`exists_decodeElement_of_width`).
-/

namespace RecordFormat

open Outcome

namespace Operator

variable {element : Operator} {maxElements n w offset length index : Nat} {bytes : Bytes}

theorem decodeElement_of_count
    (counted : element.elementCount maxElements bytes offset length = .ok n) :
    element.decodeElement maxElements bytes offset length index = (do
      let (position, size) ← element.elementSpan bytes offset length n index
      element.decode bytes position size) := by
  rw [decodeElement, counted, ok_bind]

/-- What is refused of elements of fixed width: a list that they do not fill. -/
theorem checkFilled_of_width (width : element.width? = some w) :
    element.checkFilled n length = if countWidth + n * w = length then .ok () else
      .error (.corrupt (.elementsMismatch n w length)) := by
  rw [checkFilled, width]
  dsimp only
  rw [refuseIf, ite_not]

theorem checkFilled_of_no_width (width : element.width? = none) :
    element.checkFilled n length = .ok () := by
  rw [checkFilled, width]

/-- A list of which each element is read is read as these, once it is filled. -/
theorem decode_list_eq_checkFilled {items : List Value}
    (counted : element.elementCount maxElements bytes offset length = .ok items.length)
    (each : ∀ index (h : index < items.length),
      element.decodeElement maxElements bytes offset length index = .ok items[index]) :
    (list element maxElements).decode bytes offset length =
      (fun _ => .list items) <$> element.checkFilled items.length length := by
  cases filled : element.checkFilled items.length length with
  | error e =>
      rw [decode, counted, ok_bind, filled]
      rfl
  | ok =>
      refine decode_list_eq_ok_iff.mpr ⟨items, rfl, counted, filled, ?_⟩
      intro index bound
      rw [← decodeElement_of_count counted]
      exact each index bound

/-- **A list and its elements.** Where as many elements as are counted can be read one by one, the
list is read as just these elements, unless they are of fixed width and do not fill it. -/
theorem decode_list_of_elements
    (counted : element.elementCount maxElements bytes offset length = .ok n)
    (each : ∀ index < n, ∃ v,
      element.decodeElement maxElements bytes offset length index = .ok v) :
    ∃ items, items.length = n ∧
      (∀ index (h : index < items.length),
        element.decodeElement maxElements bytes offset length index = .ok items[index]) ∧
      (list element maxElements).decode bytes offset length = match element.width? with
        | some w => if countWidth + n * w = length then .ok (.list items) else
            .error (.corrupt (.elementsMismatch n w length))
        | none => .ok (.list items) := by
  obtain ⟨items, related⟩ :=
    exists_forall₂ fun index (mem : index ∈ List.range n) => each index (List.mem_range.mp mem)
  have size : items.length = n := by rw [← related.length_eq, List.length_range]
  subst size
  have read : ∀ index (h : index < items.length),
      element.decodeElement maxElements bytes offset length index = .ok items[index] := by
    intro index bound
    have here := related.get (i := index) (by rwa [List.length_range]) bound
    simpa using here
  refine ⟨items, rfl, read, ?_⟩
  rw [decode_list_eq_checkFilled counted read]
  cases width : element.width? with
  | none =>
      rw [checkFilled_of_no_width width]
      rfl
  | some w =>
      rw [checkFilled_of_width width]
      dsimp only
      split <;> rfl

/-- Elements of fixed width are readable wherever they are counted. -/
theorem exists_decodeElement_of_width (width : element.width? = some w)
    (counted : element.elementCount maxElements bytes offset length = .ok n)
    (inside : offset + length ≤ bytes.size) (bound : index < n) :
    ∃ v, element.decodeElement maxElements bytes offset length index = .ok v := by
  have room := room_of_elementCount counted
  have span : element.elementSpan bytes offset length n index =
      .ok (offset + countWidth + index * w, w) := by
    rw [elementSpan, refuseIf, if_neg (Nat.not_le.mpr bound), width]
    rfl
  have within := elementSpan_le room span
  rw [decodeElement_of_count counted, span, ok_bind]
  cases element with
  | fixed kind limit =>
      cases width
      have slice := Bytes.slice_eq_ok_iff.mpr ⟨Nat.le_trans within inside, rfl⟩
      dsimp only
      rw [decode, refuseIf, if_neg (not_not_intro rfl), ok_bind, slice]
      exact ⟨_, rfl⟩
  | string | binary | group | list => cases width

/-- So a list of them is readable as a whole only when it ends with the last of them. -/
theorem exists_decode_list_iff_of_width (width : element.width? = some w)
    (counted : element.elementCount maxElements bytes offset length = .ok n)
    (inside : offset + length ≤ bytes.size) :
    (∃ v, (list element maxElements).decode bytes offset length = .ok v) ↔
      countWidth + n * w = length := by
  obtain ⟨items, -, -, read⟩ := decode_list_of_elements counted fun index bound =>
    exists_decodeElement_of_width width counted inside bound
  rw [read, width]
  dsimp only
  split
  · simp only [*, iff_true]
    exact ⟨_, rfl⟩
  · simp [*]

end Operator

namespace Household

/-- The names, read one by one, are all the names. -/
theorem decode_names : ∃ items, items.length = 1 ∧
    Operator.string.decodeElement 10 nameOctets 0 13 0 = .ok (.scalar (.string "Ann")) ∧
    (Operator.list .string 10).decode nameOctets 0 13 = .ok (.list items) := by
  have counted : Operator.string.elementCount 10 nameOctets 0 13 = .ok 1 := by cbv
  have first : Operator.string.decodeElement 10 nameOctets 0 13 0 =
      .ok (.scalar (.string "Ann")) := by cbv
  obtain ⟨items, count, -, read⟩ :=
    Operator.decode_list_of_elements counted fun index bound => by
      obtain rfl : index = 0 := Nat.lt_one_iff.mp bound
      exact ⟨_, first⟩
  exact ⟨items, count, first, read⟩

/-- One age, and an octet that is not part of any. -/
def paddedAges : Bytes := [0, 0, 0, 1, 0, 0, 0, 7, 0].toByteArray

/-- The one age is counted and read, the list of ages is not. -/
theorem not_decode_paddedAges : ∃ element maxElements,
    Registry.GivesOperator limits (fun _ => True) (.list (.primitive .int32))
      (.list element maxElements) ∧
    element.elementCount maxElements paddedAges 0 9 = .ok 1 ∧
    element.decodeElement maxElements paddedAges 0 9 0 = .ok (.scalar (.int32 7)) ∧
    (Operator.list element maxElements).decode paddedAges 0 9 =
      .error (.corrupt (.elementsMismatch 1 4 9)) :=
  ⟨.fixed .int32 ⟨0⟩, 10, ⟨trivial, { limits }, .fresh, by cbv⟩, by cbv, by cbv, by cbv⟩

end Household

end RecordFormat
