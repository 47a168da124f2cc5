import RecordFormat.Proofs.Codec.Writing
import RecordFormat.Proofs.Codec.Nesting

/-!
# Reading what was written

What stands at a place is read back from there: scalars, length slots, and the count,
positions and payloads of a list. Nothing here depends on what is before or after.
-/

namespace RecordFormat

open Outcome
open Bytes (PartAt)

namespace BigEndian

theorem lt_count {n width : Nat} (h : n ≤ maximum width) : n < count width := by
  have pos : ∀ w, 0 < count w := by
    intro w
    induction w with
    | zero => exact Nat.one_pos
    | succ w ih => exact Nat.mul_pos (by decide) ih
  have := pos width
  unfold maximum at h
  omega

end BigEndian

/-! ## Scalars -/

/-- A scalar is read back from its payload. -/
theorem FixedKind.read_of_write? {kind : FixedKind} {s : Scalar} {p : Bytes}
    (h : kind.write? s = some p) : p.size = kind.width ∧ kind.read p = s := by
  obtain ⟨n, number, rfl⟩ := Option.map_eq_some_iff.mp h
  refine ⟨BigEndian.size_encode _ _, ?_⟩
  unfold read
  rw [BigEndian.decode_encode]
  cases kind <;> cases s <;> simp only [numberOf?, Option.some.injEq, reduceCtorEq] at number <;>
    subst number
  case bool.bool v => cases v <;> rfl
  case byte.byte v => simp [width, BigEndian.count]
  case int16.int16 v => simp [width, BigEndian.count]
  case int32.int32 v => simp [width, BigEndian.count]
  case int64.int64 v => simp [width, BigEndian.count]
  case float.float v => simp [width, BigEndian.count]
  case double.double v => simp [width, BigEndian.count]

namespace Operator

variable {bytes p : Bytes} {offset : Nat} {v : Value}

theorem decode_fixed {kind : FixedKind} {limit : Binary64} (part : PartAt bytes offset p)
    (written : (fixed kind limit).payload v = .ok p) :
    (fixed kind limit).decode bytes offset p.size = .ok v := by
  rcases payload_fixed_eq_ok_iff.mp written with ⟨s, rfl, -, write⟩
  obtain ⟨size, read⟩ := FixedKind.read_of_write? write
  rw [decode, part.slice_eq, bind_eq_ok_iff]
  exact ⟨(), refuseIf_eq_ok_iff.mpr (not_not.mpr size), by rw [← read]; rfl⟩

theorem decode_string (part : PartAt bytes offset p) (written : string.payload v = .ok p) :
    string.decode bytes offset p.size = .ok v := by
  obtain ⟨s, rfl, -, rfl⟩ := payload_string_eq_ok_iff.mp written
  rw [decode, part.slice_eq]
  simp only [bind, Except.bind, Text.ofUtf8?_utf8]
  rfl

theorem decode_binary (part : PartAt bytes offset p) (written : binary.payload v = .ok p) :
    binary.decode bytes offset p.size = .ok v := by
  rcases payload_binary_eq_ok_iff.mp written with ⟨rfl, -⟩
  rw [decode, part.slice_eq]
  rfl

/-! ## Length slots -/

/-- The payload has the operator's width, or its length fits the operator's length slot. -/
def Frames (op : Operator) (p : Bytes) : Prop :=
  match op.width? with
  | some width => p.size = width
  | none => p.size ≤ BigEndian.maximum op.lengthWidth

theorem Frames.of_block {op : Operator} (written : op.payload v = .ok p)
    (fits : op.isFixed = false → p.size ≤ BigEndian.maximum op.lengthWidth) : op.Frames p := by
  unfold Frames
  split
  · next width fixed =>
    have announced := size_of_payload written
    rw [size_of_width? v fixed, Except.ok.injEq] at announced
    exact announced.symm
  · next unfixed => exact fits (isFixed_eq_false_iff.mpr unfixed)

theorem Frames.size_eq {op : Operator} (h : op.Frames p) {width : Nat}
    (fixed : op.width? = some width) : p.size = width := by
  simpa [Frames, fixed] using h

theorem Frames.size_lt {op : Operator} (h : op.Frames p) (unfixed : op.width? = none) :
    p.size < BigEndian.count op.lengthWidth := by
  apply BigEndian.lt_count
  simpa [Frames, unfixed] using h

/-- Blocks are never empty. -/
theorem Frames.framed_pos {op : Operator} (h : op.Frames p) : 0 < (op.framed p).size := by
  rw [size_framed]
  cases fixed : op.width? with
  | none =>
      have := lengthWidth_pos (isFixed_eq_false_iff.mpr fixed)
      omega
  | some width =>
      have size := h.size_eq fixed
      cases op with
      | fixed kind limit =>
          cases fixed
          cases kind <;> simp [FixedKind.width] at size <;> omega
      | _ => cases fixed

end Operator

/-- The payload of a slot's data is found where it was put. -/
theorem Slot.span_of_partAt {s : Slot} {b : RecordBuffer} {offset : Nat} {p : Bytes}
    (part : PartAt b.bytes offset (s.operator.framed p)) (frames : s.operator.Frames p) :
    s.span b offset = .ok (offset + s.operator.lengthWidth, p.size) ∧
      PartAt b.bytes (offset + s.operator.lengthWidth) p := by
  have inside := part.right
  rw [BigEndian.size_encode] at inside
  refine ⟨?_, inside⟩
  unfold span
  split
  · next width fixed =>
    have none : s.operator.lengthWidth = 0 :=
      Operator.lengthWidth_of_isFixed (by simp [Operator.isFixed, fixed])
    rw [none, Nat.add_zero] at inside ⊢
    have size := frames.size_eq fixed
    rw [← size, inside.slice_eq]
    rfl
  · next unfixed =>
    rw [part.left.number_eq (frames.size_lt unfixed)]
    have within := inside.size_le
    refine bind_eq_ok_iff.mpr ⟨p.size, rfl, bind_eq_ok_iff.mpr ⟨(), ?_, rfl⟩⟩
    exact refuseIf_eq_ok_iff.mpr (Nat.not_lt.mpr within)

/-! ## Lists -/

namespace Operator

variable {element : Operator} {maxElements : Nat} {payloads : List Bytes} {bytes : Bytes}
  {offset index : Nat}

/-- The octets of a list with these element payloads. -/
def listOf (element : Operator) (payloads : List Bytes) : Bytes :=
  listOctets element (payloads.map element.framed)

/-- The places of the blocks, counted from the start of the list. -/
def blockPositions (element : Operator) (payloads : List Bytes) : List Nat :=
  positions (countWidth + (elementIndex element (payloads.map element.framed)).length *
    positionWidth) (payloads.map element.framed)

theorem partAt_blockPositions :
    List.Forall₂ (PartAt (listOf element payloads)) (blockPositions element payloads)
      (payloads.map element.framed) := by
  have part := Bytes.partAt_self (listOf element payloads)
  unfold listOf at part ⊢
  rw [listOctets] at part ⊢
  have blocks := part.right
  rw [ByteArray.size_append, BigEndian.size_encode, size_elementIndex, Nat.zero_add] at blocks
  exact blocks.join

/-- The frames of a list are as many as its elements, and take octets. -/
theorem length_le_size (frames : ∀ p ∈ payloads, element.Frames p) :
    payloads.length ≤ (Bytes.join (payloads.map element.framed)).size := by
  induction payloads with
  | nil => exact Nat.zero_le _
  | cons p rest ih =>
      rcases List.forall_mem_cons.mp frames with ⟨first, tail⟩
      have pos := first.framed_pos
      have := ih tail
      rw [List.map_cons, Bytes.join_cons, ByteArray.size_append, List.length_cons]
      omega

/-- Frames of payloads of fixed width are as wide. -/
theorem size_of_mem_framed {width : Nat} (fixed : element.width? = some width)
    (frames : ∀ p ∈ payloads, element.Frames p) :
    ∀ block ∈ payloads.map element.framed, block.size = width := by
  intro block hb
  rcases List.mem_map.mp hb with ⟨p, hp, rfl⟩
  rw [size_framed, lengthWidth_of_isFixed (by simp [isFixed, fixed]), Nat.zero_add,
    (frames p hp).size_eq fixed]

theorem size_listOf_of_width? {width : Nat} (fixed : element.width? = some width)
    (frames : ∀ p ∈ payloads, element.Frames p) :
    (listOf element payloads).size = countWidth + payloads.length * width := by
  rw [listOf, size_listOctets, elementIndex_of_width? _ fixed,
    Bytes.size_join_of_width (size_of_mem_framed fixed frames), List.length_map]
  rfl

/-- The element count is read back. -/
theorem elementCount_of_partAt (part : PartAt bytes offset (listOf element payloads))
    (frames : ∀ p ∈ payloads, element.Frames p) (few : payloads.length ≤ maxElements)
    (small : (listOf element payloads).size ≤ BigEndian.maximum 4) :
    element.elementCount maxElements bytes offset (listOf element payloads).size =
      .ok payloads.length := by
  have size := size_listOctets element (payloads.map element.framed)
  have nonempty := length_le_size frames
  have count : PartAt bytes offset (BigEndian.encode countWidth payloads.length) := by
    have := part
    unfold listOf at this
    rw [listOctets, List.length_map] at this
    exact this.left.left
  rw [← listOf] at size
  have room : countWidth + payloads.length * element.width?.getD positionWidth ≤
      (listOf element payloads).size := by
    cases width : element.width? with
    | some w =>
        rw [size_listOf_of_width? width frames]
        exact Nat.le_refl _
    | none =>
        rw [elementIndex_of_none _ width, Bytes.length_positions, List.length_map] at size
        simp only [Option.getD_none]
        omega
  unfold elementCount
  refine bind_eq_ok_iff.mpr ⟨(), refuseIf_eq_ok_iff.mpr (by omega), ?_⟩
  refine bind_eq_ok_iff.mpr ⟨payloads.length, ?_, ?_⟩
  · exact count.number_eq (BigEndian.lt_count (by simp only [countWidth]; omega))
  · refine bind_eq_ok_iff.mpr ⟨(), refuseIf_eq_ok_iff.mpr (by omega), ?_⟩
    exact bind_eq_ok_iff.mpr ⟨(), refuseIf_eq_ok_iff.mpr (by omega), rfl⟩

/-- Elements of fixed width fill the list. -/
theorem checkFilled_listOf (frames : ∀ p ∈ payloads, element.Frames p) :
    element.checkFilled payloads.length (listOf element payloads).size = .ok () := by
  unfold checkFilled
  split
  · next width fixed =>
    rw [size_listOf_of_width? fixed frames]
    exact refuseIf_eq_ok_iff.mpr (not_not.mpr rfl)
  · rfl

/-- Elements of fixed width stand at multiples of it. -/
theorem blockPositions_of_width? {width : Nat} (fixed : element.width? = some width)
    (frames : ∀ p ∈ payloads, element.Frames p) (bound : index < payloads.length) :
    (blockPositions element payloads)[index]? = some (countWidth + index * width) := by
  rw [blockPositions, elementIndex_of_width? _ fixed,
    Bytes.getElem?_positions (size_of_mem_framed fixed frames) (by simpa using bound)]
  rfl

/-- The places of other elements are written down. -/
theorem partAt_position (part : PartAt bytes offset (listOf element payloads))
    (unfixed : element.width? = none) (range : index < (blockPositions element payloads).length) :
    PartAt bytes (offset + countWidth + index * positionWidth)
      (BigEndian.encode positionWidth (blockPositions element payloads)[index]) := by
  have listed : elementIndex element (payloads.map element.framed) =
      blockPositions element payloads := by
    rw [blockPositions, elementIndex_of_none _ unfixed, Bytes.length_positions]
  unfold listOf at part
  rw [listOctets, listed] at part
  have entries := part.left.right
  rw [BigEndian.size_encode] at entries
  have spot : (positions (offset + countWidth) ((blockPositions element payloads).map
      (BigEndian.encode positionWidth)))[index]? =
      some (offset + countWidth + index * positionWidth) :=
    Bytes.getElem?_positions size_of_mem_positions (by simpa using range)
  obtain ⟨spots, eq⟩ := List.getElem?_eq_some_iff.mp spot
  have here := entries.join.get (i := index) spots (by simpa using range)
  simpa [eq] using here

/-- Elements stand behind the places that are written down. -/
theorem le_blockPosition (unfixed : element.width? = none)
    (range : index < (blockPositions element payloads).length) :
    countWidth + payloads.length * positionWidth ≤ (blockPositions element payloads)[index] := by
  have bound : index < payloads.length := by
    rwa [blockPositions, Bytes.length_positions, List.length_map] at range
  have member : ((blockPositions element payloads)[index], element.framed payloads[index]) ∈
      (blockPositions element payloads).zip (payloads.map element.framed) :=
    List.mem_iff_getElem.mpr ⟨index, by simpa using Nat.lt_min.mpr ⟨range, bound⟩, by simp⟩
  have low := (Bytes.mem_positions_le member).1
  rwa [elementIndex_of_none _ unfixed, Bytes.length_positions, List.length_map] at low

/-- **Every element is found where it was put.** -/
theorem elementSpan_of_partAt (part : PartAt bytes offset (listOf element payloads))
    (frames : ∀ p ∈ payloads, element.Frames p)
    (small : (listOf element payloads).size ≤ BigEndian.maximum 4)
    (bound : index < payloads.length) :
    ∃ position, element.elementSpan bytes offset (listOf element payloads).size payloads.length
        index = .ok (position, payloads[index].size) ∧
      PartAt bytes position payloads[index] := by
  have own := frames payloads[index] (List.getElem_mem bound)
  have range : index < (blockPositions element payloads).length := by
    rw [blockPositions, Bytes.length_positions, List.length_map]
    exact bound
  have block := partAt_blockPositions.get range (by simpa using bound)
  simp only [List.get_eq_getElem, List.getElem_map] at block
  have inside := (part.trans block).right
  rw [BigEndian.size_encode] at inside
  unfold elementSpan
  cases width : element.width? with
  | some w =>
      obtain ⟨_, spot⟩ := List.getElem?_eq_some_iff.mp (blockPositions_of_width? width frames bound)
      rw [spot, lengthWidth_of_isFixed (by simp [isFixed, width]), Nat.add_zero,
        ← Nat.add_assoc] at inside
      refine ⟨_, bind_eq_ok_iff.mpr ⟨(), refuseIf_eq_ok_iff.mpr (by omega), ?_⟩, inside⟩
      rw [own.size_eq width]
      rfl
  | none =>
      have written := partAt_position part width range
      have first := le_blockPosition width range
      generalize (blockPositions element payloads)[index] = relative at *
      have framed := size_framed element payloads[index]
      have within := block.size_le
      refine ⟨offset + (relative + element.lengthWidth),
        bind_eq_ok_iff.mpr ⟨(), refuseIf_eq_ok_iff.mpr (by omega), ?_⟩, ?_⟩
      · refine bind_eq_ok_iff.mpr ⟨relative, ?_, ?_⟩
        · exact written.number_eq (BigEndian.lt_count (by simp only [positionWidth]; omega))
        · refine bind_eq_ok_iff.mpr ⟨(), refuseIf_eq_ok_iff.mpr (by omega), ?_⟩
          refine bind_eq_ok_iff.mpr ⟨payloads[index].size, ?_, ?_⟩
          · exact (part.trans block).left.number_eq (own.size_lt width)
          · exact bind_eq_ok_iff.mpr ⟨(), refuseIf_eq_ok_iff.mpr (by omega), rfl⟩
      · rwa [← Nat.add_assoc]

end Operator

end RecordFormat
