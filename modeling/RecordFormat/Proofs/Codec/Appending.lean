import RecordFormat.Proofs.Codec.Payloads
import RecordFormat.Record.Appending

/-!
# Appending is writing behind

Appending a value leaves what the buffer holds and puts the value's payload behind it
(`Operator.appendTo_eq`), though the index of a list is filled in while the elements are written.
-/

namespace RecordFormat

open Outcome

namespace Bytes

@[simp] theorem size_zeros (n : Nat) : (zeros n).size = n := by
  rw [← length_octets, zeros, octets_toByteArray, List.length_replicate]

@[simp] theorem zeros_zero : zeros 0 = .empty := rfl

theorem zeros_add (m n : Nat) : zeros (m + n) = zeros m ++ zeros n := by
  rw [← octets_inj, octets_append, zeros, zeros, zeros, octets_toByteArray, octets_toByteArray,
    octets_toByteArray, List.replicate_add]

/-- A part is put in the place of one of its size, and nothing else changes. -/
theorem overwrite_append {front old part back : Bytes} {offset : Nat} (here : front.size = offset)
    (size : old.size = part.size) :
    (front ++ old ++ back).overwrite offset part = front ++ part ++ back := by
  have before : (front ++ old ++ back).extract 0 offset = front := by
    rw [ByteArray.append_assoc]
    exact ByteArray.extract_append_eq_left here.symm
  have after : (front ++ old ++ back).extract (offset + part.size) (front ++ old ++ back).size =
      back := by
    apply ByteArray.extract_append_eq_right
    · rw [ByteArray.size_append, here, size]
    · exact ByteArray.size_append
  rw [overwrite, before, after]

end Bytes

namespace Operator

variable {element : Operator} {n : Nat}

/-! ## Lists that are being written -/

/-- A list of `n` elements of which some are written: the count, the index as far as it is known,
room for the rest of it, and the blocks. -/
def partOfList (n : Nat) (done : List Bytes) : Bytes :=
  BigEndian.encode countWidth n ++
    Bytes.join ((positions (countWidth + n * positionWidth) done).map
      (BigEndian.encode positionWidth)) ++
    Bytes.zeros ((n - done.length) * positionWidth) ++ Bytes.join done

theorem partOfList_nil : partOfList n [] =
    BigEndian.encode countWidth n ++ Bytes.zeros (n * positionWidth) := by
  simp [partOfList]

/-- A list is complete with its last element. -/
theorem partOfList_length (unfixed : element.isFixed = false) (blocks : List Bytes) :
    partOfList blocks.length blocks = listOctets element blocks := by
  rw [listOctets, elementIndex, if_neg (by simp [unfixed]), partOfList, Nat.sub_self, Nat.zero_mul,
    Bytes.zeros_zero, ByteArray.append_empty]

theorem size_index_partOfList (done : List Bytes) :
    (Bytes.join ((positions (countWidth + n * positionWidth) done).map
      (BigEndian.encode positionWidth))).size = done.length * positionWidth := by
  rw [Bytes.size_join_of_width size_of_mem_positions, List.length_map, Bytes.length_positions]

theorem size_partOfList {done : List Bytes} (few : done.length ≤ n) :
    (partOfList n done).size = countWidth + n * positionWidth + (Bytes.join done).size := by
  have room : done.length * positionWidth + (n - done.length) * positionWidth =
      n * positionWidth := by
    rw [← Nat.add_mul, Nat.add_sub_cancel' few]
  simp only [partOfList, ByteArray.size_append, BigEndian.size_encode, size_index_partOfList,
    Bytes.size_zeros]
  omega

/-- **One element more.** Its place in the index is the next one that is still zero, and its block
comes behind all others. -/
theorem partOfList_step (out : Bytes) {done : List Bytes} (few : done.length < n) (block : Bytes) :
    (out ++ partOfList n done).overwrite
        (out.size + countWidth + done.length * positionWidth)
        (BigEndian.encode positionWidth ((out ++ partOfList n done).size - out.size)) ++ block =
      out ++ partOfList n (done ++ [block]) := by
  have position : (out ++ partOfList n done).size - out.size =
      countWidth + n * positionWidth + (Bytes.join done).size := by
    rw [ByteArray.size_append, Nat.add_sub_cancel_left, size_partOfList (Nat.le_of_lt few)]
  -- The first place that is still zero, and what stands on either side of it.
  have room : (n - done.length) * positionWidth =
      positionWidth + (n - (done ++ [block]).length) * positionWidth := by
    have more : n - done.length = n - (done ++ [block]).length + 1 := by
      rw [List.length_append, List.length_singleton]
      omega
    rw [more, Nat.succ_mul, Nat.add_comm]
  let front := out ++ BigEndian.encode countWidth n ++
    Bytes.join ((positions (countWidth + n * positionWidth) done).map
      (BigEndian.encode positionWidth))
  let back := Bytes.zeros ((n - (done ++ [block]).length) * positionWidth) ++ Bytes.join done
  have here : front.size = out.size + countWidth + done.length * positionWidth := by
    simp only [front, ByteArray.size_append, BigEndian.size_encode, size_index_partOfList]
  have before : out ++ partOfList n done = front ++ Bytes.zeros positionWidth ++ back := by
    rw [partOfList, room, Bytes.zeros_add]
    simp only [front, back, ByteArray.append_assoc]
  have after : out ++ partOfList n (done ++ [block]) = front ++ BigEndian.encode positionWidth
      (countWidth + n * positionWidth + (Bytes.join done).size) ++ back ++ block := by
    rw [partOfList, Bytes.positions_append, Bytes.join_append]
    simp [front, back, ByteArray.append_assoc]
  rw [position, before, Bytes.overwrite_append here (by simp), after]

/-! ## What is appended -/

/-- Elements that vary in width are appended behind those that are done. -/
theorem appendElements_eq {append : Bytes → Value → Except CodecError Bytes} (out : Bytes)
    (unfixed : element.isFixed = false) : ∀ (items : List Value) (done : List Bytes),
    (∀ x ∈ items, ∀ out, append out x = (out ++ ·) <$> element.payload x) →
      done.length + items.length = n →
        element.appendElements append out.size
            (out.size + countWidth + done.length * positionWidth) items
            (out ++ partOfList n done) =
          (fun blocks => out ++ partOfList n (done ++ blocks)) <$>
            items.mapM (element.block element.typeText)
  | [], done, _, _ => by
      rw [appendElements, List.mapM_nil, map_pure, List.append_nil]
      rfl
  | x :: rest, done, each, count => by
      obtain ⟨here, tail⟩ := List.forall_mem_cons.mp each
      rw [List.length_cons] at count
      rw [appendElements, List.mapM_cons, Operator.block, unfixed]
      simp only [Bool.false_eq_true, if_false, here, map_bind, bind_assoc, bind_map_left, pure_bind,
        map_pure]
      refine bind_congr fun size => bind_congr fun slot => bind_congr fun p => ?_
      have next := appendElements_eq out unfixed rest (done ++ [slot ++ p]) tail (by simp; omega)
      rw [List.length_append, List.length_singleton, Nat.succ_mul, ← Nat.add_assoc] at next
      rw [ByteArray.append_assoc, partOfList_step out (by omega), next, map_eq_pure_bind]
      simp only [List.append_assoc, List.singleton_append]

/-- Elements of one width are appended one after the other. -/
theorem foldlM_append_eq {append : Bytes → Value → Except CodecError Bytes}
    (fixed : element.isFixed = true) : ∀ (items : List Value) (out : Bytes),
    (∀ x ∈ items, ∀ out, append out x = (out ++ ·) <$> element.payload x) →
      items.foldlM append out =
        (fun blocks => out ++ Bytes.join blocks) <$> items.mapM (element.block element.typeText)
  | [], out, _ => by
      rw [List.foldlM_nil, List.mapM_nil, map_pure, Bytes.join_nil, ByteArray.append_empty]
  | x :: rest, out, each => by
      obtain ⟨here, tail⟩ := List.forall_mem_cons.mp each
      rw [List.foldlM_cons, List.mapM_cons, Operator.block, fixed, here]
      simp only [if_true, map_bind, bind_map_left, map_pure]
      refine bind_congr fun p => ?_
      rw [foldlM_append_eq fixed rest (out ++ p) tail, map_eq_pure_bind]
      simp only [Bytes.join_cons, ByteArray.append_assoc]

/-- The payload of a list, as a traversal of its items. -/
theorem payload_list {maxElements : Nat} (items : List Value) :
    (list element maxElements).payload (.list items) =
      (refuseIf (maxElements < items.length)
        (.limitExceeded .listElements items.length maxElements) >>= fun _ =>
          listOctets element <$> items.mapM (element.block element.typeText)) := by
  rw [payload]
  refine bind_congr fun _ => ?_
  have attached := mapM_attach (element.block element.typeText) items
  simp only [attached]
  cases blocks : items.mapM (element.block element.typeText) with
  | error e => rfl
  | ok bs =>
      rw [(mapM_eq_ok_iff.mp blocks).length_eq]
      rfl

/-- **Appending is writing behind what is there.** -/
theorem appendTo_eq (op : Operator) (out : Bytes) (v : Value) :
    op.appendTo out v = (out ++ ·) <$> op.payload v := by
  match op, v with
  | .list element maxElements, .list items =>
      have each : ∀ x ∈ items, ∀ out, element.appendTo out x = (out ++ ·) <$> element.payload x :=
        fun x _ out => appendTo_eq element out x
      have counted (blocks : List Bytes)
          (h : items.mapM (element.block element.typeText) = .ok blocks) :
          items.length = blocks.length := (mapM_eq_ok_iff.mp h).length_eq
      rw [appendTo, payload_list, map_bind]
      refine bind_congr fun _ => ?_
      by_cases fixed : element.isFixed = true
      · rw [if_pos fixed, foldlM_append_eq fixed items _ each]
        cases blocks : items.mapM (element.block element.typeText) with
        | error e => rfl
        | ok bs =>
            show Except.ok _ = Except.ok _
            rw [listOctets, elementIndex, if_pos fixed, counted bs blocks]
            simp [ByteArray.append_assoc]
      · have unfixed : element.isFixed = false := by simpa using fixed
        have run := appendElements_eq out unfixed items [] each (Nat.zero_add _)
        rw [partOfList_nil, List.length_nil, Nat.zero_mul, Nat.add_zero, ← ByteArray.append_assoc]
          at run
        rw [if_neg fixed, ByteArray.size_append, BigEndian.size_encode, run]
        cases blocks : items.mapM (element.block element.typeText) with
        | error e => rfl
        | ok bs =>
            show Except.ok (out ++ partOfList items.length bs) = Except.ok (out ++ _)
            rw [counted bs blocks, partOfList_length unfixed]
  | .list element maxElements, .scalar s => rfl
  | .list element maxElements, .group r => rfl
  | .fixed .., _ | .string, _ | .binary, _ | .group _, _ =>
      rw [appendTo, map_eq_pure_bind]
      simp

end Operator

end RecordFormat
