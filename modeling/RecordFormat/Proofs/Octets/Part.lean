import Mathlib.Data.List.Forall2
import RecordFormat.Wire.Buffer
import RecordFormat.Record.Encoding

/-!
# Parts of a run of octets

`PartAt bytes offset part` says that `part` stands at `offset` in `bytes`, whatever is before
and after it. Readers are specified by what stands where: a slice or a number that was
written is read back at its place, and the parts of a joined run stand at their `positions`.
-/

namespace RecordFormat

namespace BigEndian

private theorem foldl_lt : ∀ {list : List UInt8} {width start : Nat}, list.length ≤ width →
    list.foldl (fun n b => n * 256 + b.toNat) start < (start + 1) * count width
  | [], width, start, _ => by
      have : ∀ w, 0 < count w := by
        intro w
        induction w with
        | zero => exact Nat.one_pos
        | succ w ih => exact Nat.mul_pos (by decide) ih
      rw [List.foldl_nil]
      calc start < start + 1 := Nat.lt_succ_self _
        _ ≤ (start + 1) * count width := Nat.le_mul_of_pos_right _ (this width)
  | b :: rest, width + 1, start, h => by
      have next := @foldl_lt rest width (start * 256 + b.toNat) (Nat.le_of_succ_le_succ h)
      have small : b.toNat < 256 := b.toNat_lt
      rw [List.foldl_cons]
      apply Nat.lt_of_lt_of_le next
      rw [count, ← Nat.mul_assoc]
      exact Nat.mul_le_mul_right _ (by omega)

/-- A number of at most `width` octets. -/
theorem decode_lt (bytes : Bytes) {width : Nat} (h : bytes.size ≤ width) :
    decode bytes < count width := by
  have := @foldl_lt (octets bytes) width 0 h
  rwa [Nat.zero_add, Nat.one_mul] at this

end BigEndian

namespace Bytes

/-- `part` stands at `offset`. -/
def PartAt (bytes : Bytes) (offset : Nat) (part : Bytes) : Prop :=
  ∃ before after : Bytes, bytes = before ++ part ++ after ∧ before.size = offset

theorem partAt_append (before part after : Bytes) :
    PartAt (before ++ part ++ after) before.size part :=
  ⟨before, after, rfl, rfl⟩

theorem partAt_self (bytes : Bytes) : PartAt bytes 0 bytes :=
  ⟨.empty, .empty, by simp, rfl⟩

theorem partAt_right (front back : Bytes) : PartAt (front ++ back) front.size back :=
  ⟨front, .empty, by simp, rfl⟩

/-- Any octets of a run are a part of it. -/
theorem partAt_extract {bytes : Bytes} {offset length : Nat}
    (inside : offset + length ≤ bytes.size) :
    PartAt bytes offset (bytes.extract offset (offset + length)) ∧
      (bytes.extract offset (offset + length)).size = length := by
  refine ⟨⟨bytes.extract 0 offset, bytes.extract (offset + length) bytes.size, ?_, ?_⟩, ?_⟩
  · have rest : octets bytes = (octets bytes).take offset ++
        (((octets bytes).drop offset).take length ++ (octets bytes).drop (offset + length)) := by
      rw [← List.drop_drop, List.take_append_drop, List.take_append_drop]
    have whole : ((octets bytes).drop (offset + length)).take (bytes.size - (offset + length)) =
        (octets bytes).drop (offset + length) :=
      List.take_of_length_le (by simp)
    rw [← octets_inj, octets_append, octets_append, octets_extract, octets_extract,
      octets_extract, whole, List.drop_zero, Nat.sub_zero, Nat.add_sub_cancel_left,
      List.append_assoc]
    exact rest
  · rw [ByteArray.size_extract]
    omega
  · rw [ByteArray.size_extract]
    omega

theorem partAt_of_slice {bytes part : Bytes} {offset length : Nat}
    (h : slice bytes offset length = .ok part) : PartAt bytes offset part ∧ part.size = length := by
  obtain ⟨inside, rfl⟩ := slice_eq_ok_iff.mp h
  exact partAt_extract inside

namespace PartAt

variable {bytes part sub front back : Bytes} {offset inner : Nat}

theorem size_le (h : PartAt bytes offset part) : offset + part.size ≤ bytes.size := by
  obtain ⟨before, after, rfl, rfl⟩ := h
  simp only [ByteArray.size_append]
  omega

/-- A part of a part is a part of the whole. -/
theorem trans (h : PartAt bytes offset part) (hi : PartAt part inner sub) :
    PartAt bytes (offset + inner) sub := by
  obtain ⟨before, after, rfl, rfl⟩ := h
  obtain ⟨lead, trail, rfl, rfl⟩ := hi
  refine ⟨before ++ lead, trail ++ after, ?_, ?_⟩
  · simp only [ByteArray.append_assoc]
  · exact ByteArray.size_append

theorem left (h : PartAt bytes offset (front ++ back)) : PartAt bytes offset front := by
  obtain ⟨before, after, rfl, rfl⟩ := h
  exact ⟨before, back ++ after, by simp only [ByteArray.append_assoc], rfl⟩

theorem right (h : PartAt bytes offset (front ++ back)) :
    PartAt bytes (offset + front.size) back :=
  h.trans (partAt_right front back)

/-- What the octets from `offset` on are. -/
theorem extract_eq (h : PartAt bytes offset part) :
    bytes.extract offset (offset + part.size) = part := by
  obtain ⟨before, after, rfl, rfl⟩ := h
  exact (slice_eq_ok_iff.mp (slice_append before part after)).2.symm

theorem slice_eq (h : PartAt bytes offset part) : slice bytes offset part.size = .ok part :=
  slice_eq_ok_iff.mpr ⟨h.size_le, h.extract_eq.symm⟩

/-- Whatever is inside a part is read of it as of the whole. -/
theorem slice_inner {n : Nat} (h : PartAt bytes offset part) (inside : inner + n ≤ part.size) :
    slice bytes (offset + inner) n = slice part inner n := by
  obtain ⟨own, size⟩ := partAt_extract inside
  have here := (h.trans own).slice_eq
  have there := own.slice_eq
  rw [size] at here there
  rw [here, there]

theorem number_inner {width : Nat} (h : PartAt bytes offset part)
    (inside : inner + width ≤ part.size) :
    number bytes (offset + inner) width = number part inner width := by
  rw [number, h.slice_inner inside, number]

theorem numberAt_eq {width n : Nat} (h : PartAt bytes offset (BigEndian.encode width n))
    (fits : n < BigEndian.count width) : RecordBuffer.numberAt bytes offset width = n := by
  have part := h.extract_eq
  rw [BigEndian.size_encode] at part
  rw [RecordBuffer.numberAt, part, BigEndian.decode_encode, Nat.mod_eq_of_lt fits]

theorem number_eq {width n : Nat} (h : PartAt bytes offset (BigEndian.encode width n))
    (fits : n < BigEndian.count width) : number bytes offset width = .ok n := by
  have part := h.slice_eq
  rw [BigEndian.size_encode] at part
  rw [number, part]
  exact congrArg _ ((BigEndian.decode_encode width n).trans (Nat.mod_eq_of_lt fits))

end PartAt

/-! ## Joined runs -/

/-- The parts of a joined run stand one after the other. -/
theorem PartAt.join {bytes : Bytes} : ∀ {parts : List Bytes} {start : Nat},
    PartAt bytes start (Bytes.join parts) →
      List.Forall₂ (PartAt bytes) (positions start parts) parts
  | [], _, _ => by simp
  | part :: rest, start, h => by
      rw [join_cons] at h
      rw [positions_cons]
      exact .cons h.left h.right.join

@[simp] theorem length_positions : ∀ (start : Nat) (parts : List Bytes),
    (positions start parts).length = parts.length
  | _, [] => rfl
  | start, part :: rest => by
      rw [positions_cons, List.length_cons, List.length_cons, length_positions]

/-- More parts follow where the first ones end. -/
theorem positions_append : ∀ (start : Nat) (first second : List Bytes),
    positions start (first ++ second) =
      positions start first ++ positions (start + (Bytes.join first).size) second
  | _, [], _ => rfl
  | start, part :: rest, second => by
      rw [List.cons_append, positions_cons, positions_cons, positions_append, join_cons,
        ByteArray.size_append, Nat.add_assoc, List.cons_append]

/-- Parts of one width stand at multiples of it. -/
theorem getElem?_positions {width : Nat} : ∀ {parts : List Bytes} {start index : Nat},
    (∀ part ∈ parts, part.size = width) → index < parts.length →
      (positions start parts)[index]? = some (start + index * width)
  | [], _, _, _, h => absurd h (Nat.not_lt_zero _)
  | part :: rest, start, 0, _, _ => by
      rw [positions_cons]
      simp
  | part :: rest, start, index + 1, widths, h => by
      rw [positions_cons, List.getElem?_cons_succ, widths part (List.mem_cons_self ..),
        getElem?_positions (fun p hp => widths p (List.mem_cons_of_mem _ hp))
          (Nat.lt_of_succ_lt_succ h), Nat.succ_mul]
      congr 1
      omega

theorem size_join : ∀ (parts : List Bytes),
    (Bytes.join parts).size = total (parts.map ByteArray.size)
  | [] => rfl
  | part :: rest => by
      rw [join_cons, ByteArray.size_append, size_join rest]
      rfl

theorem size_join_of_width {width : Nat} : ∀ {parts : List Bytes},
    (∀ part ∈ parts, part.size = width) → (Bytes.join parts).size = parts.length * width
  | [], _ => by simp
  | part :: rest, widths => by
      rw [join_cons, ByteArray.size_append, widths part (List.mem_cons_self ..),
        size_join_of_width fun p hp => widths p (List.mem_cons_of_mem _ hp), List.length_cons,
        Nat.succ_mul, Nat.add_comm]

/-- Every part stands between the start and the end of the joined run. -/
theorem mem_positions_le {p : Nat} {part : Bytes} : ∀ {parts : List Bytes} {start : Nat},
    (p, part) ∈ (positions start parts).zip parts →
      start ≤ p ∧ p + part.size ≤ start + (Bytes.join parts).size
  | first :: rest, start, h => by
      rw [positions_cons, List.zip_cons_cons, List.mem_cons] at h
      rw [join_cons, ByteArray.size_append]
      rcases h with h | h
      · cases h
        omega
      · have := mem_positions_le h
        omega

end Bytes

end RecordFormat
