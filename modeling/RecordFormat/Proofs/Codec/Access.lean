import RecordFormat.Proofs.Codec.Fields
import RecordFormat.Proofs.Registry.RoundTrip

/-!
# Random access

A buffer is only known to have a consistent index. Its payloads may be cut off, overlap or be
nonsense, so that some of its fields can be read and others cannot. Whatever the octets are, the
halving search with one read (`readField`) and the walk along the index (`decodeAll`) meet the
same slots at the same positions: a field's own octets decide what reading it gives
(`readField_eq`), and everything can be read exactly when each stored field can.
-/

namespace RecordFormat

open Outcome

namespace Operator

variable {bytes : Bytes} {offset length : Nat} {items : List Value}

/-- Only a list operator reads lists. -/
theorem exists_of_decode_list {op : Operator}
    (h : op.decode bytes offset length = .ok (.list items)) :
    ∃ element maxElements, op = .list element maxElements := by
  cases op with
  | list element maxElements => exact ⟨element, maxElements, rfl⟩
  | group codec =>
      obtain ⟨_, -, -, -, eq⟩ := decode_group_eq_ok_iff.mp h
      cases eq
  | fixed kind limit =>
      rw [decode] at h
      obtain ⟨_, -, h⟩ := bind_eq_ok_iff.mp h
      obtain ⟨_, -, h⟩ := bind_eq_ok_iff.mp h
      cases pure_eq_ok_iff.mp h
  | string =>
      rw [decode] at h
      obtain ⟨_, -, h⟩ := bind_eq_ok_iff.mp h
      split at h
      · cases pure_eq_ok_iff.mp h
      · exact absurd h throw_ne_ok
  | binary =>
      rw [decode] at h
      obtain ⟨_, -, h⟩ := bind_eq_ok_iff.mp h
      cases pure_eq_ok_iff.mp h

end Operator

namespace TableCodec

variable {c : TableCodec} {b : RecordBuffer} {f : Field}

theorem Compiled.covers {limits : Limits} {T : Table → Prop} (h : c.Compiled limits T)
    (distinct : (c.table.storedFields.map Field.id).Nodup) : c.Covers where
  slot f hf := by
    obtain ⟨s, hs, rfl⟩ := h.exists_slot hf
    exact ⟨s, (slot?_eq_some_iff (h.distinctIds distinct)).mpr ⟨hs, rfl⟩, rfl⟩
  field id s slot := h.field_mem (mem_of_slot? slot)

/-! ## One field -/

/-- A field that the index does not have reads as nothing, whatever the payloads are. -/
theorem readField_of_absent (covers : c.Covers) (hf : f ∈ c.table.storedFields)
    (absent : b.locate? f.id = none) : c.readField b f = .ok none := by
  obtain ⟨s, -, -, own⟩ := covers.storedSlot hf
  rw [readField, own, absent]
  rfl

/-- A field that the index has reads as its own octets do. -/
theorem readField_of_entry (covers : c.Covers) (hf : f ∈ c.table.storedFields) {s : Slot}
    {offset : Nat} (slot : c.slot? f.id = some s) (found : b.locate? f.id = some offset) :
    c.readField b f = some <$> RecordError.lift (s.read b offset) := by
  obtain ⟨t, known, -, own⟩ := covers.storedSlot hf
  obtain rfl : s = t := Option.some.inj (slot.symm.trans known)
  rw [readField, own, found]
  rfl

/-- **What is read of one field** is read at its entry. -/
theorem readField_eq_some_iff (covers : c.Covers) (hf : f ∈ c.table.storedFields) {v : Value} :
    c.readField b f = .ok (some v) ↔ ∃ s offset, c.slot? f.id = some s ∧
      b.locate? f.id = some offset ∧ s.read b offset = .ok v := by
  obtain ⟨s, slot, -⟩ := covers.slot f hf
  cases found : b.locate? f.id with
  | none => simp [readField_of_absent covers hf found]
  | some offset =>
      rw [readField_of_entry covers hf slot found, map_eq_ok_iff]
      simp [RecordError.lift, mapError_eq_ok_iff, slot]

/-- **Absence is exact.** Nothing is read just where the index has no entry. -/
theorem readField_eq_none_iff (covers : c.Covers) (hf : f ∈ c.table.storedFields) :
    c.readField b f = .ok none ↔ b.contains f.id = false := by
  obtain ⟨s, slot, -⟩ := covers.slot f hf
  rw [RecordBuffer.contains, Option.isSome_eq_false_iff, Option.isNone_iff_eq_none]
  cases found : b.locate? f.id with
  | none => simp [readField_of_absent covers hf found]
  | some offset =>
      rw [readField_of_entry covers hf slot found, map_eq_ok_iff]
      simp

/-! ## All fields -/

theorem find?_eq_some_iff_readField (covers : c.Covers) {m : IdMap Value}
    (decoded : c.decodeAll b = .ok m) {id : Int16} {v : Value} :
    m.find? id = some v ↔
      ∃ f ∈ c.table.storedFields, f.id = id ∧ c.readField b f = .ok (some v) := by
  rw [find?_of_decodeAll decoded]
  constructor
  · rintro ⟨s, offset, slot, found, read⟩
    have hf := covers.field id s slot
    obtain rfl := id_of_slot? slot
    exact ⟨s.field, hf, rfl, (readField_eq_some_iff covers hf).mpr ⟨s, offset, slot, found, read⟩⟩
  · rintro ⟨f, hf, rfl, read⟩
    exact (readField_eq_some_iff covers hf).mp read

/-- **Everything can be read when each stored field can.** -/
theorem exists_decodeAll_iff (covers : c.Covers) : (∃ m, c.decodeAll b = .ok m) ↔
    ∀ f ∈ c.table.storedFields, ∃ o, c.readField b f = .ok o := by
  constructor
  · rintro ⟨m, decoded⟩ f hf
    exact ⟨_, readField_eq covers decoded hf⟩
  · intro each
    apply exists_decodeAll
    intro id s offset slot found
    obtain rfl := id_of_slot? slot
    have hf := covers.field s.field.id s slot
    obtain ⟨o, read⟩ := each s.field hf
    rw [readField_of_entry covers hf slot found] at read
    obtain ⟨v, read, -⟩ := map_eq_ok_iff.mp read
    exact ⟨v, mapError_eq_ok_iff.mp read⟩

/-! ## Lists -/

/-- Where a field reads as a list, its octets are those of the list. -/
theorem listSpan_of_readField (covers : c.Covers) (hf : f ∈ c.table.storedFields)
    {items : List Value} (read : c.readField b f = .ok (some (.list items))) :
    ∃ element maxElements start length,
      c.listSpan b f = .ok (some (element, maxElements, start, length)) ∧
        (Operator.list element maxElements).decode b.bytes start length = .ok (.list items) := by
  obtain ⟨s, slot, -, own⟩ := covers.storedSlot hf
  obtain ⟨t, offset, known, found, read⟩ := (readField_eq_some_iff covers hf).mp read
  obtain rfl : s = t := Option.some.inj (slot.symm.trans known)
  obtain ⟨⟨start, length⟩, span, inside⟩ := bind_eq_ok_iff.mp read
  obtain ⟨element, maxElements, op⟩ := Operator.exists_of_decode_list inside
  rw [op] at inside
  refine ⟨element, maxElements, start, length, ?_, inside⟩
  rw [listSpan, own]
  simp only [ok_bind, op, found, span]
  rfl

theorem listSize_of_readField (covers : c.Covers) (hf : f ∈ c.table.storedFields)
    {items : List Value} (read : c.readField b f = .ok (some (.list items))) :
    c.listSize b f = .ok (some items.length) := by
  obtain ⟨_, _, _, _, span, decoded⟩ := listSpan_of_readField covers hf read
  obtain ⟨_, eq, counted, -⟩ := Operator.of_decode_list decoded
  cases eq
  rw [listSize, span]
  simp only [ok_bind, counted]
  rfl

theorem listElement_of_readField (covers : c.Covers) (hf : f ∈ c.table.storedFields)
    {items : List Value} (read : c.readField b f = .ok (some (.list items))) (index : Nat) :
    c.listElement b f index = match items[index]? with
      | some v => .ok (some v)
      | none => .error (.indexOutOfRange f.name index items.length) := by
  obtain ⟨_, _, _, _, span, decoded⟩ := listSpan_of_readField covers hf read
  obtain ⟨_, eq, counted, each⟩ := Operator.of_decode_list decoded
  cases eq
  rw [listElement, span]
  simp only [ok_bind, counted, RecordError.lift, Except.mapError]
  by_cases inside : index < items.length
  · rw [refuseIf, if_neg (by omega), List.getElem?_eq_getElem inside, each index inside]
    rfl
  · rw [refuseIf, if_pos (by omega), List.getElem?_eq_none (by omega)]
    rfl

/-! ## Agreement -/

/-- All ways of reading the buffer agree. -/
structure Coherent (c : TableCodec) (b : RecordBuffer) : Prop where
  whole : (∃ m, c.decodeAll b = .ok m) ↔
    ∀ f ∈ c.table.storedFields, ∃ o, c.readField b f = .ok o
  values : ∀ m, c.decodeAll b = .ok m → IdMap.Sorted m ∧ ∀ id v, m.find? id = some v ↔
    ∃ f ∈ c.table.storedFields, f.id = id ∧ c.readField b f = .ok (some v)
  absent : ∀ f ∈ c.table.storedFields,
    (c.readField b f = .ok none ↔ b.contains f.id = false)
  size : ∀ f ∈ c.table.storedFields, ∀ items,
    c.readField b f = .ok (some (.list items)) → c.listSize b f = .ok (some items.length)
  element : ∀ f ∈ c.table.storedFields, ∀ items,
    c.readField b f = .ok (some (.list items)) → ∀ index, c.listElement b f index =
      match items[index]? with
      | some v => .ok (some v)
      | none => .error (.indexOutOfRange f.name index items.length)

/-- **Random access agrees with reading everything**, on every buffer that is accepted. -/
theorem coherent_of_givesCodec {limits : Limits} {t : Table}
    (given : Registry.GivesCodec limits (fun _ => True) t c)
    (distinct : (c.table.storedFields.map Field.id).Nodup) (b : RecordBuffer) : c.Coherent b := by
  have covers := (given.compiled nestedIn_true).inside.here.covers distinct
  exact
    { whole := exists_decodeAll_iff covers
      values := fun m decoded =>
        ⟨sorted_of_decodeAll decoded, fun id v => find?_eq_some_iff_readField covers decoded⟩
      absent := fun f hf => readField_eq_none_iff covers hf
      size := fun f hf items read => listSize_of_readField covers hf read
      element := fun f hf items read => listElement_of_readField covers hf read }

end TableCodec

namespace Household

/-- The octets of a person. All there is of the age, which takes four, is the last one. -/
def damaged : RecordBuffer where
  bytes := [0, 0, 0, 66, 0, 1, 0, 3, 0, 1, 0, 0, 0, 26, 0, 2, 0, 0, 0, 65, 0, 3, 0, 0, 0, 48,
    0, 0, 0, 18, 0, 0, 0, 18, 0, 1, 0, 1, 0, 1, 0, 0, 0, 14, 0, 1, 37, 3,
    0, 0, 0, 13, 0, 0, 0, 1, 0, 0, 0, 8, 0, 3, 65, 110, 110,
    7].toByteArray
  consistent := by decide +kernel

/-- A person that cannot be read as a whole. -/
theorem coherent_damaged : (person.storedFields.map Field.id).Nodup ∧
    personCodec.Coherent damaged := by
  have distinct : (person.storedFields.map Field.id).Nodup := by decide
  exact ⟨distinct, TableCodec.coherent_of_givesCodec (givesCodec_person trivial) distinct damaged⟩

/-- The names of the damaged person can be counted all the same. -/
example : (personCodec.decodeAll damaged).isOk = false ∧
    (personCodec.listSize damaged names).toOption = some (some 1) := by
  decide +kernel

end Household

end RecordFormat
