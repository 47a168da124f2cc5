import RecordFormat.Proofs.Codec.Reading
import RecordFormat.Proofs.Schema.Tables
import RecordFormat.Record.Access

/-!
# One field and all fields

Reading one field looks at that field's octets only, and so do the length of a list and one of
its elements. What they give is what reading everything gives under the field's number.
-/

namespace RecordFormat

open Outcome

namespace Operator

/-- What is read of a whole list is what is read of each element. -/
theorem of_decode_list {element : Operator} {maxElements offset length : Nat} {bytes : Bytes}
    {v : Value} (decoded : (list element maxElements).decode bytes offset length = .ok v) :
    ∃ items, v = .list items ∧
      element.elementCount maxElements bytes offset length = .ok items.length ∧
      ∀ index (h : index < items.length),
        element.decodeElement maxElements bytes offset length index = .ok items[index] := by
  rcases decode_list_eq_ok_iff.mp decoded with ⟨items, rfl, counted, -, each⟩
  refine ⟨items, rfl, counted, ?_⟩
  intro index bound
  rw [decodeElement]
  exact bind_eq_ok_iff.mpr ⟨_, counted, each index bound⟩

end Operator

namespace TableCodec

/-- The table finds its own fields, and each stored one, but no other field, has a slot, of its
type. Lists have no default. -/
structure Serves (c : TableCodec) : Prop where
  resolves : ∀ f ∈ c.table.fields, c.table.resolve? f = some f
  stored : ∀ s ∈ c.slots, s.field ∈ c.table.storedFields
  slot : ∀ f ∈ c.table.storedFields, ∃ s, c.slot? f.id = some s ∧ s.field = f ∧
    s.operator.type.detach = f.type.detach
  plain : ∀ f ∈ c.table.fields, f.type.isList = true → f.default = none

variable {c : TableCodec} {b : RecordBuffer} {n : IdMap Value} {f : Field}

theorem isDerived_of_mem_storedFields (hf : f ∈ c.table.storedFields) : f.isDerived = false :=
  (Table.mem_storedFields.mp hf).2

/-- Stored fields have slots of their own, so they have numbers of their own. -/
theorem Serves.eq_of_id {g : Field} (serves : c.Serves) (hf : f ∈ c.table.storedFields)
    (hg : g ∈ c.table.storedFields) (same : f.id = g.id) : f = g := by
  obtain ⟨s, slot, rfl, -⟩ := serves.slot f hf
  obtain ⟨t, slot', rfl, -⟩ := serves.slot g hg
  rw [same, slot', Option.some.injEq] at slot
  rw [slot]

/-- Each stored field of the table has the slot under its number, and no other field has one. -/
structure Covers (c : TableCodec) : Prop where
  slot : ∀ f ∈ c.table.storedFields, ∃ s, c.slot? f.id = some s ∧ s.field = f
  field : ∀ id s, c.slot? id = some s → s.field ∈ c.table.storedFields

theorem Serves.covers (serves : c.Serves) : c.Covers where
  slot f hf := by
    obtain ⟨s, slot, own, -⟩ := serves.slot f hf
    exact ⟨s, slot, own⟩
  field id s slot := serves.stored s (mem_of_slot? slot)

theorem Covers.storedSlot (covers : c.Covers) (hf : f ∈ c.table.storedFields) :
    ∃ s, c.slot? f.id = some s ∧ s.field = f ∧ c.storedSlot f = .ok s := by
  obtain ⟨s, slot, rfl⟩ := covers.slot f hf
  refine ⟨s, slot, rfl, ?_⟩
  rw [TableCodec.storedSlot, isDerived_of_mem_storedFields hf, slot]
  simp [Option.filter]

theorem Serves.storedSlot (serves : c.Serves) (hf : f ∈ c.table.storedFields) :
    ∃ s, c.slot? f.id = some s ∧ c.storedSlot f = .ok s ∧
      s.operator.type.detach = f.type.detach := by
  obtain ⟨s, slot, -, own⟩ := serves.covers.storedSlot hf
  obtain ⟨t, known, -, type⟩ := serves.slot f hf
  obtain rfl : s = t := Option.some.inj (slot.symm.trans known)
  exact ⟨s, slot, own, type⟩

/-- The operator of a list field is one of lists. -/
theorem exists_list_of_type {op : Operator} {type : FieldType} (same : op.type.detach = type.detach)
    (isList : type.isList = true) : ∃ element maxElements, op = .list element maxElements := by
  cases type with
  | list =>
      cases op with
      | list element maxElements => exact ⟨element, maxElements, rfl⟩
      | fixed | string | binary | group => simp [Operator.type, FieldType.detach] at same
  | primitive | unbound | bound => cases isList

/-- What an entry of the index is read as. -/
theorem exists_of_locate? (decoded : c.decodeAll b = .ok n) {id : Int16} {s : Slot} {offset : Nat}
    (slot : c.slot? id = some s) (found : b.locate? id = some offset) :
    ∃ v, n.find? id = some v ∧ s.read b offset = .ok v := by
  have present : id ∈ n.ids := by
    rw [mem_ids_of_decodeAll decoded, slot, ← RecordBuffer.contains_iff, RecordBuffer.contains,
      found]
    exact ⟨rfl, rfl⟩
  obtain ⟨v, value⟩ := IdMap.exists_of_mem_ids present
  obtain ⟨s', offset', slot', found', read⟩ := (find?_of_decodeAll decoded).mp value
  rw [slot, Option.some.injEq] at slot'
  rw [found, Option.some.injEq] at found'
  subst slot' found'
  exact ⟨v, value, read⟩

theorem find?_eq_none_of_locate? (decoded : c.decodeAll b = .ok n) {id : Int16}
    (absent : b.locate? id = none) : n.find? id = none := by
  rw [IdMap.find?_eq_none_iff, mem_ids_of_decodeAll decoded]
  rintro ⟨-, present⟩
  exact RecordBuffer.locate?_eq_none_iff.mp absent present

/-- **Reading one field** gives what reading everything gives. -/
theorem readField_eq (covers : c.Covers) (decoded : c.decodeAll b = .ok n)
    (hf : f ∈ c.table.storedFields) : c.readField b f = .ok (n.find? f.id) := by
  obtain ⟨s, slot, -, own⟩ := covers.storedSlot hf
  rw [readField, own]
  cases found : b.locate? f.id with
  | none =>
      rw [find?_eq_none_of_locate? decoded found]
      simp only [bind, Except.bind]
      rfl
  | some offset =>
      obtain ⟨v, value, read⟩ := exists_of_locate? decoded slot found
      simp only [bind, Except.bind, value, read]
      rfl

/-- Reading one of the codec's own fields fails only for what its octets are. -/
theorem Covers.exists_cause {e : RecordError} (covers : c.Covers) (hf : f ∈ c.table.storedFields)
    (failed : c.readField b f = .error e) : ∃ cause, e = .codec cause := by
  obtain ⟨s, -, -, own⟩ := covers.storedSlot hf
  rw [readField, own, ok_bind] at failed
  cases found : b.locate? f.id with
  | none =>
      rw [found] at failed
      cases failed
  | some offset =>
      rw [found] at failed
      dsimp only at failed
      cases read : s.read b offset with
      | ok v =>
          rw [read] at failed
          cases failed
      | error cause =>
          rw [read] at failed
          cases failed
          exact ⟨cause, rfl⟩

/-- The octets of a list that is in the buffer. -/
theorem listSpan_cases (serves : c.Serves) (decoded : c.decodeAll b = .ok n)
    (hf : f ∈ c.table.storedFields) (isList : f.type.isList = true) :
    (n.find? f.id = none ∧ c.listSpan b f = .ok none) ∨
      ∃ element maxElements start length v, n.find? f.id = some v ∧
        c.listSpan b f = .ok (some (element, maxElements, start, length)) ∧
        (Operator.list element maxElements).decode b.bytes start length = .ok v := by
  obtain ⟨s, slot, own, type⟩ := serves.storedSlot hf
  obtain ⟨element, maxElements, op⟩ := exists_list_of_type type isList
  rw [listSpan, own]
  simp only [bind, Except.bind, op]
  cases found : b.locate? f.id with
  | none => exact .inl ⟨find?_eq_none_of_locate? decoded found, rfl⟩
  | some offset =>
      obtain ⟨v, value, read⟩ := exists_of_locate? decoded slot found
      obtain ⟨⟨start, length⟩, span, inside⟩ := bind_eq_ok_iff.mp read
      rw [op] at inside
      refine .inr ⟨element, maxElements, start, length, v, value, ?_, inside⟩
      simp only [span]
      rfl

/-- **The length of a list** is that of the list that reading everything gives. -/
theorem listSize_eq (serves : c.Serves) (decoded : c.decodeAll b = .ok n)
    (hf : f ∈ c.table.storedFields) (isList : f.type.isList = true) :
    c.listSize b f = .ok ((n.find? f.id).map fun v => (v.asList?.getD []).length) := by
  rw [listSize]
  rcases listSpan_cases serves decoded hf isList with
    ⟨absent, span⟩ | ⟨_, _, _, _, v, value, span, read⟩
  · rw [absent, span]
    rfl
  · obtain ⟨items, rfl, counted, -⟩ := Operator.of_decode_list read
    rw [value, span]
    simp only [bind, Except.bind, counted]
    rfl

/-- **An element of a list** is that of the list that reading everything gives. -/
theorem listElement_eq (serves : c.Serves) (decoded : c.decodeAll b = .ok n)
    (hf : f ∈ c.table.storedFields) (isList : f.type.isList = true) (index : Nat) :
    c.listElement b f index = match n.find? f.id with
      | some v => some <$> Record.itemAt f (v.asList?.getD []) index
      | none => .ok none := by
  rw [listElement]
  rcases listSpan_cases serves decoded hf isList with
    ⟨absent, span⟩ | ⟨_, _, _, _, v, value, span, read⟩
  · rw [absent, span]
    rfl
  · obtain ⟨items, rfl, counted, each⟩ := Operator.of_decode_list read
    rw [value, span]
    simp only [bind, Except.bind, counted, RecordError.lift, Except.mapError, Value.asList?,
      Option.getD_some, Record.itemAt]
    by_cases inside : index < items.length
    · rw [List.getElem?_eq_getElem inside, each index inside, refuseIf, if_neg (by omega)]
    · rw [List.getElem?_eq_none (by omega), refuseIf, if_pos (by omega)]
      rfl

end TableCodec

end RecordFormat
