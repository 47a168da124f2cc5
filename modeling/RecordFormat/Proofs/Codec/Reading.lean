import Mathlib.Data.List.Nodup
import RecordFormat.Proofs.Buffer.Lookup
import RecordFormat.Proofs.Record.Maps
import RecordFormat.Proofs.Traversal
import RecordFormat.Record.Encoding

/-!
# Reading everything

`decodeAll` gives an ascending map. It has the numbers that are in the index and known to the
codec, and under each of them what its slot reads at the position that the index gives
(`find?_of_decodeAll`). The values of a record are that map, less what is cleared, under what
is staged. What an operator reads of a list or a group is inverted here as well.
-/

namespace RecordFormat

open Outcome

namespace TableCodec

variable {c : TableCodec} {b : RecordBuffer} {m : IdMap Value}

theorem id_of_slot? {id : Int16} {s : Slot} (h : c.slot? id = some s) : s.field.id = id := by
  rw [slot?, List.findRev?_eq_find?_reverse] at h
  have found := List.find?_some h
  exact of_decide_eq_true found

/-- The numbers of the slots, each once. -/
def DistinctIds (c : TableCodec) : Prop := (c.slots.map fun s => s.field.id).Nodup

instance : Decidable c.DistinctIds := inferInstanceAs (Decidable (List.Nodup _))

/-- Where no number stands twice, every slot has its own. -/
theorem slot?_eq_some_iff (distinct : c.DistinctIds) {id : Int16} {s : Slot} :
    c.slot? id = some s ↔ s ∈ c.slots ∧ s.field.id = id := by
  constructor
  · intro h
    exact ⟨mem_of_slot? h, id_of_slot? h⟩
  · rintro ⟨mem, rfl⟩
    cases found : c.slot? s.field.id with
    | none =>
        rw [slot?, List.findRev?_eq_find?_reverse, List.find?_eq_none] at found
        exact absurd (decide_eq_true rfl) (found s (List.mem_reverse.mpr mem))
    | some t =>
        exact congrArg some (List.inj_on_of_nodup_map distinct (mem_of_slot? found) mem
          (id_of_slot? found))

theorem mem_knownEntries {s : Slot} {offset : Nat} :
    (s, offset) ∈ c.knownEntries b ↔
      c.slot? s.field.id = some s ∧ b.locate? s.field.id = some offset := by
  rw [knownEntries, List.mem_filterMap]
  constructor
  · rintro ⟨⟨id, position⟩, mem, known⟩
    rcases Option.map_eq_some_iff.mp known with ⟨t, slot, eq⟩
    cases eq
    obtain rfl := id_of_slot? slot
    exact ⟨slot, RecordBuffer.locate?_eq_some_iff.mpr mem⟩
  · rintro ⟨slot, found⟩
    refine ⟨(s.field.id, offset), RecordBuffer.locate?_eq_some_iff.mp found, ?_⟩
    simp only [slot, Option.map_some]

theorem knownEntries_ascending :
    ((c.knownEntries b).map fun e => e.1.field.id).Pairwise (· < ·) := by
  have entries := RecordBuffer.entries_ascending b
  rw [List.pairwise_map] at entries ⊢
  apply entries.filterMap _
  intro e f lt s hs t ht
  obtain ⟨x, hx, rfl⟩ := Option.map_eq_some_iff.mp hs
  rcases Option.map_eq_some_iff.mp ht with ⟨y, hy, rfl⟩
  simp only [id_of_slot? hx, id_of_slot? hy]
  exact lt

/-- What is read stands in the order of the index. -/
theorem forall₂_of_decodeAll (h : c.decodeAll b = .ok m) :
    List.Forall₂ (fun e x => x.1 = e.1.field.id ∧ e.1.read b e.2 = .ok x.2)
      (c.knownEntries b) m := by
  apply (mapM_eq_ok_iff.mp h).imp
  intro e x hx
  obtain ⟨v, read, eq⟩ := bind_eq_ok_iff.mp hx
  obtain rfl := pure_eq_ok_iff.mp eq
  exact ⟨rfl, mapError_eq_ok_iff.mp read⟩

theorem ids_of_decodeAll (h : c.decodeAll b = .ok m) :
    m.ids = (c.knownEntries b).map fun e => e.1.field.id := by
  have pairs := (forall₂_of_decodeAll h).flip.imp fun x e hx => hx.1
  rw [IdMap.ids, ← List.forall₂_eq_eq_eq, List.forall₂_map_left_iff, List.forall₂_map_right_iff]
  exact pairs

/-- Everything that is read stands in ascending order. -/
theorem sorted_of_decodeAll (h : c.decodeAll b = .ok m) : IdMap.Sorted m := by
  rw [IdMap.sorted_iff, ids_of_decodeAll h]
  exact knownEntries_ascending

/-- **Reading everything reads each field at its entry.** -/
theorem find?_of_decodeAll (h : c.decodeAll b = .ok m) {id : Int16} {v : Value} :
    m.find? id = some v ↔ ∃ s offset, c.slot? id = some s ∧ b.locate? id = some offset ∧
      s.read b offset = .ok v := by
  rw [IdMap.find?_eq_some_iff (sorted_of_decodeAll h).nodup]
  have pairs := forall₂_of_decodeAll h
  constructor
  · intro mem
    obtain ⟨⟨s, offset⟩, known, rfl, read⟩ := exists_left_of_mem pairs mem
    obtain ⟨slot, found⟩ := mem_knownEntries.mp known
    exact ⟨s, offset, slot, found, read⟩
  · rintro ⟨s, offset, slot, found, read⟩
    obtain rfl := id_of_slot? slot
    obtain ⟨⟨id, w⟩, mem, rfl, here⟩ :=
      exists_right_of_mem pairs (mem_knownEntries.mpr ⟨slot, found⟩)
    rw [read] at here
    cases here
    exact mem

/-- The numbers that are read are those in the index that the codec knows. -/
theorem mem_ids_of_decodeAll (h : c.decodeAll b = .ok m) {id : Int16} :
    id ∈ m.ids ↔ (c.slot? id).isSome ∧ id ∈ b.fieldIds := by
  rw [ids_of_decodeAll h, ← RecordBuffer.contains_iff, RecordBuffer.contains, List.mem_map]
  constructor
  · rintro ⟨⟨s, offset⟩, mem, rfl⟩
    obtain ⟨slot, found⟩ := mem_knownEntries.mp mem
    simp only [slot, found, Option.isSome_some, and_self]
  · rintro ⟨slot, found⟩
    rcases Option.isSome_iff_exists.mp slot with ⟨s, hs⟩
    obtain ⟨offset, ho⟩ := Option.isSome_iff_exists.mp found
    obtain rfl := id_of_slot? hs
    exact ⟨(s, offset), mem_knownEntries.mpr ⟨hs, ho⟩, rfl⟩

/-- A buffer can be read when each of its known fields can. -/
theorem exists_decodeAll (h : ∀ id s offset, c.slot? id = some s → b.locate? id = some offset →
    ∃ v, s.read b offset = .ok v) : ∃ m, c.decodeAll b = .ok m := by
  have each : ∀ e ∈ c.knownEntries b, ∃ v, e.1.read b e.2 = .ok v := by
    intro e he
    obtain ⟨slot, found⟩ := mem_knownEntries.mp he
    exact h _ _ _ slot found
  have steps : ∀ e ∈ c.knownEntries b, ∃ x : Int16 × Value,
      (do return (e.1.field.id, ← RecordError.lift (e.1.read b e.2))) = Except.ok x ∧ True := by
      intro e he
      obtain ⟨v, hv⟩ := each e he
      exact ⟨(e.1.field.id, v), by rw [hv]; rfl, trivial⟩
  obtain ⟨m, read, -⟩ := exists_mapM steps
  exact ⟨m, read⟩

/-- What is checked of a buffer before a record reads from it. -/
theorem checkBuffer_eq_ok_iff {u : Unit} :
    c.checkBuffer b = .ok u ↔
      ∀ f ∈ c.table.requiredFields.filter Field.isStored, f.id ∈ b.fieldIds := by
  unfold checkBuffer
  split
  · next f missing =>
    have absent := List.find?_some missing
    simp only [reduceCtorEq, false_iff]
    intro all
    rw [RecordBuffer.contains_iff.mpr (all f (List.mem_of_find?_eq_some missing))] at absent
    cases absent
  · next complete =>
    rw [List.find?_eq_none] at complete
    simp only [true_iff]
    intro f hf
    simpa [RecordBuffer.contains_iff] using complete f hf

/-- A buffer that could be the codec's own: it has known fields only, all that are required, and
is within the limit. -/
structure Owns (c : TableCodec) (b : RecordBuffer) : Prop where
  known : ∀ id ∈ b.fieldIds, (c.slot? id).isSome
  complete : c.checkBuffer b = .ok ()
  small : b.size ≤ c.limits.maxRecordSize

end TableCodec

namespace Record

variable {r : Record} {k m : IdMap Value}

/-- The codec knows every field of the record's buffer. -/
def Closed (r : Record) : Prop :=
  ∀ b, r.buffer = some b → ∀ id ∈ b.fieldIds, (r.codec.slot? id).isSome

/-- A record without changes that reads from a buffer. -/
def backed (codec : TableCodec) (b : RecordBuffer) : Record := { empty codec with buffer := some b }

theorem sorted_of_kept (h : r.kept = .ok k) : IdMap.Sorted k := by
  unfold kept at h
  split at h
  · rcases bind_eq_ok_iff.mp h with ⟨all, hall, eq⟩
    obtain rfl := pure_eq_ok_iff.mp eq
    exact (TableCodec.sorted_of_decodeAll hall).filter
  · cases h
    exact IdMap.sorted_nil

theorem sorted_of_values (h : r.values = .ok m) : IdMap.Sorted m := by
  obtain ⟨k, hk, eq⟩ := bind_eq_ok_iff.mp h
  obtain rfl := pure_eq_ok_iff.mp eq
  exact (sorted_of_kept hk).insertAll

theorem isDirty_eq_false_iff :
    r.isDirty = false ↔ r.buffer.isSome ∧ r.pending = [] ∧ r.cleared = [] := by
  rw [isDirty, Bool.or_eq_false_iff, Bool.or_eq_false_iff, and_assoc]
  simp

/-- A record without changes holds what its buffer holds. -/
theorem values_of_clean {b : RecordBuffer} (buffered : r.buffer = some b)
    (clean : r.isDirty = false) : r.values = r.codec.decodeAll b := by
  obtain ⟨-, pending, cleared⟩ := isDirty_eq_false_iff.mp clean
  simp only [values, kept, isCleared, buffered, pending, cleared, List.contains_nil, Bool.not_false]
  generalize r.codec.decodeAll b = read
  cases read with
  | error e => rfl
  | ok m => exact congrArg Except.ok (List.filter_true m)

@[simp] theorem values_backed (codec : TableCodec) (b : RecordBuffer) :
    (backed codec b).values = codec.decodeAll b :=
  values_of_clean rfl rfl

end Record

/-! ## Lists and groups -/

namespace Operator

variable {bytes : Bytes} {offset length : Nat}

/-- A list is read when its octets are filled and each element is read. -/
theorem decode_list_eq_ok_iff {element : Operator} {maxElements : Nat} {v : Value} :
    (list element maxElements).decode bytes offset length = .ok v ↔ ∃ items, v = .list items ∧
      element.elementCount maxElements bytes offset length = .ok items.length ∧
      element.checkFilled items.length length = .ok () ∧
      ∀ index (h : index < items.length), (do
        let (position, size) ← element.elementSpan bytes offset length items.length index
        element.decode bytes position size) = .ok items[index] := by
  rw [decode, bind_eq_ok_iff]
  simp only [bind_eq_ok_iff (x := element.checkFilled _ _), bind_eq_ok_iff (x := List.mapM _ _),
    mapM_eq_ok_iff, pure_eq_ok_iff]
  constructor
  · rintro ⟨count, counted, _, filled, items, steps, rfl⟩
    have size : count = items.length := by rw [← steps.length_eq, List.length_range]
    subst size
    refine ⟨items, rfl, counted, filled, ?_⟩
    intro index bound
    have here := steps.get (i := index) (by rwa [List.length_range]) bound
    simpa using here
  · rintro ⟨items, rfl, counted, filled, each⟩
    refine ⟨_, counted, (), filled, items, ?_, rfl⟩
    refine List.forall₂_iff_get.mpr ⟨List.length_range, ?_⟩
    intro index _ bound
    simpa using each index bound

/-- A list is read where each of its elements is. -/
theorem exists_decode_list {element : Operator} {maxElements count : Nat}
    {R : Nat → Value → Prop}
    (counted : element.elementCount maxElements bytes offset length = .ok count)
    (filled : element.checkFilled count length = .ok ())
    (each : ∀ index, index < count → ∃ w, (do
      let (position, size) ← element.elementSpan bytes offset length count index
      element.decode bytes position size) = .ok w ∧ R index w) :
    ∃ ws, (list element maxElements).decode bytes offset length = .ok (.list ws) ∧
      ws.length = count ∧ ∀ index (h : index < ws.length), R index ws[index] := by
  obtain ⟨ws, related⟩ :=
    exists_forall₂ fun index (mem : index ∈ List.range count) => each index (List.mem_range.mp mem)
  have size : ws.length = count := by rw [← related.length_eq, List.length_range]
  subst size
  refine ⟨ws, decode_list_eq_ok_iff.mpr ⟨ws, rfl, counted, filled, ?_⟩, rfl, ?_⟩
  · intro index bound
    have here := (related.get (i := index) (by rwa [List.length_range]) bound).1
    simpa using here
  · intro index bound
    have here := (related.get (i := index) (by rwa [List.length_range]) bound).2
    simpa using here

/-- A group is read as a record over a buffer of its octets. -/
theorem decode_group_eq_ok_iff {codec : TableCodec} {v : Value} :
    (group codec).decode bytes offset length = .ok v ↔ ∃ b : RecordBuffer,
      Bytes.slice bytes offset length = .ok b.bytes ∧ b.size ≤ codec.limits.maxRecordSize ∧
        codec.checkBuffer b = .ok () ∧ v = .group (Record.backed codec b) := by
  rw [decode, bind_eq_ok_iff]
  simp only [bind_eq_ok_iff, RecordBuffer.ofBytes_eq_ok_iff, RecordError.nest,
    mapError_eq_ok_iff, Record.ofBuffer, pure_eq_ok_iff]
  constructor
  · rintro ⟨_, slice, b, ⟨small, rfl⟩, _, ⟨_, complete, rfl⟩, rfl⟩
    exact ⟨b, slice, small, complete, rfl⟩
  · rintro ⟨b, slice, small, complete, rfl⟩
    exact ⟨_, slice, b, ⟨small, rfl⟩, _, ⟨(), complete, rfl⟩, rfl⟩

end Operator

end RecordFormat
