import Mathlib
import RecordFormat.Proofs.Codec.Rewriting
import RecordFormat.Proofs.Record.PartialMap

/-!
# Editing what was read

A record over octets from elsewhere may be readable and yet not be writable, and then it cannot
be edited either: `finish` writes every value anew. The two reasons are those of single values,
floating point numbers that are never written and octets that several values share
(`Household.not_encode_of_values`). There is no third (`Record.rewritable_of_ofBytes`).
-/

namespace RecordFormat

open Outcome

namespace Slot

variable {s : Slot} {b : RecordBuffer} {offset start length : Nat}

/-- A payload stands right behind its length slot and in the buffer. -/
theorem span_bounds (h : s.span b offset = .ok (start, length)) :
    start = offset + s.operator.lengthWidth ∧ start + length ≤ b.size ∧
      (s.operator.width? = none → length ≤ BigEndian.maximum s.operator.lengthWidth) := by
  unfold span at h
  cases width : s.operator.width? with
  | some w =>
      rw [width] at h
      obtain ⟨p, sliced, eq⟩ := bind_eq_ok_iff.mp h
      cases pure_eq_ok_iff.mp eq
      have fixed : s.operator.isFixed = true := by simp [Operator.isFixed, width]
      rw [Operator.lengthWidth_of_isFixed fixed]
      exact ⟨rfl, (Bytes.slice_eq_ok_iff.mp sliced).1, by simp⟩
  | none =>
      rw [width] at h
      obtain ⟨n, read, h⟩ := bind_eq_ok_iff.mp h
      obtain ⟨_, inside, eq⟩ := bind_eq_ok_iff.mp h
      rw [refuseIf_eq_ok_iff, Nat.not_lt] at inside
      cases pure_eq_ok_iff.mp eq
      exact ⟨rfl, inside, fun _ => Operator.le_maximum_of_number read⟩

end Slot

namespace TableCodec

variable {limit : Nat} {c : TableCodec} {b : RecordBuffer} {m m' : IdMap Value}
  {cs ds : List (Slot × Value)}

/-- The floating point numbers of all values are such as are written. -/
def FloatsWithin (c : TableCodec) (m : IdMap Value) : Prop :=
  ∀ s ∈ c.slots, ∀ v, m.find? s.field.id = some v → s.operator.FloatsWithin v

/-- No two fields that the codec knows share octets, slots of lengths included, and no two
elements of a list do. -/
structure Separate (c : TableCodec) (b : RecordBuffer) : Prop where
  fields : ∀ s t offset position a e, (s, offset) ∈ c.knownEntries b →
    (t, position) ∈ c.knownEntries b → s.field.id ≠ t.field.id → s.span b offset = .ok a →
      t.span b position = .ok e → Beside (offset, a.1 + a.2) (position, e.1 + e.2)
  inside : ∀ s offset a, (s, offset) ∈ c.knownEntries b → s.span b offset = .ok a →
    s.operator.Separate b.bytes a.1 a.2

/-! ## What stands in a buffer -/

/-- A part of a buffer: where its data and its payload are, and in how many octets the value
would be written. -/
structure Part where
  offset : Nat
  span : Nat × Nat
  length : Nat

/-- The part that a value was read from. -/
structure Part.Of (c : TableCodec) (b : RecordBuffer) (e : Slot × Value) (x : Part) : Prop where
  known : (e.1, x.offset) ∈ c.knownEntries b
  found : e.1.span b x.offset = .ok x.span
  rewrites : e.1.operator.Rewrites e.2 x.length
  short : e.1.operator.Separate b.bytes x.span.1 x.span.2 → x.length ≤ x.span.2

/-- The octets of a part, with the slot of its length. -/
def Part.region (x : Part) : Nat × Nat := (x.offset, x.span.1 + x.span.2)

theorem exists_parts (distinct : c.DistinctIds) (made : c.Everywhere fun d => d.table.Made)
    (decoded : c.decodeAll b = .ok m) :
    ∃ xs, List.Forall₂ (Part.Of c b) (c.filled m) xs := by
  apply exists_forall₂
  rintro ⟨s, v⟩ mem
  obtain ⟨hs, value⟩ := mem_filled.mp mem
  obtain ⟨t, offset, slot, located, read⟩ := (find?_of_decodeAll decoded).mp value
  rw [(slot?_eq_some_iff distinct).mpr ⟨hs, rfl⟩, Option.some.injEq] at slot
  subst slot
  obtain ⟨span, found, inside⟩ := bind_eq_ok_iff.mp read
  obtain ⟨k, rewrites, short⟩ := s.operator.exists_rewrites (made.slot hs) inside
    (Slot.span_bounds found).2.2
  refine ⟨⟨offset, span, k⟩, mem_knownEntries.mpr ⟨?_, located⟩, found, rewrites, short⟩
  exact (slot?_eq_some_iff distinct).mpr ⟨hs, rfl⟩

/-- What is announced of contents of known lengths. -/
def lengthWith (cs : List (Slot × Value)) (lengths : List Nat) : Nat :=
  RecordBuffer.headerLength +
    total (cs.map fun e => RecordBuffer.entryLength + e.1.operator.lengthWidth) + total lengths

variable {xs : List Part}

/-- Parts of different fields are beside one another. -/
theorem pairwise_parts (separate : c.Separate b) : ∀ {cs : List (Slot × Value)} {xs : List Part},
    List.Forall₂ (Part.Of c b) cs xs → (cs.map fun e => e.1.field.id).Nodup →
      (xs.map Part.region).Pairwise Beside
  | _, _, .nil, _ => .nil
  | e :: _, x :: _, .cons here rest, nodup => by
      obtain ⟨own, nodup⟩ := List.nodup_cons.mp nodup
      refine List.pairwise_cons.mpr ⟨?_, pairwise_parts separate rest nodup⟩
      intro region mem
      obtain ⟨y, hy, rfl⟩ := List.mem_map.mp mem
      obtain ⟨e', he', there⟩ := exists_left_of_mem rest hy
      refine separate.fields _ _ _ _ _ _ here.known there.known (fun same => own ?_) here.found
        there.found
      exact List.mem_map.mpr ⟨e', he', same.symm⟩

/-- The data of a field that the buffer has is behind the index. -/
theorem dataStart_le_of_known {s : Slot} {offset : Nat} (known : (s, offset) ∈ c.knownEntries b) :
    b.dataStart ≤ offset := by
  have entry := RecordBuffer.locate?_eq_some_iff.mp (mem_knownEntries.mp known).2
  rw [RecordBuffer.entries_eq] at entry
  exact ((RecordBuffer.defect?_eq_none_iff.mp b.consistent).2.2.2 _ entry).1

/-- The index has an entry for every part. -/
theorem index_le_of_parts (parts : List.Forall₂ (Part.Of c b) cs xs)
    (nodup : (cs.map fun e => e.1.field.id).Nodup) :
    RecordBuffer.headerLength + cs.length * RecordBuffer.entryLength ≤ b.dataStart := by
  have listed : (cs.map fun e => e.1.field.id) ⊆ b.fieldIds := by
    intro id mem
    obtain ⟨e, he, rfl⟩ := List.mem_map.mp mem
    obtain ⟨x, -, here⟩ := exists_right_of_mem parts he
    apply RecordBuffer.contains_iff.mp
    rw [RecordBuffer.contains, (mem_knownEntries.mp here.known).2]
    rfl
  have count : cs.length ≤ b.entryCount := by
    have := (List.subperm_of_subset nodup listed).length_le
    rwa [List.length_map, RecordBuffer.fieldIds, List.length_map, RecordBuffer.entries,
      List.length_map, List.length_range] at this
  exact Nat.add_le_add_left (Nat.mul_le_mul_right _ count) _

/-- Length slot and payload are together no longer than the part that they were read from. -/
theorem total_le_of_parts (separate : c.Separate b) (parts : List.Forall₂ (Part.Of c b) cs xs) :
    total (cs.map fun e => e.1.operator.lengthWidth) + total (xs.map Part.length) ≤
      total ((xs.map Part.region).map fun s => s.2 - s.1) := by
  induction parts with
  | nil => exact Nat.le_refl _
  | @cons e x _ _ here _ ih =>
      have short := here.short (separate.inside _ _ _ here.known here.found)
      have start : x.span.1 = x.offset + e.1.operator.lengthWidth :=
        (Slot.span_bounds here.found).1
      simp only [List.map_cons, total, List.foldr_cons, Part.region] at ih ⊢
      omega

/-- **Where nothing is shared**, what would be written is no longer than the buffer. -/
theorem lengthWith_le (separate : c.Separate b) (parts : List.Forall₂ (Part.Of c b) cs xs)
    (nodup : (cs.map fun e => e.1.field.id).Nodup) :
    lengthWith cs (xs.map Part.length) ≤ b.size := by
  have index := index_le_of_parts parts nodup
  have data : total ((xs.map Part.region).map fun s => s.2 - s.1) ≤ b.size - b.dataStart := by
    refine total_le_of_beside (pairwise_parts separate parts nodup) ?_
    intro region mem
    obtain ⟨x, hx, rfl⟩ := List.mem_map.mp mem
    obtain ⟨e, -, here⟩ := exists_left_of_mem parts hx
    exact ⟨dataStart_le_of_known here.known, (Slot.span_bounds here.found).2.1⟩
  have start : b.dataStart ≤ b.size := (RecordBuffer.defect?_eq_none_iff.mp b.consistent).1
  have shorter := total_le_of_parts separate parts
  rw [lengthWith, total_add, total_const]
  omega

/-! ## When a map can be written -/

/-- A map with all that is required, each value of it in a known number of octets. -/
structure Ready (c : TableCodec) (m : IdMap Value) (lengths : List Nat) : Prop where
  known : ∀ id ∈ m.ids, (c.slot? id).isSome
  required : ∀ s ∈ c.slots, s.field.isRequired = true → s.field.id ∈ m.ids
  rewrites : List.Forall₂ (fun e k => e.1.operator.Rewrites e.2 k) (c.filled m) lengths

variable {lengths : List Nat}

theorem Ready.layoutLength (h : c.Ready m lengths) :
    layoutLength (c.filled m) = .ok (lengthWith (c.filled m) lengths) :=
  layoutLength_eq_ok_iff.mpr ⟨lengths, h.rewrites.imp fun _ _ h => h.size, rfl⟩

/-- The payloads of a map that fits the header and has no other floating point numbers than are
written. -/
theorem Ready.exists_payloads (h : c.Ready m lengths) (floats : c.FloatsWithin m)
    (fits : lengthWith (c.filled m) lengths ≤ BigEndian.maximum 4) :
    ∃ payloads, payloads.map ByteArray.size = lengths ∧
      List.Forall₂ (fun e p => e.1.operator.payload e.2 = .ok p ∧
        (e.1.operator.isFixed = false → p.size ≤ BigEndian.maximum e.1.operator.lengthWidth))
        (c.filled m) payloads := by
  have each : ∀ e ∈ c.filled m, ∃ p, e.1.operator.payload e.2 = .ok p ∧
      (e.1.operator.isFixed = false → p.size ≤ BigEndian.maximum e.1.operator.lengthWidth) := by
    rintro ⟨s, v⟩ mem
    obtain ⟨k, hk, rewrites⟩ := exists_right_of_mem h.rewrites mem
    obtain ⟨hs, value⟩ := mem_filled.mp mem
    have small : k ≤ BigEndian.maximum 4 :=
      Nat.le_trans (Nat.le_trans (le_total_of_mem hk) (Nat.le_add_left _ _)) fits
    obtain ⟨p, payload⟩ := rewrites.payload (floats s hs v value) small
    have size := rewrites.size
    rw [Operator.size_of_payload payload, Except.ok.injEq] at size
    refine ⟨p, payload, fun unfixed => ?_⟩
    rw [size]
    exact rewrites.fits (Operator.isFixed_eq_false_iff.mp unfixed) small
  obtain ⟨payloads, written⟩ := exists_forall₂ each
  have sizes : List.Forall₂ (fun p k => p.size = id k) payloads lengths := by
    refine forall₂_of_common (fun e p k payload rewrites => ?_) written h.rewrites
    have size := rewrites.size
    rwa [Operator.size_of_payload payload.1, Except.ok.injEq] at size
  have same := map_eq_map_of_forall₂ sizes
  rw [List.map_id] at same
  exact ⟨payloads, same, written⟩

/-- **What can keep a map from being written** are its floating point numbers and its length. -/
theorem Ready.exists_encode_iff (h : c.Ready m lengths) : (∃ out, c.encode m = .ok out) ↔
    c.FloatsWithin m ∧ lengthWith (c.filled m) lengths ≤ c.limits.maxRecordSize ∧
      lengthWith (c.filled m) lengths ≤ BigEndian.maximum 4 := by
  constructor
  · rintro ⟨out, encoded⟩
    obtain ⟨admits, laid⟩ := encode_eq_ok_iff.mp encoded
    obtain ⟨n, _, length, within, fits, -, -⟩ := layout_eq_ok_iff.mp laid
    rw [h.layoutLength, Except.ok.injEq] at length
    subst length
    refine ⟨fun s hs v value => ?_, within, fits⟩
    exact Operator.floatsWithin_of_accepts (admits.accepted s hs v value)
  · rintro ⟨floats, within, fits⟩
    have accepted : ∀ s ∈ c.slots, ∀ v, m.find? s.field.id = some v →
        s.operator.accepts v = true := by
      intro s hs v value
      obtain ⟨k, -, rewrites⟩ := exists_right_of_mem h.rewrites (mem_filled.mpr ⟨hs, value⟩)
      exact rewrites.accepts.mpr (floats s hs v value)
    obtain ⟨payloads, rfl, written⟩ := h.exists_payloads floats fits
    obtain ⟨bytes, laid, -⟩ := c.exists_layout _ written within fits
    exact ⟨bytes, encode_eq_ok_iff.mpr ⟨⟨h.known, accepted, h.required⟩, laid⟩⟩

/-- What a codec reads from a buffer that it accepts. -/
theorem ready_of_parts (covers : c.Covers) (distinct : c.DistinctIds)
    (checked : c.checkBuffer b = .ok ()) (decoded : c.decodeAll b = .ok m)
    (parts : List.Forall₂ (Part.Of c b) (c.filled m) xs) : c.Ready m (xs.map Part.length) where
  known id present := ((mem_ids_of_decodeAll decoded).mp present).1
  required s hs required := by
    have slot := (slot?_eq_some_iff distinct).mpr ⟨hs, rfl⟩
    obtain ⟨mem, stored⟩ := List.mem_filter.mp (covers.field _ s slot)
    have listed := checkBuffer_eq_ok_iff.mp checked s.field
      (List.mem_filter.mpr ⟨List.mem_filter.mpr ⟨mem, required⟩, stored⟩)
    exact (mem_ids_of_decodeAll decoded).mpr ⟨Option.isSome_iff_exists.mpr ⟨s, slot⟩, listed⟩
  rewrites := by
    rw [List.forall₂_map_right_iff]
    exact parts.imp fun _ _ h => h.rewrites

/-! ## One other value -/

/-- Maps that differ at one number only. -/
theorem exists_split_filled (distinct : c.DistinctIds) {s : Slot} {old v : Value}
    (hs : s ∈ c.slots) (before : m.find? s.field.id = some old)
    (after : m'.find? = Function.update m.find? s.field.id (some v)) :
    ∃ left right, c.filled m = left ++ (s, old) :: right ∧
      c.filled m' = left ++ (s, v) :: right := by
  obtain ⟨left, right, split⟩ := List.append_of_mem hs
  have others : ∀ t ∈ left ++ right, m'.find? t.field.id = m.find? t.field.id := by
    intro t ht
    rw [DistinctIds, split, List.map_append, List.map_cons, List.nodup_middle,
      ← List.map_append, List.nodup_cons] at distinct
    have other : t.field.id ≠ s.field.id := fun same =>
      distinct.1 (same ▸ List.mem_map_of_mem ht)
    rw [after, Function.update_of_ne other]
  have own : m'.find? s.field.id = some v := by rw [after, Function.update_self]
  have same : ∀ ts ⊆ left ++ right,
      (ts.filterMap fun t => (m'.find? t.field.id).map fun v => (t, v)) =
        ts.filterMap fun t => (m.find? t.field.id).map fun v => (t, v) := fun ts sub =>
    List.filterMap_congr fun t ht => by rw [others t (sub ht)]
  refine ⟨left.filterMap fun t => (m.find? t.field.id).map fun v => (t, v),
    right.filterMap fun t => (m.find? t.field.id).map fun v => (t, v), ?_, ?_⟩
  · rw [filled, split, List.filterMap_append, List.filterMap_cons, before]
    rfl
  · rw [filled, split, List.filterMap_append, List.filterMap_cons, own,
      same left (List.subset_append_left ..), same right (List.subset_append_right ..)]
    rfl

/-- A value in place of another one. -/
theorem Ready.replaced (h : c.Ready m lengths) (distinct : c.DistinctIds) {s : Slot}
    {old v : Value} {j k : Nat} (hs : s ∈ c.slots) (before : m.find? s.field.id = some old)
    (after : m'.find? = Function.update m.find? s.field.id (some v))
    (size : s.operator.size old = .ok k) (rewrites : s.operator.Rewrites v j) :
    ∃ lengths', c.Ready m' lengths' ∧
      lengthWith (c.filled m') lengths' + k = lengthWith (c.filled m) lengths + j := by
  obtain ⟨left, right, split, split'⟩ := exists_split_filled distinct hs before after
  have ids : ∀ id, id ∈ m'.ids ↔ id ∈ m.ids := by
    intro id
    rw [← IdMap.isSome_find?_iff, ← IdMap.isSome_find?_iff, after]
    by_cases here : id = s.field.id
    · rw [here, Function.update_self, before]
      simp only [Option.isSome_some]
    · rw [Function.update_of_ne here]
  have each := h.rewrites
  rw [split] at each
  obtain ⟨ls, rest, rfl, ahead, tail⟩ := exists_append_of_forall₂ each
  obtain ⟨k', ks, here, behind, rfl⟩ := List.forall₂_cons_left_iff.mp tail
  have own := here.size
  rw [size, Except.ok.injEq] at own
  subst own
  refine ⟨ls ++ j :: ks, ⟨fun id present => h.known id ((ids id).mp present),
    fun t ht required => (ids _).mpr (h.required t ht required), ?_⟩, ?_⟩
  · rw [split']
    exact List.rel_append ahead (.cons rewrites behind)
  · simp only [lengthWith, split, split', List.map_append, List.map_cons, total_append]
    simp only [total, List.foldr_cons]
    omega

/-- Whether all values are written does not depend on one that is accepted. -/
theorem floatsWithin_replaced (distinct : c.DistinctIds) {s : Slot} {v : Value} (hs : s ∈ c.slots)
    (after : m'.find? = Function.update m.find? s.field.id (some v))
    (accepted : s.operator.accepts v = true) :
    c.FloatsWithin m' ↔ c.FloatsWithin (m.erase s.field.id) := by
  refine forall₂_congr fun t ht => forall_congr' fun w => ?_
  rw [IdMap.find?_erase, after]
  by_cases same : t.field.id = s.field.id
  · obtain rfl := List.inj_on_of_nodup_map distinct ht hs same
    rw [Function.update_self, if_pos rfl]
    simp only [Option.some.injEq, reduceCtorEq, false_implies, iff_true]
    rintro rfl
    exact Operator.floatsWithin_of_accepts accepted
  · rw [Function.update_of_ne same, if_neg (Ne.symm same)]

end TableCodec

namespace Record

variable {limit : Nat} {c : TableCodec} {r r' : Record} {b : RecordBuffer} {m : IdMap Value}

/-- Values `m` that a record has read from a buffer, and that would be written in `n` octets. -/
structure Rewritable (c : TableCodec) (r : Record) (b : RecordBuffer) (m : IdMap Value) (n : Nat) :
    Prop where
  /-- A value is accepted where its floating point numbers are such as are written. -/
  accepts : ∀ s ∈ c.slots, ∀ v, m.find? s.field.id = some v →
    (s.operator.accepts v = true ↔ s.operator.FloatsWithin v)
  length : layoutLength (c.filled m) = .ok n
  /-- There is no other reason for a failure than floating point numbers and the length. -/
  encode : (∃ out, c.encode m = .ok out) ↔
    c.FloatsWithin m ∧ n ≤ c.limits.maxRecordSize ∧ n ≤ BigEndian.maximum 4
  /-- The length is within the limits where no octets are shared. -/
  within : c.Separate b → n ≤ b.size ∧ n ≤ c.limits.maxRecordSize ∧ n ≤ BigEndian.maximum 4
  /-- One value may be replaced by another one where the others can be written, and the length
  grows as the payload does. -/
  edit : ∀ f v r', r.set f v = .ok r' → ∀ own s old k p, c.table.resolve? f = some own →
    c.slot? own.id = some s → m.find? own.id = some old → s.operator.size old = .ok k →
      s.operator.payload v = .ok p → ∃ n', n' + k = n + p.size ∧
        ((∃ r'', r'.finish = .ok r'') ↔ c.FloatsWithin (m.erase own.id) ∧
          n' ≤ c.limits.maxRecordSize ∧ n' ≤ BigEndian.maximum 4)

theorem exists_edit {lengths : List Nat} (sound : c.Sound limit) (ready : c.Ready m lengths)
    (read : (Record.backed c b).values = .ok m) {f own : Field} {v old : Value} {s : Slot}
    {k : Nat} {p : Bytes} (done : (Record.backed c b).set f v = .ok r')
    (found : c.table.resolve? f = some own) (slot : c.slot? own.id = some s)
    (before : m.find? own.id = some old) (size : s.operator.size old = .ok k)
    (payload : s.operator.payload v = .ok p) :
    ∃ n', n' + k = TableCodec.lengthWith (c.filled m) lengths + p.size ∧
      ((∃ r'', r'.finish = .ok r'') ↔ c.FloatsWithin (m.erase own.id) ∧
        n' ≤ c.limits.maxRecordSize ∧ n' ≤ BigEndian.maximum 4) := by
  obtain ⟨own', op, found', -, operator, accepted, rfl⟩ := set_eq_ok_iff.mp done
  obtain rfl : own' = own := by
    have same := found'.symm.trans found
    exact Option.some.inj same
  obtain rfl : s.operator = op := by
    change (c.slot? own'.id).map Slot.operator = some op at operator
    rw [slot] at operator
    exact Option.some.inj operator
  obtain ⟨hs, id⟩ := (TableCodec.slot?_eq_some_iff sound.distinct).mp slot
  obtain ⟨m', read', after⟩ := values_staging (v := v) IdMap.sorted_nil read own'.id
  have dirty : ((Record.backed c b).staging own'.id v).isDirty = true := rfl
  have finishes := exists_finish_iff sound dirty read'
  rw [← id] at before after finishes ⊢
  obtain ⟨lengths', ready', length⟩ := ready.replaced sound.distinct hs before after size
    (Operator.rewrites_of_payload accepted payload)
  refine ⟨_, length, finishes.trans ?_⟩
  rw [← TableCodec.floatsWithin_replaced sound.distinct hs after accepted]
  exact ready'.exists_encode_iff

/-- **Whatever can be read can be written back**, and changed, but for floating point numbers that
are never written and for octets that several values share. -/
theorem rewritable_of_ofBytes {limits : Limits} {t : Table} {bytes : Bytes}
    (given : Registry.GivesCodec limits (fun _ => True) t c)
    (made : c.Everywhere fun d => d.table.Made)
    (distinct : (c.table.storedFields.map Field.id).Nodup) (read : Record.ofBytes c bytes = .ok r)
    (values : r.values = .ok m) :
    ∃ b n, b.bytes = bytes ∧ r.buffer = some b ∧ Rewritable c r b m n := by
  have compiled := (given.compiled nestedIn_true).inside.here
  have sound := compiled.sound ⟨made.here.fields, distinct⟩
  obtain ⟨b, octets, small, checked, rfl⟩ := ofBytes_eq_ok_iff.mp read
  have decoded : c.decodeAll b = .ok m := (values_backed c b).symm.trans values
  obtain ⟨xs, parts⟩ := TableCodec.exists_parts sound.distinct made decoded
  have ready := TableCodec.ready_of_parts (compiled.covers distinct) sound.distinct checked decoded
    parts
  refine ⟨b, _, octets, rfl, ?_, ready.layoutLength, ready.exists_encode_iff, ?_, ?_⟩
  · intro s hs v value
    obtain ⟨k, -, rewrites⟩ := exists_right_of_mem ready.rewrites
      (TableCodec.mem_filled.mpr ⟨hs, value⟩)
    exact rewrites.accepts
  · intro separate
    have shorter := TableCodec.lengthWith_le separate parts (TableCodec.nodup_filled sound.distinct)
    have limit : b.size ≤ c.limits.maxRecordSize := by rwa [RecordBuffer.size, octets]
    exact ⟨shorter, Nat.le_trans shorter limit, Nat.le_trans shorter b.size_le_maximum⟩
  · intro f v r' done own s old k p found slot before size payload
    exact exists_edit sound ready values done found slot before size payload

end Record

namespace Household

/-- The octets of a person that can be read. -/
def inhabitant : RecordBuffer where
  bytes := [0, 0, 0, 69, 0, 1, 0, 3, 0, 1, 0, 0, 0, 30, 0, 2, 0, 0, 0, 26, 0, 3, 0, 0, 0, 52,
    0, 0, 0, 7, 0, 0, 0, 18, 0, 0, 0, 18, 0, 1, 0, 1, 0, 1, 0, 0, 0, 14, 0, 1, 37, 3,
    0, 0, 0, 13, 0, 0, 0, 1, 0, 0, 0, 8, 0, 3, 65, 110, 110].toByteArray
  consistent := by decide +kernel

theorem ofBytes_inhabitant : Record.ofBytes personCodec inhabitant.bytes =
    .ok (Record.backed personCodec inhabitant) :=
  Record.ofBytes_eq_ok_iff.mpr ⟨inhabitant, rfl, by decide,
    TableCodec.checkBuffer_eq_ok_iff.mpr (by decide +kernel), rfl⟩

theorem exists_values_inhabitant : ∃ m, (Record.backed personCodec inhabitant).values = .ok m :=
  isOk_iff.mp (by decide +kernel)

/-- What can be done with a person that was read. -/
theorem rewritable_inhabitant : ∃ r m b n, Record.ofBytes personCodec inhabitant.bytes = .ok r ∧
    r.values = .ok m ∧ Record.Rewritable personCodec r b m n := by
  obtain ⟨m, values⟩ := exists_values_inhabitant
  obtain ⟨b, n, -, -, rewritable⟩ := Record.rewritable_of_ofBytes (givesCodec_person trivial)
    (everywhere_person valid_person.toMade valid_address.toMade) (by decide) ofBytes_inhabitant
    values
  exact ⟨_, m, b, n, ofBytes_inhabitant, values, rewritable⟩

def level : Field := ⟨1, "level", .primitive .double, .required, none⟩

def note : Field := ⟨2, "note", .primitive .string, .optional, none⟩

def remark : Field := ⟨3, "remark", .primitive .string, .optional, none⟩

def gauge : Table := ⟨"Gauge", 1, [level, note, remark]⟩

def gaugeLimits : Limits := ⟨60, 10, ⟨0⟩⟩

def gaugeCodec : TableCodec :=
  ⟨gauge, gaugeLimits, [⟨level, .fixed .double ⟨0⟩⟩, ⟨note, .string⟩, ⟨remark, .string⟩]⟩

theorem givesCodec_gauge : Registry.GivesCodec gaugeLimits (fun _ => True) gauge gaugeCodec :=
  ⟨trivial, { limits := gaugeLimits }, .fresh, by cbv⟩

/-- The level is not a number. -/
def broken : RecordBuffer where
  bytes := [0, 0, 0, 22, 0, 1, 0, 1, 0, 1, 0, 0, 0, 14, 127, 248, 0, 0, 0, 0, 0, 0].toByteArray
  consistent := by decide +kernel

/-- Note and remark are one text. -/
def shared : RecordBuffer where
  bytes := [0, 0, 0, 60, 0, 1, 0, 3, 0, 1, 0, 0, 0, 26, 0, 2, 0, 0, 0, 34, 0, 3, 0, 0, 0, 34,
    0, 0, 0, 0, 0, 0, 0, 0, 0, 24, 97, 98, 99, 100, 101, 102, 97, 98, 99, 100, 101, 102,
    97, 98, 99, 100, 101, 102, 97, 98, 99, 100, 101, 102].toByteArray
  consistent := by decide +kernel

def brokenValues : IdMap Value := [(1, .scalar (.double ⟨0x7FF8000000000000⟩))]

def sharedValues : IdMap Value :=
  [(1, .scalar (.double ⟨0⟩)), (2, .scalar (.string "abcdefabcdefabcdefabcdef")),
    (3, .scalar (.string "abcdefabcdefabcdefabcdef"))]

/-- Gauges that can be read and not written back: one for its level, the other for its length,
though each of its values is accepted. -/
theorem not_encode_of_values : Registry.GivesCodec gaugeLimits (fun _ => True) gauge gaugeCodec ∧
    (gauge.storedFields.map Field.id).Nodup ∧
    (∃ r, Record.ofBytes gaugeCodec broken.bytes = .ok r ∧ r.values = .ok brokenValues ∧
      ¬∃ out, gaugeCodec.encode brokenValues = .ok out) ∧
    ∃ r, Record.ofBytes gaugeCodec shared.bytes = .ok r ∧ r.values = .ok sharedValues ∧
      gaugeCodec.Admits sharedValues ∧ ¬∃ out, gaugeCodec.encode sharedValues = .ok out := by
  have backed : ∀ b : RecordBuffer, b.size ≤ 60 → gaugeCodec.checkBuffer b = .ok () →
      Record.ofBytes gaugeCodec b.bytes = .ok (Record.backed gaugeCodec b) :=
    fun b small complete => Record.ofBytes_eq_ok_iff.mpr ⟨b, rfl, small, complete, rfl⟩
  have broken_fails : gaugeCodec.encode brokenValues =
      .error (.valueRejected "Gauge" "level" "double" "double") := by cbv
  have shared_fails : gaugeCodec.encode sharedValues =
      .error (.codec (.limitExceeded .recordSize 86 60)) := by cbv
  have contents : gaugeCodec.contents sharedValues = .ok (gaugeCodec.filled sharedValues) := by cbv
  refine ⟨givesCodec_gauge, by decide, ⟨_, backed broken (by decide) (by cbv), ?_, ?_⟩,
    _, backed shared (by decide) (by cbv), ?_, ?_, ?_⟩
  · cbv
  · rw [broken_fails]
    simp
  · cbv
  · exact (TableCodec.contents_eq_ok_iff.mp contents).1
  · rw [shared_fails]
    simp

end Household

end RecordFormat
