import Mathlib.Data.List.Perm.Subperm
import RecordFormat.Proofs.Codec.Payloads

/-!
# The contents of a record

A codec writes a map that it `Admits`: every number is known, every value is accepted by its
slot, and nothing required is missing. The contents are then the slots that have values, and
their blocks fit together when the codec is `Sound` (`exists_laidOut`).
-/

namespace RecordFormat

open Outcome

namespace TableCodec

variable {c : TableCodec} {m : IdMap Value} {cs : List (Slot × Value)} {bytes : Bytes}

/-- The map can be written by the codec. -/
structure Admits (c : TableCodec) (m : IdMap Value) : Prop where
  known : ∀ id ∈ m.ids, (c.slot? id).isSome
  accepted : ∀ s ∈ c.slots, ∀ v, m.find? s.field.id = some v → s.operator.accepts v = true
  required : ∀ s ∈ c.slots, s.field.isRequired = true → s.field.id ∈ m.ids

/-- The slots that have values, in their order. -/
def filled (c : TableCodec) (m : IdMap Value) : List (Slot × Value) :=
  c.slots.filterMap fun s => (m.find? s.field.id).map fun v => (s, v)

theorem mem_filled {s : Slot} {v : Value} :
    (s, v) ∈ c.filled m ↔ s ∈ c.slots ∧ m.find? s.field.id = some v := by
  rw [filled, List.mem_filterMap]
  constructor
  · rintro ⟨t, ht, h⟩
    obtain ⟨w, hw, eq⟩ := Option.map_eq_some_iff.mp h
    cases eq
    exact ⟨ht, hw⟩
  · rintro ⟨hs, hv⟩
    exact ⟨s, hs, by rw [hv]; rfl⟩

theorem holdsAll_iff {P : Record → Prop} (distinct : c.DistinctIds) :
    c.HoldsAll P m ↔ ∀ e ∈ c.filled m, e.1.operator.Holds P e.2 := by
  constructor
  · rintro holds ⟨s, v⟩ mem
    obtain ⟨hs, value⟩ := mem_filled.mp mem
    exact holds _ v s value ((slot?_eq_some_iff distinct).mpr ⟨hs, rfl⟩)
  · intro holds id v s value slot
    obtain rfl := id_of_slot? slot
    exact holds (s, v) (mem_filled.mpr ⟨mem_of_slot? slot, value⟩)

/-- What the check of a slot gives when it passes. -/
theorem checkSlot_eq_ok_iff {s : Slot} {o : Option (Slot × Value)} :
    c.checkSlot m s = .ok o ↔ o = (m.find? s.field.id).map (fun v => (s, v)) ∧
      (∀ v, m.find? s.field.id = some v → s.operator.accepts v = true) ∧
      (s.field.isRequired = true → s.field.id ∈ m.ids) := by
  rw [← IdMap.isSome_find?_iff]
  unfold checkSlot
  cases m.find? s.field.id with
  | some v =>
      by_cases accepts : s.operator.accepts v = true
      · simp only [accepts, if_true, Except.ok.injEq, Option.map_some, Option.some.injEq,
          forall_eq', Option.isSome_some, implies_true, and_true, eq_comm]
      · simp only [accepts, Bool.false_eq_true, if_false, reduceCtorEq, Option.some.injEq,
          forall_eq', false_and, and_false]
  | none =>
      by_cases required : s.field.isRequired = true
      · simp only [required, if_true, reduceCtorEq, Option.isSome_none, Bool.false_eq_true,
          forall_const, and_false]
      · simp only [required, Bool.false_eq_true, if_false, Except.ok.injEq, Option.map_none,
          reduceCtorEq, false_implies, implies_true, and_true, eq_comm]

private theorem filterMap_of_checked : ∀ {slots : List Slot} {found : List (Option (Slot × Value))},
    List.Forall₂ (fun s o => o = (m.find? s.field.id).map fun v => (s, v)) slots found →
      found.filterMap id = slots.filterMap fun s => (m.find? s.field.id).map fun v => (s, v)
  | _, _, .nil => rfl
  | _, _, .cons here rest => by
      rw [List.filterMap_cons, List.filterMap_cons, filterMap_of_checked rest, here]
      rfl

/-- **What is written** of a map, and when. -/
theorem contents_eq_ok_iff : c.contents m = .ok cs ↔ c.Admits m ∧ cs = c.filled m := by
  unfold contents
  split
  · next id found =>
    have unknown := List.find?_some found
    simp only [reduceCtorEq, false_iff]
    rintro ⟨admits, -⟩
    have known := admits.known id (List.mem_of_find?_eq_some found)
    rw [Option.isNone_iff_eq_none] at unknown
    rw [unknown] at known
    cases known
  · next known =>
    -- Every number of the map has a slot; the rest is checked slot by slot.
    rw [List.find?_eq_none] at known
    rw [bind_eq_ok_iff]
    simp only [mapM_eq_ok_iff, checkSlot_eq_ok_iff, pure_eq_ok_iff]
    constructor
    · rintro ⟨found, checked, rfl⟩
      refine ⟨⟨?_, ?_, ?_⟩, ?_⟩
      · intro id hid
        exact Option.isSome_iff_ne_none.mpr fun none => known id hid (by rw [none]; rfl)
      · intro s hs
        obtain ⟨_, -, -, accepted, -⟩ := exists_right_of_mem checked hs
        exact accepted
      · intro s hs
        obtain ⟨_, -, -, -, required⟩ := exists_right_of_mem checked hs
        exact required
      · exact filterMap_of_checked (checked.imp fun s o h => h.1)
    · rintro ⟨admits, rfl⟩
      refine ⟨c.slots.map fun s => (m.find? s.field.id).map fun v => (s, v), ?_, ?_⟩
      · rw [List.forall₂_map_right_iff, List.forall₂_same]
        exact fun s hs => ⟨rfl, admits.accepted s hs, admits.required s hs⟩
      · apply filterMap_of_checked
        rw [List.forall₂_map_right_iff, List.forall₂_same]
        exact fun s _ => rfl

/-! ## Sound codecs -/

/-- The numbers of the slots are distinct and not negative, the required fields have slots,
and records of up to `limit` octets are accepted. -/
structure Sound (limit : Nat) (c : TableCodec) : Prop where
  distinct : c.DistinctIds
  natural : ∀ s ∈ c.slots, 0 ≤ s.field.id
  required : ∀ f ∈ c.table.requiredFields.filter Field.isStored, ∃ s ∈ c.slots, s.field = f
  limit_le : limit ≤ c.limits.maxRecordSize

/-- Distinct numbers that are not negative are at most `2 ^ 15`. -/
private theorem length_le_of_natural {ids : List Int16} (nodup : ids.Nodup)
    (natural : ∀ id ∈ ids, 0 ≤ id) : ids.length ≤ 32768 := by
  have apart : (ids.map fun id => id.toNatClampNeg).Nodup := by
    apply (List.nodup_map_iff_inj_on nodup).mpr
    intro a ha b hb eq
    rw [← Int16.ofNat_toNatClampNeg a (natural a ha), eq,
      Int16.ofNat_toNatClampNeg b (natural b hb)]
  have bounded : (ids.map fun id => id.toNatClampNeg) ⊆ List.range 32768 := by
    intro n hn
    rcases List.mem_map.mp hn with ⟨id, -, rfl⟩
    exact List.mem_range.mpr id.toNatClampNeg_lt
  have := (List.subperm_of_subset apart bounded).length_le
  rwa [List.length_map, List.length_range] at this

/-- The slots that have values are among the slots, in their order. -/
theorem filled_sublist (c : TableCodec) (m : IdMap Value) :
    ((c.filled m).map Prod.fst).Sublist c.slots := by
  unfold filled
  induction c.slots with
  | nil => exact .slnil
  | cons s rest ih =>
      rw [List.filterMap_cons]
      cases m.find? s.field.id with
      | none => exact ih.cons _
      | some v => exact ih.cons_cons _

theorem nodup_filled (distinct : c.DistinctIds) :
    ((c.filled m).map fun e => e.1.field.id).Nodup := by
  have ids := ((filled_sublist c m).map fun s : Slot => s.field.id).nodup distinct
  rwa [List.map_map] at ids

/-- Each number of a map that can be written has a slot with a value. -/
theorem Admits.mem_ids_iff (admits : c.Admits m) {id : Int16} :
    id ∈ (c.filled m).map (fun e => e.1.field.id) ↔ id ∈ m.ids := by
  rw [List.mem_map]
  constructor
  · rintro ⟨⟨s, v⟩, mem, rfl⟩
    exact IdMap.mem_ids_of_find? (mem_filled.mp mem).2
  · intro present
    obtain ⟨s, slot⟩ := Option.isSome_iff_exists.mp (admits.known id present)
    obtain ⟨v, value⟩ := IdMap.exists_of_mem_ids present
    obtain rfl := id_of_slot? slot
    exact ⟨(s, v), mem_filled.mpr ⟨mem_of_slot? slot, value⟩, rfl⟩

/-- The blocks have the numbers of their slots. -/
theorem ids_perm_of_written {blocks : List (Int16 × Bytes)}
    (written : List.Forall₂ IsBlock (writingOrder cs) blocks) :
    (blocks.map Prod.fst).Perm (cs.map fun e => e.1.field.id) := by
  have ids : (writingOrder cs).map (fun e => e.1.field.id) = blocks.map Prod.fst :=
    map_eq_map_of_forall₂ (written.imp fun e block h => h.1.symm)
  rw [← ids]
  exact (writingOrder_perm cs).map _

/-- The octets are put together from blocks of the map's values, which fit together. -/
structure LaidOut (c : TableCodec) (m : IdMap Value) (bytes : Bytes) (announced : Nat)
    (blocks : List (Int16 × Bytes)) : Prop where
  written : List.Forall₂ IsBlock (writingOrder (c.filled m)) blocks
  fitting : RecordBuffer.Fitting announced blocks
  octets : bytes = assemble announced c.table.version blocks

namespace LaidOut

variable {announced : Nat} {blocks : List (Int16 × Bytes)}
  (out : c.LaidOut m bytes announced blocks)
include out

theorem defect?_eq_none : RecordBuffer.defect? bytes = none := by
  rw [out.octets]
  exact out.fitting.defect?_assemble

theorem size_eq : bytes.size = announced := by
  rw [out.octets]
  exact out.fitting.size_eq c.table.version

theorem size_le : bytes.size ≤ BigEndian.maximum 4 := by
  rw [out.size_eq]
  exact out.fitting.size_le

end LaidOut

/-- **A layout is made of blocks that fit together.** -/
theorem exists_laidOut {limit : Nat} (sound : c.Sound limit)
    (laid : c.layout (c.filled m) = .ok bytes) :
    ∃ announced blocks, c.LaidOut m bytes announced blocks := by
  obtain ⟨announced, blocks, whole, -, fits, written, octets⟩ := exists_blocks_of_layout laid
  have perm := ids_perm_of_written written
  have nodup : (blocks.map Prod.fst).Nodup := perm.symm.nodup (nodup_filled sound.distinct)
  refine ⟨announced, blocks, written, ⟨nodup, ?_, ?_, whole, fits⟩, octets⟩
  · intro block hb
    obtain ⟨e, -, -, written⟩ := exists_left_of_mem written hb
    obtain ⟨p, payload, fits, eq⟩ := Operator.block_eq_ok_iff.mp written
    rw [eq]
    exact (Operator.Frames.of_block payload fits).framed_pos
  · -- There are no more distinct numbers from zero up than a count of two octets can hold.
    have natural : ∀ id ∈ blocks.map Prod.fst, 0 ≤ id := by
      intro id hid
      rw [perm.mem_iff] at hid
      obtain ⟨⟨s, v⟩, mem, rfl⟩ := List.mem_map.mp hid
      exact sound.natural s (mem_filled.mp mem).1
    have few := length_le_of_natural nodup natural
    rw [List.length_map] at few
    exact Nat.le_trans few (by decide)

end TableCodec

end RecordFormat
