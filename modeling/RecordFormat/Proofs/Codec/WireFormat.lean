import RecordFormat.Proofs.Registry.RoundTrip

/-!
# The wire format

`WireFormat` tells what the octets of a record are without telling how they are written: a header of
eight octets, an index in the order of the numbers, and the values one after the other without gaps,
those of fixed width first and each of the two groups in the order of its numbers. What a codec
encodes is in this format (`TableCodec.wireFormat_of_encode`), so the writer, which finds the
positions while it writes and sorts them afterwards, puts each of them under its own number.
-/

namespace RecordFormat

open Outcome
open Bytes (PartAt)

/-- The number stands at `offset` in `width` octets, most significant first. -/
structure Bytes.NumberAt (bytes : Bytes) (offset width n : Nat) : Prop where
  fits : n ≤ BigEndian.maximum width
  part : PartAt bytes offset (BigEndian.encode width n)

/-! ## Blocks -/

/-- The octets in front of a payload of variable width, which say how long it is. -/
def FieldType.lengthOctets : FieldType → Nat
  | .primitive .string => 2
  | _ => 4

/-- A value in its place: the field, where its octets start, and its payload. -/
structure Block where
  field : Field
  start : Nat
  payload : Bytes

namespace Block

def isFixed (b : Block) : Bool := b.field.type.width?.isSome

/-- The payload, behind its length unless all payloads of the type are of one width. -/
def octets (b : Block) : Bytes :=
  if b.isFixed then b.payload
  else BigEndian.encode b.field.type.lengthOctets b.payload.size ++ b.payload

/-- The length fits the octets that there are for it. -/
def Fits (b : Block) : Prop :=
  b.isFixed = false → b.payload.size ≤ BigEndian.maximum b.field.type.lengthOctets

/-- The blocks stand one after the other from `start` to `stop`. -/
def Tile (bytes : Bytes) : (start : Nat) → List Block → (stop : Nat) → Prop
  | start, [], stop => start = stop
  | start, b :: rest, stop =>
    b.start = start ∧ PartAt bytes start b.octets ∧ Tile bytes (start + b.octets.size) rest stop

/-- The blocks are those of the stored fields of fixed width that have a value, or of those of
variable width, in the order of their numbers. -/
structure Collect (t : Table) (m : IdMap Value) (isFixed : Bool) (blocks : List Block) : Prop where
  fields : ∀ f, f ∈ blocks.map Block.field ↔
    f ∈ t.storedFields ∧ f.id ∈ m.ids ∧ f.type.width?.isSome = isFixed
  ascending : (blocks.map fun b => b.field.id).Pairwise (· < ·)

end Block

/-- The octets are the record of these values: header, index, the blocks of fixed width and the
others. -/
structure WireFormat (c : TableCodec) (m : IdMap Value) (bytes : Bytes) (index : IdMap Nat)
    (fixed others : List Block) : Prop where
  length : bytes.NumberAt 0 4 bytes.size
  version : bytes.NumberAt 4 2 c.table.version.toUInt16.toNat
  count : bytes.NumberAt 6 2 m.length
  /-- the entries stand one after the other behind the header -/
  entry : ∀ i (h : i < index.length),
    bytes.NumberAt (8 + 6 * i) 2 index[i].1.toUInt16.toNat ∧
      bytes.NumberAt (8 + 6 * i + 2) 4 index[i].2
  /-- there is one for each number of the map, in ascending order -/
  entries : index.length = m.length
  ids : ∀ id, id ∈ index.ids ↔ id ∈ m.ids
  ascending : index.ids.Pairwise (· < ·)
  /-- it says where the number's block starts -/
  found : ∀ b ∈ fixed ++ others, index.find? b.field.id = some b.start
  collectFixed : Block.Collect c.table m true fixed
  collectOthers : Block.Collect c.table m false others
  /-- from the end of the index to the end of the record -/
  tile : Block.Tile bytes (8 + 6 * m.length) (fixed ++ others) bytes.size
  /-- the payloads are those of the values -/
  payload : ∀ b ∈ fixed ++ others, b.Fits ∧ ∃ op v, c.operator? b.field.id = some op ∧
    m.find? b.field.id = some v ∧ op.payload v = .ok b.payload

/-! ## The writer's blocks -/

namespace Operator

variable {op : Operator} {type : FieldType}

theorem width?_detach (t : FieldType) : t.detach.width? = t.width? := by
  cases t <;> rfl

theorem lengthOctets_detach : ∀ t : FieldType, t.detach.lengthOctets = t.lengthOctets
  | .primitive _ | .unbound _ | .bound _ | .list _ => rfl

/-- An operator has the width of its type. -/
theorem isFixed_of_type (same : op.type.detach = type.detach) :
    op.isFixed = type.width?.isSome := by
  rw [← width?_detach, ← same, width?_detach]
  cases op with
  | fixed kind limit => cases kind <;> rfl
  | _ => rfl

/-- An operator of variable width has the length slot of its type. -/
theorem lengthWidth_of_type (same : op.type.detach = type.detach) (unfixed : op.isFixed = false) :
    op.lengthWidth = type.lengthOctets := by
  rw [← lengthOctets_detach, ← same, lengthOctets_detach]
  cases op with
  | fixed => cases unfixed
  | _ => rfl

end Operator

/-- The block holds the value of the slot. -/
structure Block.Carries (e : Slot × Value) (b : Block) : Prop where
  field : b.field = e.1.field
  payload : e.1.operator.payload e.2 = .ok b.payload
  fits : b.Fits

namespace Block

variable {c : TableCodec} {m : IdMap Value} {bytes : Bytes}

/-- What the writer puts down for a slot is the block of its value. -/
theorem exists_carries {e : Slot × Value} {block : Int16 × Bytes} (start : Nat)
    (same : e.1.operator.type.detach = e.1.field.type.detach) (written : IsBlock e block) :
    ∃ b : Block, b.Carries e ∧ b.start = start ∧ b.field.id = block.1 ∧ b.octets = block.2 := by
  obtain ⟨p, payload, fits, eq⟩ := Operator.block_eq_ok_iff.mp written.2
  have width := Operator.isFixed_of_type same
  refine ⟨⟨e.1.field, start, p⟩, ⟨rfl, payload, ?_⟩, rfl, written.1.symm, ?_⟩
  · intro unfixed
    rw [isFixed, ← width] at unfixed
    rw [← Operator.lengthWidth_of_type same unfixed]
    exact fits unfixed
  · rw [eq, octets, isFixed, ← width, Operator.framed]
    cases fixed : e.1.operator.isFixed with
    | true => simp [Operator.lengthWidth_of_isFixed fixed, BigEndian.encode, BigEndian.digits]
    | false => simp [Operator.lengthWidth_of_type same fixed]

/-- Blocks that the writer joins tile the octets they stand in, from where they start. -/
theorem exists_tile : ∀ {es : List (Slot × Value)} {blocks : List (Int16 × Bytes)} {start : Nat},
    List.Forall₂ IsBlock es blocks →
      (∀ e ∈ es, e.1.operator.type.detach = e.1.field.type.detach) →
      PartAt bytes start (Bytes.join (blocks.map Prod.snd)) →
        ∃ bs, List.Forall₂ Carries es bs ∧
          bs.map (fun b => (b.field.id, b.start)) =
            (blocks.map Prod.fst).zip (positions start (blocks.map Prod.snd)) ∧
          Tile bytes start bs (start + (Bytes.join (blocks.map Prod.snd)).size)
  | _, _, start, .nil, _, _ => ⟨[], .nil, rfl, rfl⟩
  | e :: es, block :: blocks, start, .cons here rest, same, part => by
      obtain ⟨first, tail⟩ := List.forall_mem_cons.mp same
      rw [List.map_cons, Bytes.join_cons] at part
      obtain ⟨b, carries, begins, id, octets⟩ := exists_carries start first here
      obtain ⟨bs, others, places, tile⟩ := exists_tile rest tail part.right
      refine ⟨b :: bs, .cons carries others, ?_, begins, octets ▸ part.left, ?_⟩
      · rw [List.map_cons, places, begins, id]
        simp
      · rw [octets, List.map_cons, Bytes.join_cons, ByteArray.size_append, ← Nat.add_assoc]
        exact tile

variable {limits : Limits} {T : Table → Prop}

/-- The blocks of one kind are those of the fields of this kind that have values. -/
theorem collect (compiled : c.Compiled limits T)
    (distinct : (c.table.storedFields.map Field.id).Nodup) {kind : Bool}
    {keep : Slot × Value → Bool} (kept : ∀ e ∈ c.filled m, keep e = true ↔
      e.1.field.type.width?.isSome = kind) {bs : List Block}
    (carries : List.Forall₂ Carries ((c.filled m).filter keep) bs) :
    Collect c.table m kind bs := by
  have fields : bs.map Block.field = ((c.filled m).filter keep).map fun e => e.1.field :=
    (map_eq_map_of_forall₂ (carries.imp fun e b h => h.field.symm)).symm
  constructor
  · intro f
    rw [fields, List.mem_map]
    constructor
    · rintro ⟨⟨s, v⟩, mem, rfl⟩
      obtain ⟨mem, here⟩ := List.mem_filter.mp mem
      obtain ⟨hs, value⟩ := TableCodec.mem_filled.mp mem
      exact ⟨compiled.field_mem hs, IdMap.mem_ids_of_find? value, (kept _ mem).mp here⟩
    · rintro ⟨hf, present, width⟩
      obtain ⟨s, hs, rfl⟩ := compiled.exists_slot hf
      obtain ⟨v, value⟩ := IdMap.exists_of_mem_ids present
      have mem := TableCodec.mem_filled.mpr ⟨hs, value⟩
      exact ⟨(s, v), List.mem_filter.mpr ⟨mem, (kept _ mem).mpr width⟩, rfl⟩
  · have ids : bs.map (fun b => b.field.id) =
        (((c.filled m).filter keep).map Prod.fst).map fun s => s.field.id := by
      have := congrArg (List.map Field.id) fields
      rw [List.map_map, List.map_map] at this
      rw [List.map_map]
      exact this
    have sub : (((c.filled m).filter keep).map Prod.fst).Sublist c.slots :=
      (List.filter_sublist.map Prod.fst).trans (c.filled_sublist m)
    rw [ids]
    exact (compiled.ascending distinct).sublist (sub.map fun s : Slot => s.field.id)

end Block

/-- The entries of the index, number for number. -/
theorem RecordBuffer.Fitting.numberAt_entry {announced : Nat} {blocks : List (Int16 × Bytes)}
    (h : Fitting announced blocks) (version : Int16) {i : Nat} (hi : i < (index blocks).length) :
    (assemble announced version blocks).NumberAt (8 + 6 * i) 2
        (index blocks)[i].1.toUInt16.toNat ∧
      (assemble announced version blocks).NumberAt (8 + 6 * i + 2) 4 (index blocks)[i].2 := by
  have part := partAt_entry announced version hi
  rw [headerLength, entryLength, Nat.mul_comm] at part
  have position := part.right
  rw [BigEndian.size_encode] at position
  have inside := (h.mem_index_bounds (List.getElem_mem hi)).2
  exact ⟨⟨Nat.le_of_lt_succ (UInt16.toNat_lt _), part.left⟩,
    ⟨Nat.le_trans (Nat.le_of_lt inside) h.size_le, position⟩⟩

namespace TableCodec

variable {limits : Limits} {T : Table → Prop} {t : Table} {c : TableCodec} {m : IdMap Value}
  {bytes : Bytes} {blocks : List (Int16 × Bytes)}

/-- The index lists the numbers of the map. -/
theorem ids_index (admits : c.Admits m) (sorted : IdMap.Sorted m)
    (written : List.Forall₂ IsBlock (writingOrder (c.filled m)) blocks)
    (nodup : (blocks.map Prod.fst).Nodup) : IdMap.ids (RecordBuffer.index blocks) = m.ids := by
  have ascending := RecordBuffer.index_ascending nodup
  refine IdMap.Sorted.ids_eq (IdMap.sorted_iff.mpr ascending) sorted fun id => ?_
  rw [IdMap.ids, RecordBuffer.index_ids_perm.mem_iff, (ids_perm_of_written written).mem_iff,
    admits.mem_ids_iff]

/-- What a compiled codec encodes is in the wire format. -/
theorem Compiled.exists_wireFormat (compiled : c.Compiled limits T) (numbered : c.table.Numbered)
    (sorted : IdMap.Sorted m) (encoded : c.encode m = .ok bytes) :
    ∃ index fixed others, WireFormat c m bytes index fixed others := by
  have sound := compiled.sound numbered
  obtain ⟨admits, announced, blocks, written, fitting, rfl⟩ := laidOut_of_encode sound encoded
  have same : ∀ e ∈ c.filled m, e.1.operator.type.detach = e.1.field.type.detach :=
    fun e he => congrArg OperatorKey.type (compiled.types e.1 (mem_filled.mp he).1)
  have ids := ids_index admits sorted written fitting.nodup
  have entries : (RecordBuffer.index blocks).length = m.length := by
    simpa [IdMap.ids] using congrArg List.length ids
  have count : blocks.length = m.length := RecordBuffer.length_index.symm.trans entries
  -- The writer's blocks in their places, and the two kinds apart.
  obtain ⟨bs, carries, places, tile⟩ := Block.exists_tile written
    (fun e he => same e ((writingOrder_perm _).mem_iff.mp he))
    (RecordBuffer.partAt_data announced c.table.version blocks)
  have size : (assemble announced c.table.version blocks).size = _ := RecordBuffer.size_assemble
  rw [← size, RecordBuffer.dataStartFor, count, Nat.mul_comm] at tile
  obtain ⟨fixed, others, rfl, carriesFixed, carriesOthers⟩ := exists_append_of_forall₂ carries
  obtain ⟨length, version, number⟩ := RecordBuffer.partAt_header announced c.table.version blocks
  have length : (assemble announced c.table.version blocks).NumberAt 0 4
      (assemble announced c.table.version blocks).size := by
    rw [fitting.size_eq]
    exact ⟨fitting.size_le, length⟩
  refine ⟨RecordBuffer.index blocks, fixed, others, {
    length := length
    version := ⟨Nat.le_of_lt_succ (UInt16.toNat_lt _), version⟩
    count := ⟨count ▸ fitting.count_le, count ▸ number⟩
    entry := fun i hi => fitting.numberAt_entry c.table.version hi
    entries := entries
    ids := fun id => by rw [ids]
    ascending := RecordBuffer.index_ascending fitting.nodup
    found := ?_
    collectFixed := Block.collect compiled numbered.distinct ?_ carriesFixed
    collectOthers := Block.collect compiled numbered.distinct ?_ carriesOthers
    tile := tile
    payload := ?_ }⟩
  · intro b hb
    have place : (b.field.id, b.start) ∈ RecordBuffer.placed blocks := by
      rw [RecordBuffer.placed, ← places]
      exact List.mem_map_of_mem hb
    have nodup : (IdMap.ids (RecordBuffer.index blocks)).Nodup := ids ▸ sorted.nodup
    exact (IdMap.find?_eq_some_iff nodup).mpr (RecordBuffer.index_perm.mem_iff.mpr place)
  · intro e he
    rw [Operator.isFixed_of_type (same e he)]
  · intro e he
    rw [Operator.isFixed_of_type (same e he), Bool.not_eq_true']
  · intro b hb
    obtain ⟨⟨s, v⟩, he, carried⟩ := exists_left_of_mem carries hb
    obtain ⟨hs, value⟩ := mem_filled.mp ((writingOrder_perm _).mem_iff.mp he)
    have slot := (slot?_eq_some_iff sound.distinct).mpr ⟨hs, rfl⟩
    rw [carried.field]
    exact ⟨carried.fits, s.operator, v, congrArg (Option.map Slot.operator) slot, value,
      carried.payload⟩

/-- **The octets are exactly the documented wire format.** The codec is one that a registry gives,
and its table numbers the stored fields apart. -/
theorem wireFormat_of_encode (given : Registry.GivesCodec limits (fun _ => True) t c)
    (numbered : c.table.Numbered) (sorted : IdMap.Sorted m) (encoded : c.encode m = .ok bytes) :
    ∃ index fixed others, WireFormat c m bytes index fixed others :=
  (given.compiled nestedIn_true).inside.here.exists_wireFormat numbered sorted encoded

end TableCodec

namespace Household

/-- The octets of a person. -/
theorem wireFormat_values : ∃ bytes index fixed others, personCodec.encode values = .ok bytes ∧
    WireFormat personCodec values bytes index fixed others := by
  obtain ⟨bytes, encoded⟩ := encode_values
  obtain ⟨index, fixed, others, format⟩ := TableCodec.wireFormat_of_encode
    (givesCodec_person trivial) numbered_person sorted_values encoded
  exact ⟨bytes, index, fixed, others, encoded, format⟩

end Household

end RecordFormat
