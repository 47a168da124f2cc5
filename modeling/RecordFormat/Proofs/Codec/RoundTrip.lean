import RecordFormat.Proofs.Codec.Contents

/-!
# Round trips

A payload that an operator wrote is read back wherever it stands, as an equal value that is
written the same way (`Operator.readsBack`). The induction is on how values fit operators. Its
step for records is `TableCodec.exists_restored`: if the values of a map are read back, then
so is the map, from the buffer that its layout is.
-/

namespace RecordFormat

open Outcome
open Bytes (PartAt)
open Value (Equal EqualMaps Readable)

/-- The buffer is what the codec writes of the values that it reads there. -/
def TableCodec.Wrote (c : TableCodec) (b : RecordBuffer) : Prop :=
  ∃ n, c.decodeAll b = .ok n ∧ c.encode n = .ok b.bytes

/-- Reading back keeps `P`: a record over a buffer has it when the codec wrote the buffer, or
when the record had it that the buffer is of. -/
structure Record.Lasting (P : Record → Prop) : Prop where
  wrote : ∀ {codec : TableCodec} {b : RecordBuffer}, codec.Owns b → codec.Wrote b →
    P (Record.backed codec b)
  kept : ∀ {r : Record} {b : RecordBuffer}, P r → r.buffer = some b → P (Record.backed r.codec b)

theorem Record.lasting_true : Record.Lasting fun _ => True :=
  ⟨fun _ _ => trivial, fun _ _ => trivial⟩

/-- What reading a written value gives. -/
structure Operator.Returns (P : Record → Prop) (op : Operator) (v w : Value) : Prop where
  equal : Equal v w
  holds : op.Holds P w
  accepted : op.accepts w = true
  payload : ∀ p, op.payload v = .ok p → op.payload w = .ok p

/-- Wherever the payload stands, it is read as a value with `Q`. -/
def Operator.Reads (op : Operator) (p : Bytes) (Q : Value → Prop) : Prop :=
  ∀ bytes offset, PartAt bytes offset p → ∃ w, op.decode bytes offset p.size = .ok w ∧ Q w

/-- Payloads of up to `limit` octets are read back. -/
def Operator.ReadsBack (limit : Nat) (P : Record → Prop) (op : Operator) (v : Value) : Prop :=
  ∀ p, op.payload v = .ok p → p.size ≤ limit → p.size ≤ BigEndian.maximum 4 →
    op.Reads p (op.Returns P v)

namespace TableCodec

variable {P : Record → Prop} {c : TableCodec} {limit : Nat} {m n : IdMap Value}
  {b : RecordBuffer} {bytes : Bytes}

/-- The buffer has the fields of the map, and its values are read back. -/
structure Restored (P : Record → Prop) (c : TableCodec) (m : IdMap Value) (b : RecordBuffer)
    (n : IdMap Value) : Prop where
  decoded : c.decodeAll b = .ok n
  ids : ∀ id, id ∈ b.fieldIds ↔ id ∈ m.ids
  values : ∀ id s v, c.slot? id = some s → m.find? id = some v →
    ∃ w, n.find? id = some w ∧ s.operator.Returns P v w

namespace LaidOut

variable {announced : Nat} {blocks : List (Int16 × Bytes)}
  (out : c.LaidOut m b.bytes announced blocks)
include out

/-- The entries of the buffer are the index of the blocks. -/
theorem entries_eq : b.entries = RecordBuffer.index blocks := by
  rw [RecordBuffer.entries_eq, ← out.fitting.entriesFrom_assemble c.table.version, ← out.octets]
  rfl

/-- The block of every field is where the index says. -/
theorem exists_partAt (sound : c.Sound limit) {s : Slot} {id : Int16} {offset : Nat}
    (slot : c.slot? id = some s) (found : b.locate? id = some offset) :
    ∃ v p, m.find? id = some v ∧ s.operator.payload v = .ok p ∧ s.operator.Frames p ∧
      PartAt b.bytes offset (s.operator.framed p) := by
  have entry := RecordBuffer.locate?_eq_some_iff.mp found
  rw [out.entries_eq] at entry
  obtain ⟨block, mem, part⟩ := RecordBuffer.partAt_of_mem_index announced c.table.version entry
  rw [← out.octets] at part
  obtain ⟨⟨t, v⟩, here, ids, block⟩ := exists_left_of_mem out.written mem
  obtain ⟨known, value⟩ := mem_filled.mp ((writingOrder_perm _).mem_iff.mp here)
  obtain rfl : t = s := by
    have own := (slot?_eq_some_iff sound.distinct).mpr ⟨known, ids.symm⟩
    rw [slot] at own
    exact (Option.some.inj own).symm
  rcases Operator.block_eq_ok_iff.mp block with ⟨p, payload, fits, eq⟩
  simp only [] at eq part
  rw [eq] at part
  rw [← id_of_slot? slot]
  exact ⟨v, p, value, payload, .of_block payload fits, part⟩

/-- The fields of the buffer are those of the map. -/
theorem mem_fieldIds (admits : c.Admits m) {id : Int16} :
    id ∈ b.fieldIds ↔ id ∈ m.ids := by
  rw [RecordBuffer.fieldIds, out.entries_eq, RecordBuffer.index_ids_perm.mem_iff,
    (ids_perm_of_written out.written).mem_iff, admits.mem_ids_iff]

end LaidOut

/-- **A layout is a buffer from which the map is read back.** -/
theorem exists_restored (sound : c.Sound limit) (admits : c.Admits m)
    (laid : c.layout (c.filled m) = .ok bytes) (small : bytes.size ≤ limit)
    (back : ∀ s v, (s, v) ∈ c.filled m → s.operator.ReadsBack limit P v) :
    ∃ b n, b.bytes = bytes ∧ c.Restored P m b n := by
  obtain ⟨announced, blocks, out⟩ := exists_laidOut sound laid
  let b : RecordBuffer := ⟨bytes, out.defect?_eq_none⟩
  have here : c.LaidOut m b.bytes announced blocks := out
  have ids : ∀ id, id ∈ b.fieldIds ↔ id ∈ m.ids := fun id => here.mem_fieldIds admits
  have read : ∀ id s offset, c.slot? id = some s → b.locate? id = some offset →
      ∃ v w, m.find? id = some v ∧ s.read b offset = .ok w ∧ s.operator.Returns P v w := by
    intro id s offset slot found
    obtain ⟨v, p, value, payload, frames, part⟩ := here.exists_partAt sound slot found
    obtain ⟨span, inside⟩ := Slot.span_of_partAt part frames
    have within := inside.size_le
    have member : (s, v) ∈ c.filled m :=
      mem_filled.mpr ⟨mem_of_slot? slot, by rw [id_of_slot? slot, value]⟩
    have bound : p.size ≤ b.bytes.size := by omega
    obtain ⟨w, decoded, returns⟩ := back s v member p payload (Nat.le_trans bound small)
      (Nat.le_trans bound out.size_le) b.bytes _ inside
    exact ⟨v, w, value, bind_eq_ok_iff.mpr ⟨_, span, decoded⟩, returns⟩
  obtain ⟨n, decoded⟩ := exists_decodeAll fun id s offset slot found => by
    obtain ⟨v, w, -, read, -⟩ := read id s offset slot found
    exact ⟨w, read⟩
  refine ⟨b, n, rfl, decoded, ids, ?_⟩
  intro id s v slot value
  obtain ⟨offset, found⟩ := Option.isSome_iff_exists.mp
    (RecordBuffer.contains_iff.mpr ((ids id).mpr (IdMap.mem_ids_of_find? value)))
  obtain ⟨v', w, value', read, returns⟩ := read id s offset slot found
  rw [value] at value'
  cases value'
  exact ⟨w, (find?_of_decodeAll decoded).mpr ⟨s, offset, slot, found, read⟩, returns⟩

theorem encode_eq_ok_iff : c.encode m = .ok bytes ↔
    c.Admits m ∧ c.layout (c.filled m) = .ok bytes := by
  rw [encode, bind_eq_ok_iff]
  simp only [contents_eq_ok_iff, RecordError.lift, mapError_eq_ok_iff]
  constructor
  · rintro ⟨cs, ⟨admits, rfl⟩, laid⟩
    exact ⟨admits, laid⟩
  · rintro ⟨admits, laid⟩
    exact ⟨_, ⟨admits, rfl⟩, laid⟩

/-- Writing values that have the same payloads gives the same octets. -/
theorem layout_congr {cs ds : List (Slot × Value)} (pairs : List.Forall₂ (fun e f => f.1 = e.1 ∧
      ∀ p, e.1.operator.payload e.2 = .ok p → e.1.operator.payload f.2 = .ok p) cs ds)
    (laid : c.layout cs = .ok bytes) : c.layout ds = .ok bytes := by
  obtain ⟨k, blocks, length, within, fits, written, rfl⟩ := layout_eq_ok_iff.mp laid
  rcases layoutLength_eq_ok_iff.mp length with ⟨sizes, announced, rfl⟩
  -- Every content has a payload, because it has a block.
  have payloads : ∀ e ∈ cs, ∃ p, e.1.operator.payload e.2 = .ok p := by
    intro e he
    obtain ⟨block, -, -, written⟩ :=
      exists_right_of_mem written ((writingOrder_perm cs).mem_iff.mpr he)
    obtain ⟨p, payload, -, -⟩ := Operator.block_eq_ok_iff.mp written
    exact ⟨p, payload⟩
  have pairs := forall₂_imp_of_mem pairs (S := fun e f => f.1 = e.1 ∧
      ∃ p, e.1.operator.payload e.2 = .ok p ∧ e.1.operator.payload f.2 = .ok p)
    fun e he f _ hf => by
      obtain ⟨p, payload⟩ := payloads e he
      exact ⟨hf.1, p, payload, hf.2 p payload⟩
  have slots : ds.map Prod.fst = cs.map Prod.fst :=
    (map_eq_map_of_forall₂ (pairs.imp fun e f h => h.1.symm)).symm
  have order : List.Forall₂ (fun e f => f.1 = e.1 ∧
      ∃ p, e.1.operator.payload e.2 = .ok p ∧ e.1.operator.payload f.2 = .ok p)
      (writingOrder cs) (writingOrder ds) := by
    refine List.rel_append (List.rel_filter ?_ pairs) (List.rel_filter ?_ pairs)
    · intro e f h
      simp only [h.1]
    · intro e f h
      simp only [h.1]
  refine layout_eq_ok_iff.mpr ⟨_, blocks, ?_, within, fits, ?_, rfl⟩
  · refine layoutLength_eq_ok_iff.mpr ⟨sizes, ?_, ?_⟩
    · refine forall₂_of_common (fun e f size same announced => ?_) pairs announced
      obtain ⟨slot, p, before, after⟩ := same
      rw [Operator.size_of_payload before] at announced
      rw [slot, Operator.size_of_payload after, announced]
    · have widths := congrArg
        (List.map fun s : Slot => RecordBuffer.entryLength + s.operator.lengthWidth) slots
      rw [List.map_map, List.map_map] at widths
      exact congrArg (fun w => RecordBuffer.headerLength + total w + total sizes) widths.symm
  · refine forall₂_of_common (fun e f block same written => ?_) order written
    obtain ⟨slot, p, before, after⟩ := same
    rcases Operator.block_eq_ok_iff.mp written.2 with ⟨q, payload, frames, eq⟩
    rw [before, Except.ok.injEq] at payload
    subst payload
    refine ⟨by rw [slot]; exact written.1, ?_⟩
    rw [slot]
    exact Operator.block_eq_ok_iff.mpr ⟨p, after, frames, eq⟩

namespace Restored

theorem ids_eq (h : c.Restored P m b n) (admits : c.Admits m) {id : Int16} :
    id ∈ n.ids ↔ id ∈ m.ids := by
  rw [mem_ids_of_decodeAll h.decoded, h.ids]
  constructor
  · rintro ⟨-, present⟩
    exact present
  · intro present
    exact ⟨admits.known id present, present⟩

theorem equal (h : c.Restored P m b n) (admits : c.Admits m) (sorted : IdMap.Sorted m) :
    EqualMaps m n where
  ids := sorted.ids_eq (sorted_of_decodeAll h.decoded) fun _ => (h.ids_eq admits).symm
  values i v w hv hw := by
    obtain ⟨s, slot⟩ := Option.isSome_iff_exists.mp (admits.known i (IdMap.mem_ids_of_find? hv))
    obtain ⟨w', found, returns⟩ := h.values i s v slot hv
    rw [hw] at found
    cases found
    exact returns.equal

/-- A value that was read is that of a value that was written. -/
theorem returns (h : c.Restored P m b n) (admits : c.Admits m) {id : Int16} {s : Slot}
    {w : Value} (slot : c.slot? id = some s) (found : n.find? id = some w) :
    ∃ v, m.find? id = some v ∧ s.operator.Returns P v w := by
  obtain ⟨v, value⟩ := IdMap.exists_of_mem_ids ((h.ids_eq admits).mp (IdMap.mem_ids_of_find? found))
  obtain ⟨w', found', returns⟩ := h.values id s v slot value
  rw [found] at found'
  cases found'
  exact ⟨v, value, returns⟩

theorem holdsAll (h : c.Restored P m b n) (admits : c.Admits m) : c.HoldsAll P n :=
  fun _ _ _ found slot => (h.returns admits slot found).choose_spec.2.holds

theorem admits (h : c.Restored P m b n) (admits : c.Admits m) (distinct : c.DistinctIds) :
    c.Admits n where
  known id present := admits.known id ((h.ids_eq admits).mp present)
  accepted s hs w found := by
    have slot := (slot?_eq_some_iff distinct).mpr ⟨hs, rfl⟩
    exact (h.returns admits slot found).choose_spec.2.accepted
  required s hs required := (h.ids_eq admits).mpr (admits.required s hs required)

/-- What was read back is written the same way. -/
theorem layout (h : c.Restored P m b n) (admits : c.Admits m) (distinct : c.DistinctIds)
    (laid : c.layout (c.filled m) = .ok bytes) : c.layout (c.filled n) = .ok bytes := by
  refine layout_congr ?_ laid
  have slots : List.Forall₂ (fun s t => s = t ∧ s ∈ c.slots) c.slots c.slots :=
    List.forall₂_same.mpr fun s hs => ⟨rfl, hs⟩
  refine List.rel_filterMap ?_ slots
  rintro s _ ⟨rfl, hs⟩
  have slot := (slot?_eq_some_iff distinct).mpr ⟨hs, rfl⟩
  simp only []
  cases value : m.find? s.field.id with
  | none =>
      have absent := IdMap.find?_eq_none_iff.mp value
      rw [← h.ids_eq admits] at absent
      rw [IdMap.find?_eq_none_iff.mpr absent]
      exact .none
  | some v =>
      obtain ⟨w, found, returns⟩ := h.values _ s v slot value
      rw [found]
      exact .some ⟨rfl, returns.payload⟩

/-- A map that is restored is encoded as before. -/
theorem encode (h : c.Restored P m b n) (distinct : c.DistinctIds)
    (encoded : c.encode m = .ok bytes) : c.encode n = .ok bytes := by
  rcases encode_eq_ok_iff.mp encoded with ⟨admits, laid⟩
  exact encode_eq_ok_iff.mpr ⟨h.admits admits distinct, h.layout admits distinct laid⟩

/-- The buffer of a map that was encoded is one that the codec wrote. -/
theorem wrote (h : c.Restored P m b n) (distinct : c.DistinctIds)
    (encoded : c.encode m = .ok b.bytes) : c.Wrote b :=
  ⟨n, h.decoded, h.encode distinct encoded⟩

theorem checkBuffer (h : c.Restored P m b n) (admits : c.Admits m) (sound : c.Sound limit) :
    c.checkBuffer b = .ok () := by
  apply checkBuffer_eq_ok_iff.mpr
  intro f hf
  obtain ⟨s, hs, rfl⟩ := sound.required f hf
  have required := (List.mem_filter.mp (List.mem_filter.mp hf).1).2
  exact (h.ids _).mpr (admits.required s hs required)

theorem owns (h : c.Restored P m b n) (admits : c.Admits m) (sound : c.Sound limit)
    (small : b.size ≤ c.limits.maxRecordSize) : c.Owns b where
  known id present := admits.known id ((h.ids id).mp present)
  complete := h.checkBuffer admits sound
  small := small

end Restored

end TableCodec

/-! ## Groups and lists -/

namespace Operator

variable {P : Record → Prop} {limit : Nat} {bytes : Bytes} {offset : Nat}

/-- A group is read as a record over its octets. -/
theorem decode_group {codec : TableCodec} {b : RecordBuffer} (part : PartAt bytes offset b.bytes)
    (small : b.size ≤ codec.limits.maxRecordSize) (complete : codec.checkBuffer b = .ok ()) :
    (group codec).decode bytes offset b.bytes.size = .ok (.group (Record.backed codec b)) :=
  decode_group_eq_ok_iff.mpr ⟨b, part.slice_eq, small, complete, rfl⟩

/-- What a record over a buffer needs to be complete, when the table finds its own fields. -/
theorem isComplete_backed {r : Record} {b : RecordBuffer} (complete : r.isComplete = true)
    (checked : r.codec.checkBuffer b = .ok ()) : (Record.backed r.codec b).isComplete = true := by
  unfold Record.isComplete at complete ⊢
  rw [List.all_eq_true] at complete ⊢
  intro f hf
  have own := complete f hf
  have buffered := TableCodec.checkBuffer_eq_ok_iff.mp checked f hf
  simp only [Record.isSet, Bool.and_eq_true] at own ⊢
  refine ⟨own.1, ?_⟩
  have contains : (Record.backed r.codec b).isBuffered f.id = true :=
    RecordBuffer.contains_iff.mpr buffered
  rw [contains]
  simp [Record.isCleared, Record.backed, Record.empty]

/-- A record with equal values over a buffer of the same octets is what is read. -/
theorem returns_backed {r : Record} {m n : IdMap Value} {b : RecordBuffer}
    (read : r.values = .ok m) (decoded : r.codec.decodeAll b = .ok n) (equal : EqualMaps m n)
    (holds : r.codec.HoldsAll P n) (here : P (Record.backed r.codec b))
    (complete : (Record.backed r.codec b).isComplete = true) (octets : r.toBytes = .ok b.bytes) :
    (group r.codec).Returns P (.group r) (.group (Record.backed r.codec b)) where
  equal := .of_maps rfl read ((Record.values_backed _ b).trans decoded) equal
  holds := .group here ((Record.values_backed _ b).trans decoded)
    (fun _ _ found => equal.symm.readable found) holds
  accepted := by
    rw [accepts, complete]
    simp [Record.backed, Record.empty]
  payload p written := by
    rcases payload_group_eq_ok_iff.mp written with ⟨s, same, -, written⟩
    cases same
    rw [octets] at written
    exact payload_group_eq_ok_iff.mpr
      ⟨_, rfl, rfl, (Record.toBytes_of_clean rfl rfl).trans written⟩

theorem readsBack_group {r : Record} {m : IdMap Value} (lasting : Record.Lasting P) (here : P r)
    (read : r.values = .ok m) (inside : ∀ i v, m.find? i = some v → Readable v)
    (holds : r.codec.HoldsAll P m) (sound : r.codec.Sound limit) (complete : r.isComplete = true)
    (back : ∀ s v, s ∈ r.codec.slots → m.find? s.field.id = some v →
      s.operator.accepts v = true → s.operator.ReadsBack limit P v) :
    (group r.codec).ReadsBack limit P (.group r) := by
  intro p written small _ bytes offset part
  obtain ⟨r', same, -, written⟩ := payload_group_eq_ok_iff.mp written
  cases same
  have octets := written
  rcases Record.toBytes_eq_ok_iff.mp written with
    ⟨b, buffered, clean, rfl⟩ | ⟨dirty, cs, contents, laid⟩
  -- A record without changes is its buffer, which need not be one that its codec wrote.
  · have decoded := Record.values_of_clean buffered clean
    rw [read] at decoded
    obtain ⟨-, pending, -⟩ := Record.isDirty_eq_false_iff.mp clean
    have checked : r.codec.checkBuffer b = .ok () :=
      TableCodec.checkBuffer_eq_ok_iff.mpr fun f hf => by
        unfold Record.isComplete at complete
        have own := List.all_eq_true.mp complete f hf
        simp only [Record.isSet, Record.isStaged, pending, Record.isBuffered, buffered,
          Option.any_some, RecordBuffer.contains_iff, IdMap.contains, List.any_nil,
          Bool.false_or, Bool.and_eq_true] at own
        exact own.2.2
    refine ⟨_, decode_group part (Nat.le_trans small sound.limit_le) checked, ?_⟩
    exact returns_backed read decoded.symm (.refl inside) holds (lasting.kept here buffered)
      (isComplete_backed complete checked) octets
  -- Otherwise its values are laid out now, and the buffer is what they are restored from.
  · rcases bind_eq_ok_iff.mp contents with ⟨m', read', contents⟩
    rw [read] at read'
    cases read'
    obtain ⟨admits, rfl⟩ := TableCodec.contents_eq_ok_iff.mp contents
    obtain ⟨b, n, rfl, restored⟩ := TableCodec.exists_restored sound admits laid small
      fun s v member => by
        obtain ⟨hs, value⟩ := TableCodec.mem_filled.mp member
        exact back s v hs value (admits.accepted s hs v value)
    have owns := restored.owns admits sound (Nat.le_trans small sound.limit_le)
    have encoded := TableCodec.encode_eq_ok_iff.mpr ⟨admits, laid⟩
    refine ⟨_, decode_group part owns.small owns.complete, ?_⟩
    exact returns_backed read restored.decoded
      (restored.equal admits (Record.sorted_of_values read)) (restored.holdsAll admits)
      (lasting.wrote owns (restored.wrote sound.distinct encoded))
      (isComplete_backed complete owns.complete) octets

/-- The payloads of a list's elements. -/
theorem exists_payloads {element : Operator} {type : String} : ∀ {items : List Value}
    {blocks : List Bytes},
    List.Forall₂ (fun x block => element.block type x = .ok block) items blocks →
      ∃ payloads, blocks = payloads.map element.framed ∧ (∀ p ∈ payloads, element.Frames p) ∧
        List.Forall₂ (fun x p => element.payload x = .ok p) items payloads
  | _, _, .nil => ⟨[], rfl, nofun, .nil⟩
  | _, _, .cons here rest => by
      rcases block_eq_ok_iff.mp here with ⟨p, payload, fits, rfl⟩
      obtain ⟨ps, rfl, frames, pairs⟩ := exists_payloads rest
      exact ⟨p :: ps, rfl, List.forall_mem_cons.mpr ⟨.of_block payload fits, frames⟩,
        .cons payload pairs⟩

/-- A list is read where its elements are. -/
theorem reads_list {element : Operator} {maxElements : Nat} {items : List Value}
    {payloads : List Bytes} {R : Value → Value → Prop} (frames : ∀ p ∈ payloads, element.Frames p)
    (few : payloads.length ≤ maxElements)
    (fits : (listOf element payloads).size ≤ BigEndian.maximum 4)
    (each : List.Forall₂ (fun x p => element.Reads p (R x)) items payloads) :
    (list element maxElements).Reads (listOf element payloads) fun w =>
      ∃ ws, w = .list ws ∧ List.Forall₂ R items ws := by
  intro bytes offset part
  have count := each.length_eq
  obtain ⟨ws, decoded, length, related⟩ := exists_decode_list
    (R := fun index w => ∀ v, items[index]? = some v → R v w)
    (elementCount_of_partAt part frames few fits) (checkFilled_listOf frames) <| by
      intro index bound
      obtain ⟨position, span, inside⟩ := elementSpan_of_partAt part frames fits bound
      have value : index < items.length := count ▸ bound
      obtain ⟨w, decoded, related⟩ := each.get value bound bytes position inside
      refine ⟨w, bind_eq_ok_iff.mpr ⟨_, span, decoded⟩, ?_⟩
      intro v hv
      rw [List.getElem?_eq_getElem value] at hv
      cases hv
      exact related
  refine ⟨.list ws, decoded, ws, rfl, List.forall₂_iff_get.mpr ⟨count.trans length.symm, ?_⟩⟩
  intro i hi hw
  exact related i hw _ (List.getElem?_eq_getElem hi)

/-- An element's payload is no longer than the list. -/
theorem size_le_of_mem_payloads {element : Operator} {payloads : List Bytes} {p : Bytes}
    (frames : ∀ p ∈ payloads, element.Frames p)
    (fits : (listOf element payloads).size ≤ BigEndian.maximum 4) (mem : p ∈ payloads) :
    p.size ≤ (listOf element payloads).size := by
  obtain ⟨i, bound, rfl⟩ := List.mem_iff_getElem.mp mem
  obtain ⟨_, -, own⟩ := elementSpan_of_partAt (Bytes.partAt_self _) frames fits bound
  exact Nat.le_trans (Nat.le_add_left _ _) own.size_le

theorem readsBack_list {element : Operator} {maxElements : Nat} {items : List Value}
    (few : items.length ≤ maxElements) (back : ∀ v ∈ items, element.ReadsBack limit P v) :
    (list element maxElements).ReadsBack limit P (.list items) := by
  intro p written small fits bytes offset part
  obtain ⟨items', blocks, same, -, blocks_eq, rfl⟩ := payload_list_eq_ok_iff.mp written
  cases same
  obtain ⟨payloads, rfl, frames, pairs⟩ := exists_payloads blocks_eq
  have each : List.Forall₂ (fun x p => element.Reads p (element.Returns P x)) items payloads :=
    forall₂_imp_of_mem pairs fun x hx p hp payload => by
      have within := size_le_of_mem_payloads frames fits hp
      exact back x hx p payload (Nat.le_trans within small) (Nat.le_trans within fits)
  obtain ⟨_, decoded, ws, rfl, returns⟩ :=
    reads_list frames (pairs.length_eq ▸ few) fits each bytes offset part
  have length := returns.length_eq
  refine ⟨.list ws, decoded, Equal.list_iff.mpr (returns.imp fun _ _ h => h.equal),
    .list fun w hw => ?_, ?_, ?_⟩
  · exact (exists_left_of_mem returns hw).choose_spec.2.holds
  · rw [accepts, Bool.and_eq_true, List.all_eq_true, decide_eq_true_eq, ← length]
    exact ⟨few, fun w hw => (exists_left_of_mem returns hw).choose_spec.2.accepted⟩
  · intro p again
    rw [written, Except.ok.injEq] at again
    subst again
    refine payload_list_eq_ok_iff.mpr ⟨ws, _, rfl, length ▸ few, ?_, rfl⟩
    refine forall₂_of_common (fun x w block returns written => ?_) returns blocks_eq
    rcases block_eq_ok_iff.mp written with ⟨q, payload, rest⟩
    exact block_eq_ok_iff.mpr ⟨q, returns.payload q payload, rest⟩

/-- **Reading gives back what was written**, wherever it stands. -/
theorem readsBack {op : Operator} {v : Value} (lasting : Record.Lasting P) (holds : op.Holds P v)
    (sound : op.Everywhere (TableCodec.Sound limit)) (accepted : op.accepts v = true) :
    op.ReadsBack limit P v := by
  induction holds with
  | fixed kind range s =>
      intro p written _ _ bytes offset part
      exact ⟨_, decode_fixed part written, .scalar s, .fixed kind range s, accepted, fun _ h => h⟩
  | string s =>
      intro p written _ _ bytes offset part
      exact ⟨_, decode_string part written, .scalar s, .string s, accepted, fun _ h => h⟩
  | binary s =>
      intro p written _ _ bytes offset part
      exact ⟨_, decode_binary part written, .scalar s, .binary s, accepted, fun _ h => h⟩
  | @list element maxElements items holds ih =>
      rw [accepts, Bool.and_eq_true, List.all_eq_true, decide_eq_true_eq] at accepted
      exact readsBack_list accepted.1 fun v hv => ih v hv sound.element (accepted.2 v hv)
  | @group r m here read inside holds ih =>
      have codec : r.codec.Everywhere (TableCodec.Sound limit) := sound
      rw [accepts, Bool.and_eq_true] at accepted
      apply readsBack_group lasting here read inside holds codec.here accepted.2
      intro s v hs value accepted
      have slot := (TableCodec.slot?_eq_some_iff codec.here.distinct).mpr ⟨hs, rfl⟩
      exact ih _ v s value slot (codec.slot hs) accepted

end Operator

/-! ## Records -/

namespace TableCodec

variable {P : Record → Prop} {c : TableCodec} {limit : Nat} {m : IdMap Value} {bytes : Bytes}

/-- What is encoded is made of blocks that fit together. -/
theorem laidOut_of_encode (sound : c.Sound limit) (encoded : c.encode m = .ok bytes) :
    c.Admits m ∧ ∃ announced blocks, c.LaidOut m bytes announced blocks := by
  obtain ⟨admits, laid⟩ := encode_eq_ok_iff.mp encoded
  exact ⟨admits, exists_laidOut sound laid⟩

/-- What is encoded is a buffer. -/
theorem exists_buffer_of_encode (sound : c.Sound limit) (encoded : c.encode m = .ok bytes) :
    ∃ b : RecordBuffer, b.bytes = bytes := by
  obtain ⟨-, _, blocks, out⟩ := laidOut_of_encode sound encoded
  exact ⟨⟨bytes, out.defect?_eq_none⟩, rfl⟩

/-- What was encoded is restored. -/
theorem restored_of_encode (lasting : Record.Lasting P) (sound : c.Everywhere (Sound limit))
    (holds : c.HoldsAll P m) (encoded : c.encode m = .ok bytes) (small : bytes.size ≤ limit) :
    ∃ b n, b.bytes = bytes ∧ c.Restored P m b n := by
  obtain ⟨admits, laid⟩ := encode_eq_ok_iff.mp encoded
  apply exists_restored sound.here admits laid small
  intro s v member
  obtain ⟨hs, value⟩ := mem_filled.mp member
  have slot := (slot?_eq_some_iff sound.here.distinct).mpr ⟨hs, rfl⟩
  exact Operator.readsBack lasting (holds _ v s value slot) (sound.slot hs)
    (admits.accepted s hs v value)

theorem size_of_encode (encoded : c.encode m = .ok bytes) :
    bytes.size ≤ c.limits.maxRecordSize := by
  rcases encode_eq_ok_iff.mp encoded with ⟨-, laid⟩
  obtain ⟨announced, blocks, whole, within, -, -, rfl⟩ := exists_blocks_of_layout laid
  rwa [RecordBuffer.size_assemble, ← whole]

end TableCodec

end RecordFormat
