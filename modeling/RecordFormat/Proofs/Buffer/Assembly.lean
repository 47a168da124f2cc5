import RecordFormat.Proofs.Buffer.Lookup

/-!
# Assembled buffers

`assemble` puts header, index and blocks together. When the blocks have numbers of their own,
are not empty, are as long in all as was announced, and the whole fits its length slots, the
result is a consistent buffer (`defect?_assemble`), its entries are the sorted `index`, and every
block stands where the index says (`partAt_of_mem_index`).
-/

namespace RecordFormat.RecordBuffer

open Bytes (PartAt)

/-- Where the data of `blocks` begins. -/
def dataStartFor (blocks : List (Int16 × Bytes)) : Nat :=
  headerLength + blocks.length * entryLength

/-- Numbers and positions of the blocks, in the order of writing. -/
def placed (blocks : List (Int16 × Bytes)) : List (Int16 × Nat) :=
  (blocks.map Prod.fst).zip (positions (dataStartFor blocks) (blocks.map Prod.snd))

/-- Numbers and positions of the blocks, in the order of the numbers. -/
def index (blocks : List (Int16 × Bytes)) : List (Int16 × Nat) :=
  (placed blocks).mergeSort fun a b => a.1 ≤ b.1

/-- The octets of an index entry. -/
def entryOctets (e : Int16 × Nat) : Bytes :=
  BigEndian.encode 2 e.1.toUInt16.toNat ++ BigEndian.encode 4 e.2

variable {announced : Nat} {version : Int16} {blocks : List (Int16 × Bytes)}

theorem assemble_eq : assemble announced version blocks =
    BigEndian.encode 4 announced ++
      BigEndian.encode 2 version.toUInt16.toNat ++ BigEndian.encode 2 blocks.length ++
      Bytes.join ((index blocks).map entryOctets) ++ Bytes.join (blocks.map Prod.snd) := rfl

@[simp] theorem size_entryOctets (e : Int16 × Nat) : (entryOctets e).size = entryLength := by
  simp [entryOctets, ByteArray.size_append, entryLength]

/-! ## The index -/

theorem map_fst_placed : (placed blocks).map Prod.fst = blocks.map Prod.fst :=
  List.map_fst_zip (by simp)

theorem index_perm : (index blocks).Perm (placed blocks) := List.mergeSort_perm _ _

@[simp] theorem length_index : (index blocks).length = blocks.length := by
  rw [index_perm.length_eq, ← List.length_map Prod.fst, map_fst_placed, List.length_map]

theorem index_ids_perm : ((index blocks).map Prod.fst).Perm (blocks.map Prod.fst) :=
  map_fst_placed ▸ index_perm.map Prod.fst

/-- Numbers that are all different are strictly ascending once they are sorted. -/
theorem ascending_mergeSort {α : Type} (key : α → Int16) {items : List α}
    (nodup : (items.map key).Nodup) :
    ((items.mergeSort fun a b => key a ≤ key b).map key).Pairwise (· < ·) := by
  have sorted : (items.mergeSort fun a b => key a ≤ key b).Pairwise fun a b => key a ≤ key b := by
    refine (List.pairwise_mergeSort ?_ ?_ items).imp fun h => of_decide_eq_true h
    · intro a b c ab bc
      exact decide_eq_true (Int16.le_trans (of_decide_eq_true ab) (of_decide_eq_true bc))
    · intro a b
      simpa using Int16.le_total (key a) (key b)
  have apart : ((items.mergeSort fun a b => key a ≤ key b).map key).Pairwise (· ≠ ·) :=
    ((List.mergeSort_perm items _).map key).symm.nodup nodup
  rw [List.pairwise_map] at apart ⊢
  exact sorted.imp₂ (fun _ _ le ne => Int16.lt_of_le_of_ne le ne) apart

theorem index_ascending (nodup : (blocks.map Prod.fst).Nodup) :
    ((index blocks).map Prod.fst).Pairwise (· < ·) :=
  ascending_mergeSort Prod.fst (map_fst_placed ▸ nodup)

/-- A position in the index is that of a block. -/
theorem mem_index {e : Int16 × Nat} (h : e ∈ index blocks) :
    ∃ block, (e.1, block) ∈ blocks ∧
      (e.2, block) ∈ (positions (dataStartFor blocks) (blocks.map Prod.snd)).zip
        (blocks.map Prod.snd) := by
  obtain ⟨i, hi, rfl⟩ := List.mem_iff_getElem.mp (index_perm.mem_iff.mp h)
  have bound : i < blocks.length := by simpa [placed] using hi
  refine ⟨blocks[i].2, ?_, ?_⟩
  · simp only [placed, List.getElem_zip, List.getElem_map]
    exact List.getElem_mem bound
  · simp only [placed, List.getElem_zip]
    exact List.mem_iff_getElem.mpr ⟨i, by simpa using bound, by simp⟩

/-! ## What stands where -/

private theorem size_of_mem_entries : ∀ part ∈ (index blocks).map entryOctets,
    part.size = entryLength := by
  intro part h
  obtain ⟨e, -, rfl⟩ := List.mem_map.mp h
  exact size_entryOctets e

private theorem size_index_octets :
    (Bytes.join ((index blocks).map entryOctets)).size = blocks.length * entryLength := by
  rw [Bytes.size_join_of_width size_of_mem_entries, List.length_map, length_index]

theorem size_assemble :
    (assemble announced version blocks).size =
      dataStartFor blocks + (Bytes.join (blocks.map Prod.snd)).size := by
  rw [assemble_eq]
  simp only [ByteArray.size_append, BigEndian.size_encode, size_index_octets, dataStartFor,
    headerLength]

/-- The header: announced length, version and number of blocks. -/
theorem partAt_header (announced : Nat) (version : Int16) (blocks : List (Int16 × Bytes)) :
    PartAt (assemble announced version blocks) 0 (BigEndian.encode 4 announced) ∧
      PartAt (assemble announced version blocks) 4 (BigEndian.encode 2 version.toUInt16.toNat) ∧
      PartAt (assemble announced version blocks) 6 (BigEndian.encode 2 blocks.length) := by
  have part := Bytes.partAt_self (assemble announced version blocks)
  rw [assemble_eq] at part ⊢
  have header := part.left.left
  have count := header.right
  have version := header.left.right
  simp only [ByteArray.size_append, BigEndian.size_encode, Nat.zero_add] at count version
  exact ⟨header.left.left, version, count⟩

/-- The blocks follow the index. -/
theorem partAt_data (announced : Nat) (version : Int16) (blocks : List (Int16 × Bytes)) :
    PartAt (assemble announced version blocks) (dataStartFor blocks)
      (Bytes.join (blocks.map Prod.snd)) := by
  have part := Bytes.partAt_self (assemble announced version blocks)
  rw [assemble_eq] at part
  have here := part.right
  simp only [ByteArray.size_append, BigEndian.size_encode, size_index_octets, Nat.zero_add]
    at here
  exact here

/-- Every block stands at its position. -/
theorem partAt_blocks (announced : Nat) (version : Int16) (blocks : List (Int16 × Bytes)) :
    List.Forall₂ (PartAt (assemble announced version blocks))
    (positions (dataStartFor blocks) (blocks.map Prod.snd)) (blocks.map Prod.snd) :=
  (partAt_data announced version blocks).join

/-- Every entry stands at its multiple of the entry length. -/
theorem partAt_entry (announced : Nat) (version : Int16) {i : Nat}
    (hi : i < (index blocks).length) :
    PartAt (assemble announced version blocks) (headerLength + i * entryLength)
      (entryOctets (index blocks)[i]) := by
  have part := Bytes.partAt_self (assemble announced version blocks)
  rw [assemble_eq] at part
  have entries := part.left.right
  simp only [ByteArray.size_append, BigEndian.size_encode, Nat.zero_add] at entries
  change PartAt _ headerLength _ at entries
  have spot : (positions headerLength ((index blocks).map entryOctets))[i]? =
      some (headerLength + i * entryLength) :=
    Bytes.getElem?_positions size_of_mem_entries (by simpa using hi)
  rcases List.getElem?_eq_some_iff.mp spot with ⟨bound, eq⟩
  have here := entries.join.get (i := i) bound (by simpa using hi)
  rw [assemble_eq]
  simpa [eq] using here

/-- **Blocks are found through the index.** -/
theorem partAt_of_mem_index (announced : Nat) (version : Int16) {e : Int16 × Nat}
    (he : e ∈ index blocks) :
    ∃ block, (e.1, block) ∈ blocks ∧ PartAt (assemble announced version blocks) e.2 block := by
  obtain ⟨block, mem, spot⟩ := mem_index he
  obtain ⟨i, hi, eq⟩ := List.mem_iff_getElem.mp spot
  rw [List.getElem_zip] at eq
  have here := (partAt_blocks announced version blocks).get (i := i)
    (by simpa using hi) (by simpa using hi)
  obtain ⟨offset, rfl⟩ := Prod.mk.inj eq
  rw [← offset]
  exact ⟨_, mem, here⟩

/-! ## Consistency -/

/-- What the announced length and the blocks must be for the result to be a buffer. -/
structure Fitting (announced : Nat) (blocks : List (Int16 × Bytes)) : Prop where
  nodup : (blocks.map Prod.fst).Nodup
  nonempty : ∀ b ∈ blocks, 0 < b.2.size
  count_le : blocks.length ≤ BigEndian.maximum 2
  announced_eq : announced = dataStartFor blocks + (Bytes.join (blocks.map Prod.snd)).size
  size_le : announced ≤ BigEndian.maximum 4

namespace Fitting

variable (h : Fitting announced blocks)
include h

/-- The whole is as long as was announced. -/
theorem size_eq (version : Int16) : (assemble announced version blocks).size = announced := by
  rw [size_assemble]
  exact h.announced_eq.symm

theorem numberAt_length : numberAt (assemble announced version blocks) 0 4 =
    (assemble announced version blocks).size := by
  rw [h.size_eq]
  exact (partAt_header announced version blocks).1.numberAt_eq (Nat.lt_succ_of_le h.size_le)

theorem entriesOf_assemble : entriesOf (assemble announced version blocks) = blocks.length :=
  (partAt_header announced version blocks).2.2.numberAt_eq (Nat.lt_succ_of_le h.count_le)

theorem dataStartOf_assemble :
    dataStartOf (assemble announced version blocks) = dataStartFor blocks := by
  rw [dataStartOf, h.entriesOf_assemble, dataStartFor]

/-- Positions of blocks are in the data. -/
theorem mem_index_bounds {e : Int16 × Nat} (he : e ∈ index blocks) :
    dataStartFor blocks ≤ e.2 ∧ e.2 < announced := by
  obtain ⟨block, mem, spot⟩ := mem_index he
  have nonempty := h.nonempty _ mem
  have bounds := Bytes.mem_positions_le spot
  have whole := h.announced_eq
  simp only [] at nonempty
  omega

/-- The entry that is read back is that of the index. -/
theorem entryOf_assemble {i : Nat} (hi : i < (index blocks).length) :
    entryOf (assemble announced version blocks) i = (index blocks)[i] := by
  have part := partAt_entry announced version hi
  have bound := (h.mem_index_bounds (List.getElem_mem hi)).2
  have number : numberAt (assemble announced version blocks) (headerLength + i * entryLength) 2 =
      (index blocks)[i].1.toUInt16.toNat :=
    part.left.numberAt_eq (UInt16.toNat_lt _)
  have position : numberAt (assemble announced version blocks)
      (headerLength + i * entryLength + 2) 4 = (index blocks)[i].2 := by
    have here := part.right
    rw [BigEndian.size_encode] at here
    exact here.numberAt_eq (Nat.lt_succ_of_le (Nat.le_trans (Nat.le_of_lt bound) h.size_le))
  unfold entryOf int16At
  simp only [number, position, UInt16.ofNat_toNat, Int16.toInt16_toUInt16]

/-- The entries that are read back are the index. -/
theorem entriesFrom_assemble (version : Int16) :
    entriesFrom (assemble announced version blocks) 0
      (entriesOf (assemble announced version blocks)) = index blocks := by
  have count : (entriesFrom (assemble announced version blocks) 0
      (entriesOf (assemble announced version blocks))).length = blocks.length := by
    rw [entriesFrom, List.length_map, List.length_range', h.entriesOf_assemble]
  apply List.ext_getElem (by rw [count, length_index])
  intro i hi hi'
  simp only [entriesFrom, List.getElem_map, List.getElem_range', Nat.zero_add, Nat.one_mul]
  exact h.entryOf_assemble hi'

/-- **An assembled buffer is consistent.** -/
theorem defect?_assemble : defect? (assemble announced version blocks) = none := by
  rw [defect?_eq_none_iff, h.entriesFrom_assemble, h.dataStartOf_assemble]
  refine ⟨?_, h.numberAt_length, index_ascending h.nodup, fun e he => ?_⟩
  · rw [size_assemble]
    exact Nat.le_add_right _ _
  · rw [h.size_eq]
    exact h.mem_index_bounds he

end Fitting

end RecordFormat.RecordBuffer
