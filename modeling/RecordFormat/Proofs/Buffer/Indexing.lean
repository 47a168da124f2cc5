import RecordFormat.Proofs.Buffer.Lookup

/-!
# Reading without checks

A buffer is checked once, when it is taken (`Accepted`, `exists_ofBytes_iff`). From then on
version, entries and lookup index the octets and count on all of them being there. Here they are
read once more, octet by octet, each read failing where there is no octet, and the search with a
number of rounds that it must not exceed. On a buffer none of that ever fails, and it gives what
the plain readers give (`indexed`): no index is outside, and sixteen rounds are enough.
-/

namespace RecordFormat.RecordBuffer

/-! ## What is accepted -/

/-- What octets must be to be taken as a buffer, by the places in them. -/
structure Accepted (bytes : Bytes) (limit : Nat) : Prop where
  small : bytes.size ≤ limit
  header : 8 ≤ bytes.size
  length : numberAt bytes 0 4 = bytes.size
  index : 8 + 6 * numberAt bytes 6 2 ≤ bytes.size
  ascending : ∀ i j, i < j → j < numberAt bytes 6 2 →
    int16At bytes (8 + 6 * i) < int16At bytes (8 + 6 * j)
  data : ∀ i < numberAt bytes 6 2, 8 + 6 * numberAt bytes 6 2 ≤ numberAt bytes (8 + 6 * i + 2) 4 ∧
    numberAt bytes (8 + 6 * i + 2) 4 < bytes.size

theorem dataStartOf_eq (bytes : Bytes) : dataStartOf bytes = 8 + 6 * numberAt bytes 6 2 := by
  rw [dataStartOf, headerLength, entryLength, entriesOf, Nat.mul_comm]

theorem entryOf_eq (bytes : Bytes) (i : Nat) :
    entryOf bytes i = (int16At bytes (8 + 6 * i), numberAt bytes (8 + 6 * i + 2) 4) := by
  rw [entryOf, headerLength, entryLength, Nat.mul_comm]

theorem pairwise_entriesFrom_iff {bytes : Bytes} {count : Nat} :
    ((entriesFrom bytes 0 count).map Prod.fst).Pairwise (· < ·) ↔ ∀ i j, i < j → j < count →
      int16At bytes (8 + 6 * i) < int16At bytes (8 + 6 * j) := by
  rw [List.pairwise_iff_getElem]
  simp only [entriesFrom, List.map_map, List.length_map, List.length_range', List.getElem_map,
    List.getElem_range', Function.comp_apply, entryOf_eq, Nat.zero_add, Nat.one_mul]
  constructor
  · intro h i j lt bound
    exact h i j (Nat.lt_trans lt bound) bound lt
  · intro h i j _ bound lt
    exact h i j lt bound

theorem forall_entriesFrom_iff {bytes : Bytes} {count : Nat} {P : Int16 × Nat → Prop} :
    (∀ e ∈ entriesFrom bytes 0 count, P e) ↔ ∀ i < count, P (entryOf bytes i) := by
  simp only [entriesFrom, List.forall_mem_map, List.mem_range'_1, Nat.zero_le, true_and,
    Nat.zero_add]

theorem accepted_iff {bytes : Bytes} {limit : Nat} :
    Accepted bytes limit ↔ bytes.size ≤ limit ∧ defect? bytes = none := by
  rw [defect?_eq_none_iff, pairwise_entriesFrom_iff, forall_entriesFrom_iff, dataStartOf_eq]
  simp only [entryOf_eq, entriesOf]
  constructor
  · intro h
    exact ⟨h.small, h.index, h.length, h.ascending, h.data⟩
  · rintro ⟨small, index, length, ascending, data⟩
    exact ⟨small, by omega, length, index, ascending, data⟩

/-- **Acceptance is exact.** -/
theorem exists_ofBytes_iff {bytes : Bytes} {limit : Nat} :
    (∃ b, ofBytes bytes limit = .ok b) ↔ Accepted bytes limit := by
  simp only [ofBytes_eq_ok_iff, accepted_iff]
  constructor
  · rintro ⟨b, small, rfl⟩
    exact ⟨small, b.consistent⟩
  · rintro ⟨small, consistent⟩
    exact ⟨⟨bytes, consistent⟩, small, rfl⟩

/-! ## Octet by octet -/

/-- Reads a big-endian number behind what is `read` of it, one octet after the other. Fails at an
octet that is not there. -/
def fetch? (bytes : Bytes) : (position width read : Nat) → Option Nat
  | _, 0, read => some read
  | position, width + 1, read => do
    let octet ← (octets bytes)[position]?
    fetch? bytes (position + 1) width (read * 256 + octet.toNat)

def fetchInt16? (bytes : Bytes) (position : Nat) : Option Int16 :=
  (fetch? bytes position 2 0).map fun n => (UInt16.ofNat n).toInt16

def fetchVersion? (bytes : Bytes) : Option Int16 := fetchInt16? bytes 4

def fetchIndexed? (bytes : Bytes) (index : Nat) : Option (Int16 × Nat) := do
  let position := headerLength + index * entryLength
  let id ← fetchInt16? bytes position
  let offset ← fetch? bytes (position + 2) 4 0
  return (id, offset)

/-- The halving search in so many rounds. Fails at an octet that is not there, and when the rounds
are over before the search is. -/
def searchWithin? (bytes : Bytes) (id : Int16) : (rounds low high : Nat) → Option (Option Nat)
  | 0, low, high => if low < high then none else some none
  | rounds + 1, low, high =>
    if low < high then do
      let middle := low + (high - low) / 2
      let (found, offset) ← fetchIndexed? bytes middle
      if found = id then return some offset
      else if found < id then searchWithin? bytes id rounds (middle + 1) high
      else searchWithin? bytes id rounds low middle
    else some none

theorem fetch?_eq_some_iff {bytes : Bytes} : ∀ {width position read n : Nat},
    fetch? bytes position width read = some n ↔
      (width = 0 ∨ position + width ≤ bytes.size) ∧
        n = (((octets bytes).drop position).take width).foldl (fun n b => n * 256 + b.toNat) read
  | 0, position, read, n => by simp [fetch?, eq_comm]
  | width + 1, position, read, n => by
      rw [fetch?]
      by_cases inside : position < bytes.size
      · have here : position < (octets bytes).length := inside
        rw [List.getElem?_eq_getElem here, List.drop_eq_getElem_cons here]
        show fetch? bytes (position + 1) width _ = some n ↔ _
        rw [fetch?_eq_some_iff, List.take_succ_cons, List.foldl_cons]
        refine and_congr_left fun _ => ?_
        omega
      · have missing : (octets bytes)[position]? = none :=
          List.getElem?_eq_none (Nat.not_lt.mp inside)
        rw [missing]
        simp only [Option.bind_eq_bind, Option.bind_none, reduceCtorEq, false_iff]
        rintro ⟨empty | inside', -⟩ <;> omega

/-- A number is fetched where its octets are. -/
theorem fetch?_eq {bytes : Bytes} {position width : Nat} (inside : position + width ≤ bytes.size) :
    fetch? bytes position width 0 = some (numberAt bytes position width) := by
  rw [fetch?_eq_some_iff, numberAt, BigEndian.decode, octets_extract, Nat.add_sub_cancel_left]
  exact ⟨.inr inside, rfl⟩

theorem fetchInt16?_eq {bytes : Bytes} {position : Nat} (inside : position + 2 ≤ bytes.size) :
    fetchInt16? bytes position = some (int16At bytes position) := by
  rw [fetchInt16?, fetch?_eq inside]
  rfl

variable {b : RecordBuffer} {id : Int16}

theorem index_le_size (b : RecordBuffer) :
    headerLength + b.entryCount * entryLength ≤ b.bytes.size :=
  (defect?_eq_none_iff.mp b.consistent).1

theorem fetchVersion?_eq (b : RecordBuffer) : fetchVersion? b.bytes = some b.version := by
  have room := b.index_le_size
  rw [headerLength] at room
  exact fetchInt16?_eq (by omega)

theorem fetchIndexed?_eq {i : Nat} (bound : i < b.entryCount) :
    fetchIndexed? b.bytes i = some (b.entry i) := by
  have room := b.index_le_size
  have below := Nat.mul_le_mul_right entryLength (Nat.succ_le_of_lt bound)
  rw [Nat.succ_mul] at below
  rw [fetchIndexed?]
  simp only [entryLength] at room below ⊢
  rw [fetchInt16?_eq (by omega), fetch?_eq (by omega)]
  rfl

/-! ## How long the search takes -/

/-- How many entries can be searched in so many rounds. -/
def reach : (rounds : Nat) → Nat
  | 0 => 0
  | rounds + 1 => 2 * reach rounds + 1

/-- A round leaves what the other rounds can search. -/
theorem searchWithin?_eq : ∀ {rounds low high : Nat}, high ≤ b.entryCount →
    high - low ≤ reach rounds →
      searchWithin? b.bytes id rounds low high = some (b.search id low high)
  | 0, low, high, _, room => by
      rw [reach] at room
      rw [searchWithin?, if_neg (by omega), search, dif_neg (by omega)]
  | rounds + 1, low, high, bound, room => by
      rw [reach] at room
      rw [searchWithin?, search]
      by_cases lt : low < high
      · have middle : low + (high - low) / 2 < b.entryCount := by omega
        rw [if_pos lt, dif_pos lt]
        simp only [fetchIndexed?_eq middle, Option.bind_eq_bind, Option.bind_some]
        split
        · rfl
        · split
          · exact searchWithin?_eq bound (by omega)
          · exact searchWithin?_eq (by omega) (by omega)
      · rw [if_neg lt, dif_neg lt]

theorem entryCount_le_reach (b : RecordBuffer) : b.entryCount ≤ reach 16 := by
  have short : (b.bytes.extract 6 (6 + 2)).size ≤ 2 := by
    simp only [ByteArray.size_extract]
    omega
  exact Nat.le_of_lt_succ (BigEndian.decode_lt _ short)

/-- Lookup finds the entries and nothing else, entries ascend by number, and nothing that is
indexed is outside the octets, in a search of at most sixteen rounds. -/
structure Indexed (b : RecordBuffer) : Prop where
  found : ∀ id offset, b.locate? id = some offset ↔ ∃ i < b.entryCount, b.entry i = (id, offset)
  ascending : b.fieldIds.Pairwise (· < ·)
  version : fetchVersion? b.bytes = some b.version
  entry : ∀ i < b.entryCount, fetchIndexed? b.bytes i = some (b.entry i)
  locate : ∀ id, searchWithin? b.bytes id 16 0 b.entryCount = some (b.locate? id)

theorem indexed (b : RecordBuffer) : b.Indexed where
  found id offset := by
    rw [locate?_eq_some_iff, entries, List.mem_map]
    simp only [List.mem_range]
  ascending := entries_ascending b
  version := b.fetchVersion?_eq
  entry _ bound := fetchIndexed?_eq bound
  locate _ := searchWithin?_eq (Nat.le_refl _) b.entryCount_le_reach

/-- **Acceptance and lookup are exact.** Octets are taken as a buffer just when they are as they
must be, and on what is taken lookup finds just the entries, without ever leaving the octets. -/
theorem ofBytes_exact (bytes : Bytes) (limit : Nat) :
    match ofBytes bytes limit with
    | .ok b => Accepted bytes limit ∧ b.bytes = bytes ∧ b.Indexed
    | .error _ => ¬Accepted bytes limit := by
  cases taken : ofBytes bytes limit with
  | ok b => exact ⟨exists_ofBytes_iff.mp ⟨b, taken⟩, (ofBytes_eq_ok_iff.mp taken).2, b.indexed⟩
  | error e =>
      intro accepted
      obtain ⟨b, ok⟩ := exists_ofBytes_iff.mpr accepted
      rw [taken] at ok
      cases ok

end RecordFormat.RecordBuffer
