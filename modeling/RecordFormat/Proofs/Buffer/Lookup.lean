import RecordFormat.Proofs.Octets.Part
import RecordFormat.Record.IdMap

/-!
# Looking up entries

The index of a consistent buffer ascends strictly and points into the data, so the halving
search finds a field number exactly when the index has it (`locate?_eq_some_iff`). What
octets are accepted at all is `ofBytes_eq_ok_iff`.
-/

namespace RecordFormat.RecordBuffer

/-! ## The index of a consistent buffer -/

/-- The entries from `index` on. -/
def entriesFrom (bytes : Bytes) (index count : Nat) : List (Int16 × Nat) :=
  (List.range' index count).map (entryOf bytes)

theorem entriesFrom_succ (bytes : Bytes) (index count : Nat) :
    entriesFrom bytes index (count + 1) =
      entryOf bytes index :: entriesFrom bytes (index + 1) count := by
  rw [entriesFrom, List.range'_succ, List.map_cons]
  rfl

theorem entries_eq (b : RecordBuffer) : b.entries = entriesFrom b.bytes 0 b.entryCount := by
  rw [entries, List.range_eq_range']
  rfl

private theorem ascending_cons_cons {p id : Int16} {rest : List Int16} :
    (p :: id :: rest).Pairwise (· < ·) ↔ p < id ∧ (id :: rest).Pairwise (· < ·) := by
  rw [List.pairwise_cons, List.forall_mem_cons]
  constructor
  · rintro ⟨⟨first, -⟩, tail⟩
    exact ⟨first, tail⟩
  · rintro ⟨first, tail⟩
    refine ⟨⟨first, fun i hi => ?_⟩, tail⟩
    exact Int16.lt_trans first ((List.pairwise_cons.mp tail).1 i hi)

/-- The entries from `index` on have no defect when their numbers ascend, from the number
before on, and their positions are in the data. -/
theorem entryDefect?_eq_none_iff {bytes : Bytes} {length : Nat} : ∀ {count index : Nat}
    {previous : Option Int16}, entryDefect? bytes length previous index count = none ↔
      (previous.toList ++ (entriesFrom bytes index count).map Prod.fst).Pairwise (· < ·) ∧
        ∀ e ∈ entriesFrom bytes index count, dataStartOf bytes ≤ e.2 ∧ e.2 < length
  | 0, index, previous => by
      cases previous <;> simp [entryDefect?, entriesFrom]
  | count + 1, index, previous => by
      rw [entriesFrom_succ, List.map_cons, List.forall_mem_cons, entryDefect?]
      generalize entryOf bytes index = entry
      obtain ⟨id, offset⟩ := entry
      have ih := @entryDefect?_eq_none_iff bytes length count (index + 1) (some id)
      simp only [Option.toList_some, List.singleton_append] at ih
      -- The number before only matters for the first entry.
      have split : (previous.toList ++
          id :: (entriesFrom bytes (index + 1) count).map Prod.fst).Pairwise (· < ·) ↔
          previous.any (fun p => id ≤ p) = false ∧
            (id :: (entriesFrom bytes (index + 1) count).map Prod.fst).Pairwise (· < ·) := by
        cases previous with
        | none => simp
        | some p =>
            rw [Option.toList_some, List.singleton_append, ascending_cons_cons]
            simp
      rw [split]
      cases ordered : previous.any (fun p => id ≤ p) with
      | true => simp [ordered]
      | false =>
          by_cases outside : offset < dataStartOf bytes ∨ length ≤ offset
          · simp only [ordered, Bool.false_eq_true, if_false, if_pos outside, reduceCtorEq,
              false_iff]
            rintro ⟨-, inside, -⟩
            omega
          · simp only [ordered, Bool.false_eq_true, if_false, if_neg outside, ih]
            constructor
            · rintro ⟨pairs, rest⟩
              exact ⟨⟨trivial, pairs⟩, by omega, rest⟩
            · rintro ⟨⟨-, pairs⟩, -, rest⟩
              exact ⟨pairs, rest⟩

/-- What makes octets consistent. -/
theorem defect?_eq_none_iff {bytes : Bytes} :
    defect? bytes = none ↔ dataStartOf bytes ≤ bytes.size ∧ numberAt bytes 0 4 = bytes.size ∧
      ((entriesFrom bytes 0 (entriesOf bytes)).map Prod.fst).Pairwise (· < ·) ∧
      ∀ e ∈ entriesFrom bytes 0 (entriesOf bytes), dataStartOf bytes ≤ e.2 ∧ e.2 < bytes.size := by
  have index := @entryDefect?_eq_none_iff bytes bytes.size (entriesOf bytes) 0 none
  simp only [Option.toList_none, List.nil_append] at index
  have start : headerLength ≤ dataStartOf bytes := Nat.le_add_right _ _
  unfold defect?
  simp only []
  split
  · simp only [reduceCtorEq, false_iff]
    omega
  · split
    · simp only [reduceCtorEq, false_iff]
      omega
    · split
      · simp only [reduceCtorEq, false_iff]
        omega
      · rw [index]
        constructor
        · rintro ⟨pairs, inside⟩
          exact ⟨by omega, by omega, pairs, inside⟩
        · rintro ⟨-, -, pairs, inside⟩
          exact ⟨pairs, inside⟩

variable {b : RecordBuffer}

theorem entries_ascending (b : RecordBuffer) : (b.entries.map Prod.fst).Pairwise (· < ·) := by
  rw [entries_eq]
  exact (defect?_eq_none_iff.mp b.consistent).2.2.1

/-- The length prefix bounds a buffer. -/
theorem size_le_maximum (b : RecordBuffer) : b.size ≤ BigEndian.maximum 4 := by
  have prefixed := (defect?_eq_none_iff.mp b.consistent).2.1
  have short : (b.bytes.extract 0 (0 + 4)).size ≤ 4 := by
    simp only [ByteArray.size_extract]
    omega
  have bound := BigEndian.decode_lt _ short
  rw [size, ← prefixed, numberAt]
  exact Nat.le_sub_one_of_lt bound

theorem eq_of_bytes {b' : RecordBuffer} (h : b'.bytes = b.bytes) : b' = b := by
  cases b
  cases b'
  cases h
  rfl

/-- **Octets are accepted** when they are within the limit and consistent. -/
theorem ofBytes_eq_ok_iff {bytes : Bytes} {limit : Nat} :
    ofBytes bytes limit = .ok b ↔ bytes.size ≤ limit ∧ b.bytes = bytes := by
  unfold ofBytes
  split
  · simp only [reduceCtorEq, false_iff]
    omega
  · split
    · next defect h =>
      simp only [reduceCtorEq, false_iff]
      rintro ⟨-, rfl⟩
      rw [b.consistent] at h
      cases h
    · next h =>
      constructor
      · intro eq
        cases eq
        exact ⟨by omega, rfl⟩
      · rintro ⟨-, rfl⟩
        rfl

/-! ## The halving search -/

theorem entry_lt_entry {i j : Nat} (lt : i < j) (bound : j < b.entryCount) :
    (b.entry i).1 < (b.entry j).1 := by
  have sorted := entries_ascending b
  rw [List.pairwise_iff_getElem] at sorted
  have := sorted i j (by simp [entries]; omega) (by simpa [entries] using bound) lt
  simpa [entries] using this

/-- What the search finds is an entry between its bounds. -/
theorem entry_of_search {id : Int16} {low high offset : Nat}
    (h : b.search id low high = some offset) :
    ∃ i, low ≤ i ∧ i < high ∧ b.entry i = (id, offset) := by
  fun_induction b.search id low high with
  | case1 low high lt middle found here =>
      cases h
      exact ⟨middle, by omega, by omega, here⟩
  | case2 low high lt middle found at_ here ne less ih =>
      obtain ⟨i, ge, lt, eq⟩ := ih h
      exact ⟨i, by omega, lt, eq⟩
  | case3 low high lt middle found at_ here ne less ih =>
      obtain ⟨i, ge, lt, eq⟩ := ih h
      exact ⟨i, ge, by omega, eq⟩
  | case4 => cases h

/-- An entry between the bounds is found. -/
theorem search_of_entry {id : Int16} {low high offset i : Nat} (ge : low ≤ i) (lt : i < high)
    (bound : high ≤ b.entryCount) (h : b.entry i = (id, offset)) :
    b.search id low high = some offset := by
  fun_induction b.search id low high with
  | case1 low high _ middle found here =>
      -- No number stands twice, so the middle is the entry.
      have : i = middle := by
        rcases Nat.lt_trichotomy i middle with before | same | after
        · have := entry_lt_entry (b := b) before (by omega)
          rw [h, here] at this
          exact absurd this Int16.lt_irrefl
        · exact same
        · have := entry_lt_entry (b := b) after (by omega)
          rw [h, here] at this
          exact absurd this Int16.lt_irrefl
      subst this
      rw [here] at h
      cases h
      rfl
  | case2 low high _ middle found position here ne less ih =>
      refine ih (Nat.lt_of_not_le fun le => ?_) lt bound
      -- The numbers up to the middle are too small.
      rcases Nat.lt_or_eq_of_le le with before | rfl
      · have := entry_lt_entry (b := b) before (by omega)
        rw [h, here] at this
        exact Int16.lt_asymm less this
      · rw [h] at here
        cases here
        exact ne rfl
  | case3 low high _ middle found position here ne less ih =>
      refine ih ge (Nat.lt_of_not_le fun le => ?_) (by omega)
      -- The numbers from the middle on are too large.
      rcases Nat.lt_or_eq_of_le le with after | rfl
      · have := entry_lt_entry (b := b) after (by omega)
        rw [h, here] at this
        exact less this
      · rw [h] at here
        cases here
        exact ne rfl
  | case4 low high done => omega

/-- **Lookup is exact.** The halving search finds the entries and nothing else. -/
theorem locate?_eq_some_iff {id : Int16} {offset : Nat} :
    b.locate? id = some offset ↔ (id, offset) ∈ b.entries := by
  unfold locate? entries
  rw [List.mem_map]
  constructor
  · intro h
    obtain ⟨i, -, lt, eq⟩ := entry_of_search h
    exact ⟨i, List.mem_range.mpr lt, eq⟩
  · rintro ⟨i, lt, eq⟩
    exact search_of_entry (Nat.zero_le i) (List.mem_range.mp lt) (Nat.le_refl _) eq

theorem contains_iff {id : Int16} : b.contains id = true ↔ id ∈ b.fieldIds := by
  rw [contains, Option.isSome_iff_exists, fieldIds, List.mem_map]
  constructor
  · rintro ⟨offset, h⟩
    exact ⟨(id, offset), locate?_eq_some_iff.mp h, rfl⟩
  · rintro ⟨⟨_, offset⟩, h, rfl⟩
    exact ⟨offset, locate?_eq_some_iff.mpr h⟩

theorem locate?_eq_none_iff {id : Int16} : b.locate? id = none ↔ id ∉ b.fieldIds := by
  rw [← contains_iff, contains]
  cases b.locate? id <;> simp

end RecordFormat.RecordBuffer
