import RecordFormat.Proofs.Codec.RoundTrip
import RecordFormat.Proofs.Record.Readers

/-!
# Changes of a record

Each change is inverted once: when it succeeds, and what the record is then. In terms of the
values, setting and clearing change what is found under one number, and finishing writes the
values and reads them back.
-/

namespace RecordFormat.Record

open Outcome

variable {r r' : Record} {m : IdMap Value} {f own : Field} {v : Value}

theorem lookup_eq_ok_iff : r.lookup f = .ok own ↔ r.table.resolve? f = some own := by
  rw [lookup]
  cases r.table.resolve? f <;> simp

theorem lookupName_eq_ok_iff {name : String} :
    r.lookupName name = .ok own ↔ r.table.fieldByName? name = some own := by
  rw [lookupName]
  cases r.table.fieldByName? name <;> simp

/-! ## Setting -/

/-- The record with a value staged under a number. -/
def staging (r : Record) (id : Int16) (v : Value) : Record :=
  { r with pending := IdMap.insert id v r.pending, cleared := r.cleared.filter (· ≠ id) }

theorem set_eq_ok_iff : r.set f v = .ok r' ↔ ∃ own op, r.table.resolve? f = some own ∧
    own.isDerived = false ∧ r.codec.operator? own.id = some op ∧ op.accepts v = true ∧
      r' = r.staging own.id v := by
  rw [set, bind_eq_ok_iff]
  simp only [lookup_eq_ok_iff, bind_eq_ok_iff, refuseIf_eq_ok_iff]
  constructor
  · rintro ⟨own, found, _, stored, h⟩
    cases op : r.codec.operator? own.id with
    | none =>
        rw [op] at h
        exact absurd h throw_ne_ok
    | some op' =>
        rw [op] at h
        rcases bind_eq_ok_iff.mp h with ⟨_, accepted, eq⟩
        rw [refuseIf_eq_ok_iff] at accepted
        exact ⟨own, op', found, by simpa using stored, op, by simpa using accepted,
          (pure_eq_ok_iff.mp eq).symm⟩
  · rintro ⟨own, op, found, stored, known, accepted, rfl⟩
    refine ⟨own, found, (), by simp [stored], ?_⟩
    rw [known]
    refine bind_eq_ok_iff.mpr ⟨(), ?_, rfl⟩
    simp [refuseIf, accepted]

theorem sorted_staging (staged : IdMap.Sorted r.pending) (id : Int16) :
    IdMap.Sorted (r.staging id v).pending := staged.insert

/-- **Setting changes one value.** -/
theorem values_staging (staged : IdMap.Sorted r.pending) (read : r.values = .ok m) (id : Int16) :
    ∃ m', (r.staging id v).values = .ok m' ∧
      m'.find? = Function.update m.find? id (some v) := by
  obtain ⟨n, decoded, value⟩ := find?_values staged read
  obtain ⟨m', read', value'⟩ :=
    exists_values (r := r.staging id v) (sorted_staging staged id) decoded
  refine ⟨m', read', ?_⟩
  ext1 i
  have pending : IdMap.find? (r.staging id v).pending i =
      if id = i then some v else IdMap.find? r.pending i := IdMap.find?_insert id v i r.pending
  rw [value', pending]
  by_cases here : i = id
  · subst here
    rw [if_pos rfl, Function.update_self]
    rfl
  · have cleared : (r.staging id v).isCleared i = r.isCleared i := by
      simp [isCleared, staging, here]
    rw [if_neg (Ne.symm here), Function.update_of_ne here, value, cleared]

/-! ## Clearing -/

theorem mem_insertId {id i : Int16} : ∀ {ids : List Int16},
    i ∈ insertId id ids ↔ i = id ∨ i ∈ ids
  | [] => by simp [insertId]
  | j :: rest => by
      rw [insertId]
      by_cases before : id < j
      · simp [before]
      · by_cases same : id = j
        · simp [same, Int16.lt_irrefl]
        · rw [if_neg before, if_neg same, List.mem_cons, List.mem_cons, mem_insertId]
          tauto

/-- The record without a value under a number. -/
def removing (r : Record) (id : Int16) : Record :=
  { r with
    pending := IdMap.erase id r.pending
    cleared := if r.isBuffered id then insertId id r.cleared else r.cleared }

theorem clear_eq_ok_iff : r.clear f = .ok r' ↔ ∃ own, r.table.resolve? f = some own ∧
    own.isDerived = false ∧ own.isRequired = false ∧ r' = r.removing own.id := by
  rw [clear, bind_eq_ok_iff]
  simp only [lookup_eq_ok_iff, bind_eq_ok_iff, refuseIf_eq_ok_iff, pure_eq_ok_iff]
  constructor
  · rintro ⟨own, found, _, stored, _, optional, rfl⟩
    exact ⟨own, found, by simpa using stored, by simpa using optional, rfl⟩
  · rintro ⟨own, found, stored, optional, rfl⟩
    exact ⟨own, found, (), by simp [stored], (), by simp [optional], rfl⟩

theorem sorted_removing (staged : IdMap.Sorted r.pending) (id : Int16) :
    IdMap.Sorted (r.removing id).pending := staged.erase

/-- **Clearing removes one value.** -/
theorem values_removing (staged : IdMap.Sorted r.pending) (read : r.values = .ok m) {id : Int16}
    (known : (r.codec.slot? id).isSome) :
    ∃ m', (r.removing id).values = .ok m' ∧ m'.find? = Function.update m.find? id none := by
  obtain ⟨n, decoded, value⟩ := find?_values staged read
  obtain ⟨m', read', value'⟩ :=
    exists_values (r := r.removing id) (sorted_removing staged id) decoded
  have buffered := isBuffered_eq decoded known
  refine ⟨m', read', ?_⟩
  ext1 i
  have pending : IdMap.find? (r.removing id).pending i =
      if id = i then none else IdMap.find? r.pending i := IdMap.find?_erase id i r.pending
  rw [value', pending]
  by_cases here : i = id
  · subst here
    rw [if_pos rfl, Function.update_self, Option.none_or]
    by_cases present : r.isBuffered i = true
    · have cleared : (r.removing i).isCleared i = true := by
        simp [isCleared, removing, present, mem_insertId]
      rw [if_pos cleared]
    · rw [buffered, Bool.not_eq_true, Option.isSome_eq_false_iff, Option.isNone_iff_eq_none]
        at present
      rw [present, ite_self]
  · have cleared : (r.removing id).isCleared i = r.isCleared i := by
      rw [Bool.eq_iff_iff]
      unfold isCleared removing
      split <;> simp [mem_insertId, here]
    rw [if_neg (Ne.symm here), Function.update_of_ne here, value, cleared]

/-! ## Finishing -/

theorem toBytes_eq_encode (dirty : r.isDirty = true) (read : r.values = .ok m) :
    r.toBytes = r.codec.encode m := by
  rw [toBytes]
  split
  · next clean =>
    rw [dirty] at clean
    cases clean
  · have contents : r.contents = r.codec.contents m := by
      rw [Record.contents, read]
      rfl
    rw [TableCodec.encode, ← contents]
    split
    · next cs eq =>
      rw [eq]
      rfl
    · next e eq =>
      rw [eq]
      rfl

/-- Finishing replaces a record with changes by one that reads its own octets. -/
theorem finish_cases (h : r.finish = .ok r') : r' = r ∨ (r.isDirty = true ∧
    ∃ b, r.toBytes = .ok b.bytes ∧ b.size ≤ r.codec.limits.maxRecordSize ∧
      r' = { r with buffer := some b, pending := [], cleared := [] }) := by
  unfold finish at h
  split at h
  · cases h
    exact .inl rfl
  · next changed =>
    have dirty : r.isDirty = true := by
      cases buffer : r.buffer with
      | none => simp [isDirty, buffer]
      | some b =>
          by_contra clean
          exact changed b buffer (Bool.not_eq_true _ ▸ clean)
    obtain ⟨bytes, written, rest⟩ := bind_eq_ok_iff.mp h
    rcases bind_eq_ok_iff.mp rest with ⟨b, buffered, eq⟩
    obtain ⟨small, rfl⟩ := RecordBuffer.ofBytes_eq_ok_iff.mp (mapError_eq_ok_iff.mp buffered)
    exact .inr ⟨dirty, b, written, small, (pure_eq_ok_iff.mp eq).symm⟩

/-- A record with changes is finished when its values can be written. -/
theorem exists_finish_iff {limit : Nat} (sound : r.codec.Sound limit) (dirty : r.isDirty = true)
    (read : r.values = .ok m) :
    (∃ r', r.finish = .ok r') ↔ ∃ out, r.codec.encode m = .ok out := by
  have unfolded : r.finish = (do
      let b ← RecordError.lift (RecordBuffer.ofBytes (← r.toBytes) r.codec.limits.maxRecordSize)
      return { r with buffer := some b, pending := [], cleared := [] }) := by
    unfold finish
    split
    · next clean =>
      rw [dirty] at clean
      cases clean
    · rfl
  rw [unfolded, toBytes_eq_encode dirty read]
  constructor
  · rintro ⟨r', done⟩
    obtain ⟨out, encoded, -⟩ := bind_eq_ok_iff.mp done
    exact ⟨out, encoded⟩
  · rintro ⟨out, encoded⟩
    obtain ⟨b, rfl⟩ := TableCodec.exists_buffer_of_encode sound encoded
    have buffered := RecordBuffer.ofBytes_eq_ok_iff.mpr ⟨TableCodec.size_of_encode encoded, rfl⟩
    exact ⟨_, bind_eq_ok_iff.mpr ⟨_, encoded, bind_eq_ok_iff.mpr
      ⟨b, mapError_eq_ok_iff.mpr buffered, rfl⟩⟩⟩

end RecordFormat.Record
