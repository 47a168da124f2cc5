import RecordFormat.Proofs.Codec.Access
import RecordFormat.Proofs.Record.PartialMap

/-!
# One field and all values

`tryGet` looks at what is staged first and reads the buffer only for a field that is neither
staged nor cleared. `values` reads the whole buffer first and lays the changes over it. Over
damaged octets the two part in one case: octets that cannot be read, under a field that was set
or cleared since, stop `values` but no `tryGet` (`Household.not_values_of_tryGet`). That is the
only difference, and what both of them give is the same (`Record.Reached.values_iff_tryGet`).
-/

namespace RecordFormat

open Outcome

namespace Record

/-- The records of a codec that are new, or read from any octets, and what changes make of them.
A change that fails leaves the record as it was. -/
inductive Reached (c : TableCodec) : Record → Prop
  | empty : Reached c (Record.empty c)
  | ofBytes {bytes : Bytes} {r : Record} : Record.ofBytes c bytes = .ok r → Reached c r
  | edit {r r' : Record} (e : Edit) : Reached c r → e.apply r = .ok r' → Reached c r'

/-- What holds of a record whatever its buffer is: the staged values stand in order and belong to
stored fields. -/
structure Steady (c : TableCodec) (r : Record) : Prop where
  codec : r.codec = c
  staged : IdMap.Sorted r.pending
  known : ∀ id ∈ IdMap.ids r.pending, ∃ f ∈ c.table.storedFields, f.id = id

variable {c : TableCodec} {r r' : Record} {f : Field} {v : Value}

/-! ## Changes keep the staged values in order -/

theorem steady_of_no_pending (codec : r.codec = c) (clean : r.pending = []) : Steady c r where
  codec := codec
  staged := by
    rw [clean]
    exact IdMap.sorted_nil
  known := by
    rw [clean]
    exact nofun

namespace Steady

theorem set (h : Steady c r) (covers : c.Covers) (done : r.set f v = .ok r') : Steady c r' := by
  obtain ⟨rfl, staged, known⟩ := h
  obtain ⟨own, op, -, -, found, -, rfl⟩ := set_eq_ok_iff.mp done
  refine ⟨rfl, sorted_staging staged own.id, ?_⟩
  intro id mem
  obtain ⟨w, here⟩ := IdMap.exists_of_mem_ids mem
  have pending : IdMap.find? (r.staging own.id v).pending id =
      if own.id = id then some v else IdMap.find? r.pending id :=
    IdMap.find?_insert own.id v id r.pending
  rw [pending] at here
  by_cases same : own.id = id
  · -- The number that is set has an operator, and only stored fields have one.
    obtain ⟨s, slot, -⟩ := Option.map_eq_some_iff.mp found
    exact ⟨s.field, covers.field _ s slot, (TableCodec.id_of_slot? slot).trans same⟩
  · rw [if_neg same] at here
    exact known id (IdMap.mem_ids_of_find? here)

theorem clear (h : Steady c r) (done : r.clear f = .ok r') : Steady c r' := by
  obtain ⟨rfl, staged, known⟩ := h
  obtain ⟨own, -, -, -, rfl⟩ := clear_eq_ok_iff.mp done
  refine ⟨rfl, sorted_removing staged own.id, ?_⟩
  intro id mem
  obtain ⟨w, here⟩ := IdMap.exists_of_mem_ids mem
  have pending : IdMap.find? (r.removing own.id).pending id =
      if own.id = id then none else IdMap.find? r.pending id :=
    IdMap.find?_erase own.id id r.pending
  rw [pending] at here
  split at here
  · cases here
  · exact known id (IdMap.mem_ids_of_find? here)

/-- **One change** keeps the staged values in order. -/
theorem edit (h : Steady c r) (covers : c.Covers) {e : Edit} (done : e.apply r = .ok r') :
    Steady c r' := by
  cases e with
  | set f v => exact h.set covers done
  | setName name v =>
      obtain ⟨own, -, done⟩ := bind_eq_ok_iff.mp done
      exact h.set covers done
  | clear f => exact h.clear done
  | finish =>
      rcases finish_cases done with rfl | ⟨-, b, -, -, rfl⟩
      · exact h
      · exact steady_of_no_pending h.codec rfl

end Steady

/-- **Whatever the octets were**, all changes keep the staged values in order. -/
theorem Reached.steady (h : Reached c r) (covers : c.Covers) : Steady c r := by
  induction h with
  | empty => exact steady_of_no_pending rfl rfl
  | ofBytes read =>
      obtain ⟨b, -, -, -, rfl⟩ := ofBytes_eq_ok_iff.mp read
      exact steady_of_no_pending rfl rfl
  | edit e _ done ih => exact ih.edit covers done

/-! ## Where the two part -/

/-- The record answers for a field without looking at its buffer. -/
def Hides (r : Record) (id : Int16) : Prop := r.isStaged id = true ∨ r.isCleared id = true

instance (r : Record) (id : Int16) : Decidable (r.Hides id) :=
  inferInstanceAs (Decidable (_ ∨ _))

/-- A field is answered for when the changes hide the buffer from it or the buffer can be read
there. -/
theorem exists_storedValue_iff : (∃ o, r.storedValue f = .ok o) ↔
    r.Hides f.id ∨ ∀ b, r.buffer = some b → ∃ o, r.codec.readField b f = .ok o := by
  rw [storedValue, Hides, isStaged, IdMap.contains_iff, ← IdMap.isSome_find?_iff]
  cases IdMap.find? r.pending f.id with
  | some v => simp
  | none =>
      by_cases cleared : r.isCleared f.id = true
      · simp [cleared]
      · cases buffer : r.buffer <;> simp [cleared]

/-- The values can be read when each stored field of the buffer can. -/
theorem exists_values_iff_readField (covers : r.codec.Covers) : (∃ m, r.values = .ok m) ↔
    ∀ b, r.buffer = some b → ∀ f ∈ r.codec.table.storedFields,
      ∃ o, r.codec.readField b f = .ok o := by
  simp only [values_eq_ok_iff, buffered, ← TableCodec.exists_decodeAll_iff covers]
  cases r.buffer <;> simp

theorem Steady.tryGet_eq (h : Steady c r) (made : c.table.Made) (hf : f ∈ c.table.storedFields) :
    r.tryGet f = r.storedValue f := by
  obtain ⟨rfl, -, -⟩ := h
  have own := made.resolve?_eq (List.mem_filter.mp hf).1
  exact tryGet_eq_storedValue (lookup_eq_ok_iff.mpr own) hf

/-- Nothing but stored fields has a value. -/
theorem Steady.exists_field (h : Steady c r) (covers : c.Covers) {m : IdMap Value}
    (read : r.values = .ok m) {id : Int16} (found : m.find? id = some v) :
    ∃ f ∈ c.table.storedFields, f.id = id := by
  obtain ⟨rfl, staged, known⟩ := h
  obtain ⟨n, decoded, value⟩ := find?_values staged read
  rw [value] at found
  rcases Option.or_eq_some_iff.mp found with pending | ⟨-, kept⟩
  · exact known id (IdMap.mem_ids_of_find? pending)
  · have present : n.find? id = some v := by
      split at kept
      · cases kept
      · exact kept
    unfold buffered at decoded
    split at decoded
    · obtain ⟨s, -, slot, -⟩ := (TableCodec.find?_of_decodeAll decoded).mp present
      exact ⟨s.field, covers.field id s slot, TableCodec.id_of_slot? slot⟩
    · cases decoded
      cases present

namespace Reached

/-- **All values can be read** when every stored field can, and the buffer can be read even where
the changes hide it. -/
theorem exists_values_iff (h : Reached c r) (covers : c.Covers) (made : c.table.Made) :
    (∃ m, r.values = .ok m) ↔ (∀ f ∈ c.table.storedFields, ∃ o, r.tryGet f = .ok o) ∧
      ∀ b, r.buffer = some b → ∀ f ∈ c.table.storedFields, r.Hides f.id →
        ∃ o, c.readField b f = .ok o := by
  have steady := h.steady covers
  have each : ∀ f ∈ c.table.storedFields, (∃ o, r.tryGet f = .ok o) ↔
      r.Hides f.id ∨ ∀ b, r.buffer = some b → ∃ o, c.readField b f = .ok o := by
    intro f hf
    rw [steady.tryGet_eq made hf, exists_storedValue_iff, steady.codec]
  obtain rfl := steady.codec
  rw [exists_values_iff_readField covers]
  constructor
  · intro whole
    refine ⟨fun f hf => ?_, fun b buffer f hf _ => whole b buffer f hf⟩
    exact (each f hf).mpr (.inr fun b buffer => whole b buffer f hf)
  · rintro ⟨answered, under⟩ b buffer f hf
    rcases (each f hf).mp (answered f hf) with hidden | here
    · exact under b buffer f hf hidden
    · exact here b buffer

/-- What all values have is what each stored field gives. -/
theorem find?_values_iff (h : Reached c r) (covers : c.Covers) (made : c.table.Made)
    {m : IdMap Value} (read : r.values = .ok m) {id : Int16} :
    m.find? id = some v ↔ ∃ f ∈ c.table.storedFields, f.id = id ∧ r.tryGet f = .ok (some v) := by
  have steady := h.steady covers
  have each : ∀ f ∈ c.table.storedFields, r.tryGet f = .ok (m.find? f.id) := by
    intro f hf
    rw [steady.tryGet_eq made hf]
    obtain ⟨rfl, staged, -⟩ := steady
    exact storedValue_eq covers staged read hf
  constructor
  · intro found
    obtain ⟨f, hf, rfl⟩ := steady.exists_field covers read found
    exact ⟨f, hf, rfl, by rw [each f hf, found]⟩
  · rintro ⟨f, hf, rfl, here⟩
    rw [each f hf, Except.ok.injEq] at here
    exact here

/-- **Reading each field and reading all of them** agree over any octets and after any changes,
but for octets that only `values` looks at: those under a field that was set or cleared. -/
theorem values_iff_tryGet {limits : Limits} {t : Table}
    (given : Registry.GivesCodec limits (fun _ => True) t c) (made : c.table.Made)
    (distinct : (c.table.storedFields.map Field.id).Nodup) (h : Reached c r) :
    ((∃ m, r.values = .ok m) ↔ (∀ f ∈ c.table.storedFields, ∃ o, r.tryGet f = .ok o) ∧
      ∀ b, r.buffer = some b → ∀ f ∈ c.table.storedFields, r.Hides f.id →
        ∃ o, c.readField b f = .ok o) ∧
    ∀ m, r.values = .ok m → IdMap.Sorted m ∧ ∀ id v, m.find? id = some v ↔
      ∃ f ∈ c.table.storedFields, f.id = id ∧ r.tryGet f = .ok (some v) := by
  have covers := (given.compiled nestedIn_true).inside.here.covers distinct
  refine ⟨h.exists_values_iff covers made, fun m read => ⟨sorted_of_values read, fun id v => ?_⟩⟩
  exact h.find?_values_iff covers made read

end Reached

end Record

namespace Household

/-- The damaged person after a birthday. -/
def aged : Record := (Record.backed personCodec damaged).staging 2 (.scalar (.int32 8))

theorem reached_aged : Record.Reached personCodec aged := by
  have complete : personCodec.checkBuffer damaged = .ok () :=
    TableCodec.checkBuffer_eq_ok_iff.mpr (by decide +kernel)
  have read : Record.ofBytes personCodec damaged.bytes = .ok (Record.backed personCodec damaged) :=
    Record.ofBytes_eq_ok_iff.mpr ⟨damaged, rfl, by decide, complete, rfl⟩
  refine .edit (.set age (.scalar (.int32 8))) (.ofBytes read) ?_
  exact Record.set_eq_ok_iff.mpr ⟨age, _, rfl, rfl, rfl, rfl, rfl⟩

theorem values_iff_aged : Record.Reached personCodec aged ∧
    ((∃ m, aged.values = .ok m) ↔ (∀ f ∈ person.storedFields, ∃ o, aged.tryGet f = .ok o) ∧
      ∀ b, aged.buffer = some b → ∀ f ∈ person.storedFields, aged.Hides f.id →
        ∃ o, personCodec.readField b f = .ok o) :=
  ⟨reached_aged, (Record.Reached.values_iff_tryGet (givesCodec_person trivial) valid_person.toMade
    (by decide) reached_aged).1⟩

/-- Each field of the person can be read, and yet not all of them. -/
theorem not_values_of_tryGet : Registry.GivesCodec limits (fun _ => True) person personCodec ∧
    person.Made ∧ (person.storedFields.map Field.id).Nodup ∧ Record.Reached personCodec aged ∧
      (∀ f ∈ person.storedFields, ∃ o, aged.tryGet f = .ok o) ∧ ¬∃ m, aged.values = .ok m := by
  have each : ∀ f ∈ person.storedFields, (aged.tryGet f).isOk = true := by decide +kernel
  have fails : ¬aged.values.isOk = true := by decide +kernel
  rw [isOk_iff] at fails
  exact ⟨givesCodec_person trivial, valid_person.toMade, by decide, reached_aged,
    fun f hf => isOk_iff.mp (each f hf), fails⟩

end Household

end RecordFormat
