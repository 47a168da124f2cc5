import RecordFormat.Proofs.Record.Required
import RecordFormat.Proofs.Registry.Uniqueness

/-!
# Fields and their slots

A table can be made when its fields have names of their own and, apart from the reserved number,
numbers of their own; which fields are derived is not looked at. So stored fields may share the
reserved number, and then they share a slot. Where at most one stored field has that number, each
has a slot of its own, and what is staged for one field leaves every other one alone
(`Table.slots_of_create`).
-/

namespace RecordFormat

open Outcome

theorem length_le_one_iff_pairwise {α : Type} {xs : List α} :
    xs.length ≤ 1 ↔ xs.Pairwise fun _ _ => False := by
  match xs with
  | [] => simp
  | [a] => simp
  | a :: b :: rest =>
      constructor
      · intro few
        simp at few
      · intro none
        exact ((List.pairwise_cons.mp none).1 b (List.mem_cons_self ..)).elim

/-- A stored field with the number that is reserved for derived ones. -/
def Field.isStray (f : Field) : Bool := f.isStored && f.id = derivedId

/-! ## What can be made -/

namespace Table

variable {fields : List Field}

theorem pairwise_apart_iff : fields.Pairwise Field.Apart ↔ (fields.map Field.name).Nodup ∧
    ((fields.filter fun f => f.id ≠ Field.derivedId).map Field.id).Nodup := by
  rw [List.Nodup, List.pairwise_map, List.Nodup, List.pairwise_map, List.pairwise_filter,
    ← List.pairwise_and_iff]
  apply List.Pairwise.iff
  intro f g
  refine and_congr Iff.rfl ?_
  constructor
  · intro reserved _ own same
    exact of_decide_eq_true own (reserved same)
  · intro apart same
    by_contra own
    exact apart (decide_eq_true (same ▸ own)) (decide_eq_true own) same

/-- **A table can be made** when it has a name, its fields have names of their own, and no number but
the reserved one stands twice. -/
theorem exists_create_iff {name : String} {version : Int16} :
    (∃ t, Table.create name version fields = .ok t) ↔ name ≠ "" ∧
      (fields.map Field.name).Nodup ∧
      ((fields.filter fun f => f.id ≠ Field.derivedId).map Field.id).Nodup := by
  rw [← pairwise_apart_iff]
  simp only [create_eq_ok_iff, checkFields_eq_ok_iff, exists_and_left, exists_eq, and_true]
  refine and_congr ?_ ?_
  · rw [← Bool.not_eq_true, String.isEmpty_iff]
  · exact ⟨fun h => h.1, fun apart => ⟨apart, by simp⟩⟩

/-- Of fields that can be in one table, the stored ones have numbers of their own when at most one
of them has the reserved number. -/
theorem nodup_stored_iff (apart : fields.Pairwise Field.Apart) :
    ((fields.filter Field.isStored).map Field.id).Nodup ↔
      (fields.filter Field.isStray).length ≤ 1 := by
  rw [length_le_one_iff_pairwise, List.Nodup, List.pairwise_map, List.pairwise_filter,
    List.pairwise_filter]
  constructor
  · intro own
    refine own.imp ?_
    intro f g distinct stray stray'
    rw [Field.isStray, Bool.and_eq_true, decide_eq_true_eq] at stray stray'
    exact distinct stray.1 stray'.1 (stray.2.trans stray'.2.symm)
  · intro few
    refine (few.and apart).imp ?_
    rintro f g ⟨few, -, reserved⟩ stored stored' same
    have number := reserved same
    refine few ?_ ?_
    · rw [Field.isStray, stored, same, number]
      rfl
    · rw [Field.isStray, stored', number]
      rfl

end Table

/-! ## What a change leaves alone -/

namespace Record

variable {r : Record} {f g own : Field} {v : Value} {id : Int16}

/-- The change neither makes a buffer nor stages anything for the field `g` of the table. -/
def Edit.Spares (t : Table) (g : Field) : Edit → Prop
  | .set f _ => t.resolve? f ≠ some g
  | .setName name _ => t.fieldByName? name ≠ some g
  | .clear f => t.resolve? f ≠ some g
  | .finish => False

theorem storedValue_staging (other : id ≠ g.id) :
    (r.staging id v).storedValue g = r.storedValue g := by
  have pending : IdMap.find? (r.staging id v).pending g.id = IdMap.find? r.pending g.id :=
    (IdMap.find?_insert id v g.id r.pending).trans (if_neg other)
  have cleared : (r.staging id v).isCleared g.id = r.isCleared g.id := by
    rw [Bool.eq_iff_iff, isCleared_staging]
    exact and_iff_right other.symm
  unfold storedValue
  rw [pending, cleared]
  rfl

theorem storedValue_removing (other : id ≠ g.id) :
    (r.removing id).storedValue g = r.storedValue g := by
  have pending : IdMap.find? (r.removing id).pending g.id = IdMap.find? r.pending g.id :=
    (IdMap.find?_erase id g.id r.pending).trans (if_neg other)
  have cleared : (r.removing id).isCleared g.id = r.isCleared g.id := by
    rw [Bool.eq_iff_iff, isCleared_removing]
    exact or_iff_right fun here => other here.1.symm
  unfold storedValue
  rw [pending, cleared]
  rfl

/-- Of its own field a record gives what is stored under it. -/
theorem tryGet_of_mem (names : (r.table.fields.map Field.name).Nodup)
    (hg : g ∈ r.table.storedFields) : r.tryGet g = r.storedValue g := by
  obtain ⟨mem, stored⟩ := Table.mem_storedFields.mp hg
  have found : r.table.resolve? g = some g :=
    Table.resolve?_eq_self_iff.mpr ((find?_key_eq_some_iff names).mpr ⟨mem, rfl⟩)
  rw [tryGet, lookup_eq_ok_iff.mpr found, ok_bind, stored]
  rfl

/-- Where stored fields have numbers of their own, a change of one field leaves every other one as
it is. -/
theorem storedValue_after (distinct : (r.table.storedFields.map Field.id).Nodup)
    (hg : g ∈ r.table.storedFields) {e : Edit} (spares : e.Spares r.table g) :
    (e.after r).codec = r.codec ∧ (e.after r).storedValue g = r.storedValue g := by
  have apart : ∀ {f own : Field}, r.table.resolve? f = some own → own.isDerived = false →
      own ≠ g → own.id ≠ g.id := by
    intro f own found stored other same
    have mem := Table.mem_storedFields.mpr ⟨(Table.eq_of_resolve? found).1, stored⟩
    exact other (List.inj_on_of_nodup_map distinct mem hg same)
  have setting : ∀ {f : Field} {v : Value} {r' : Record}, r.table.resolve? f ≠ some g →
      r.set f v = .ok r' → r'.codec = r.codec ∧ r'.storedValue g = r.storedValue g := by
    intro f v r' spares done
    obtain ⟨own, _, found, stored, -, -, rfl⟩ := set_eq_ok_iff.mp done
    exact ⟨rfl, storedValue_staging (apart found stored fun same => spares (same ▸ found))⟩
  unfold Edit.after
  cases applied : e.apply r with
  | error _ => exact ⟨rfl, rfl⟩
  | ok r' =>
      cases e with
      | set f v => exact setting spares applied
      | setName name v =>
          obtain ⟨f, found, done⟩ := bind_eq_ok_iff.mp applied
          have known := lookupName_eq_ok_iff.mp found
          have named : f.name = name := by simpa using List.find?_some known
          refine setting ?_ done
          intro same
          obtain ⟨found', -⟩ := Option.filter_eq_some_iff.mp same
          exact spares (named ▸ found')
      | clear f =>
          obtain ⟨own, found, stored, -, rfl⟩ := clear_eq_ok_iff.mp applied
          exact ⟨rfl, storedValue_removing (apart found stored fun same => spares (same ▸ found))⟩
      | finish => exact spares.elim

/-- **Changes of other fields leave a field as it is.** -/
theorem tryGet_afterAll (names : (r.table.fields.map Field.name).Nodup)
    (distinct : (r.table.storedFields.map Field.id).Nodup) (hg : g ∈ r.table.storedFields)
    (edits : List Edit) (spares : ∀ e ∈ edits, e.Spares r.table g) :
    (edits.foldl Edit.after r).tryGet g = r.tryGet g := by
  induction edits generalizing r with
  | nil => rfl
  | cons e rest ih =>
      obtain ⟨here, others⟩ := List.forall_mem_cons.mp spares
      obtain ⟨codec, kept⟩ := storedValue_after distinct hg here
      have table : (e.after r).table = r.table := congrArg TableCodec.table codec
      have later := ih (table ▸ names) (table ▸ distinct) (table ▸ hg) (table ▸ others)
      show (rest.foldl Edit.after (e.after r)).tryGet g = _
      rw [later, tryGet_of_mem names hg, tryGet_of_mem (table ▸ names) (table ▸ hg), kept]

end Record

/-! ## Slots -/

namespace TableCodec

/-- Each stored field has the slot of its number, and changes of others leave its value alone. -/
structure Separates (c : TableCodec) : Prop where
  slot : ∀ f ∈ c.table.storedFields, (c.slot? f.id).map Slot.field = some f
  spared : ∀ r : Record, r.codec = c → ∀ g ∈ c.table.storedFields, ∀ edits : List Record.Edit,
    (∀ e ∈ edits, e.Spares c.table g) → (edits.foldl Record.Edit.after r).tryGet g = r.tryGet g

variable {c : TableCodec}

theorem Covers.separates (covers : c.Covers) (names : (c.table.fields.map Field.name).Nodup)
    (distinct : (c.table.storedFields.map Field.id).Nodup) : c.Separates where
  slot := by
    intro f hf
    obtain ⟨s, slot, own⟩ := covers.slot f hf
    rw [slot, ← own]
    rfl
  spared := by
    rintro r rfl g hg edits spares
    exact Record.tryGet_afterAll names distinct hg edits spares

/-- Fields that share a number share its slot. -/
theorem Separates.few_strays (h : c.Separates) (names : (c.table.fields.map Field.name).Nodup) :
    (c.table.fields.filter Field.isStray).length ≤ 1 := by
  rw [length_le_one_iff_pairwise, List.pairwise_filter]
  have apart : c.table.fields.Pairwise fun f g => f ≠ g := List.Nodup.of_map _ names
  refine apart.imp_of_mem ?_
  intro f g hf hg other stray stray'
  rw [Field.isStray, Bool.and_eq_true, decide_eq_true_eq] at stray stray'
  have slot := h.slot f (List.mem_filter.mpr ⟨hf, stray.1⟩)
  have slot' := h.slot g (List.mem_filter.mpr ⟨hg, stray'.1⟩)
  rw [stray.2] at slot
  rw [stray'.2] at slot'
  exact other (Option.some.inj (slot.symm.trans slot'))

end TableCodec

/-- **What making a table settles.** A table can be made exactly when it has a name, its fields have
names of their own, and no number but the reserved one stands twice. Where derived fields have the
reserved number and at most one stored field has it, that is when names and numbers of stored fields
are their own. And a codec of the table that a registry gives, whatever it was asked before,
separates the stored fields exactly when at most one of them has the reserved number. -/
theorem Table.slots_of_create (name : String) (version : Int16) (fields : List Field) :
    ((∃ t, Table.create name version fields = .ok t) ↔ name ≠ "" ∧ (fields.map Field.name).Nodup ∧
      ((fields.filter fun f => f.id ≠ Field.derivedId).map Field.id).Nodup) ∧
    ((∀ f ∈ fields, f.isDerived = true → f.id = Field.derivedId) →
      (fields.filter Field.isStray).length ≤ 1 →
        ((∃ t, Table.create name version fields = .ok t) ↔ name ≠ "" ∧
          (fields.map Field.name).Nodup ∧ ((fields.filter Field.isStored).map Field.id).Nodup)) ∧
    ∀ t, Table.create name version fields = .ok t → ∀ (limits : Limits) (u : Table) (c : TableCodec),
      Registry.GivesCodec limits (fun _ => True) u c → c.table = t →
        (c.Separates ↔ (fields.filter Field.isStray).length ≤ 1) := by
  refine ⟨exists_create_iff, ?_, ?_⟩
  · intro reserved few
    rw [exists_create_iff]
    refine and_congr_right fun _ => and_congr_right fun names => ?_
    constructor
    · intro distinct
      exact (nodup_stored_iff (pairwise_apart_iff.mpr ⟨names, distinct⟩)).mpr few
    · intro distinct
      have stored : ∀ f ∈ fields, decide (f.id ≠ Field.derivedId) = true → f.isStored = true := by
        intro f hf own
        by_contra computed
        exact of_decide_eq_true own
          (reserved f hf (by simpa [Field.isStored, Field.isDerived] using computed))
      rw [List.Nodup, List.pairwise_map, List.pairwise_filter] at distinct ⊢
      refine distinct.imp_of_mem ?_
      intro f g hf hg apart own own'
      exact apart (stored f hf own) (stored g hg own')
  · rintro t made limits u c given rfl
    have parts := create_eq_ok_iff.mp made
    have apart := (checkFields_eq_ok_iff.mp parts.2.1).1
    have same : c.table.fields = fields := congrArg Table.fields parts.2.2
    have names := (pairwise_apart_iff.mp apart).1
    constructor
    · intro separates
      rw [← same] at names ⊢
      exact separates.few_strays names
    · intro few
      have distinct := (nodup_stored_iff apart).mpr few
      rw [← same] at names distinct
      exact ((given.compiled nestedIn_true).inside.here.covers distinct).separates names distinct

namespace Household

theorem slots_of_create_person : (∃ t, Table.create "Person" 1 [home, age, names] = .ok t) ∧
    personCodec.Separates := by
  obtain ⟨-, made, separates⟩ := Table.slots_of_create "Person" 1 [home, age, names]
  refine ⟨(made (by decide) (by decide)).mpr (by decide), ?_⟩
  exact (separates person rfl limits person personCodec (givesCodec_person trivial) rfl).mpr
    (by decide)

/-- Two stored fields with the number that is reserved for derived ones. -/
def left : Field := ⟨0, "left", .primitive .int32, .required, none⟩

def right : Field := ⟨0, "right", .primitive .int32, .required, none⟩

def pair : Table := ⟨"Pair", 1, [left, right]⟩

def pairCodec : TableCodec :=
  ⟨pair, limits, [⟨left, .fixed .int32 ⟨0⟩⟩, ⟨right, .fixed .int32 ⟨0⟩⟩]⟩

/-- Two derived fields with another number. -/
def sum : Field := ⟨5, "sum", .primitive .int32, .computed, none⟩

def mean : Field := ⟨5, "mean", .primitive .int32, .computed, none⟩

theorem layout_pair : pair.layoutFields = [left, right] := List.mergeSort_of_pairwise (by decide)

theorem givesCodec_pair : Registry.GivesCodec limits (fun _ => True) pair pairCodec := by
  refine ⟨trivial, { limits }, .fresh, ?_⟩
  rw [Table.codec_eq, layout_pair]
  simp only [List.mapM_cons, List.mapM_nil, left, right]
  rw [FieldType.operator]
  rfl

/-- The table with two stored fields of one number is made, and setting the right one overwrites the
left one. The table with two derived fields of one number is not made, though none is stored. -/
theorem not_own_slots : (left.Made ∧ right.Made ∧ left.isStored = true ∧ right.isStored = true ∧
      left.id = right.id ∧ Table.create "Pair" 1 [left, right] = .ok pair) ∧
    (Registry.GivesCodec limits (fun _ => True) pair pairCodec ∧
      ∃ r r', (Record.empty pairCodec).set left (.scalar (.int32 1)) = .ok r ∧
      r.set right (.scalar (.int32 2)) = .ok r' ∧
      r.tryGet left = .ok (some (.scalar (.int32 1))) ∧
      r'.tryGet left = .ok (some (.scalar (.int32 2)))) ∧
    sum.Made ∧ mean.Made ∧ sum.isDerived = true ∧ mean.isDerived = true ∧
      Table.create "Pair" 1 [sum, mean] = .error (.duplicateFieldId "Pair" 5 "sum" "mean") := by
  refine ⟨⟨rfl, rfl, rfl, rfl, rfl, rfl⟩, ?_, rfl, rfl, rfl, rfl, rfl⟩
  exact ⟨givesCodec_pair, _, _, rfl, rfl, rfl, rfl⟩

end Household

end RecordFormat
