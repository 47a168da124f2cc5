import Mathlib.Data.List.Nodup
import RecordFormat.Proofs.Schema.Lawful

/-!
# What checks of tables are worth

A table can only be made with a name for each field and a number for each field that has one of
its own, and the structural rules reserve the number without owner for derived fields. So in a
valid table every field is found by its name, every stored field has its own number, and fields
that are no primitives have no default.
-/

namespace RecordFormat

open Outcome

/-- Where no key stands twice, every item is found by its own. -/
theorem find?_key_eq_some_iff {α κ : Type} [DecidableEq κ] {key : α → κ} {items : List α}
    (nodup : (items.map key).Nodup) {k : κ} {a : α} :
    items.find? (fun b => key b = k) = some a ↔ a ∈ items ∧ key a = k := by
  constructor
  · intro h
    exact ⟨List.mem_of_find?_eq_some h, by simpa using List.find?_some h⟩
  · rintro ⟨mem, rfl⟩
    cases found : items.find? fun b => key b = key a with
    | none =>
        have absent := List.find?_eq_none.mp found a mem
        simp at absent
    | some b =>
        have same : key b = key a := by simpa using List.find?_some found
        rw [List.inj_on_of_nodup_map nodup (List.mem_of_find?_eq_some found) mem same]

namespace FieldType

@[simp] theorem detach_detach : ∀ t : FieldType, t.detach.detach = t.detach
  | .primitive _ | .unbound _ | .bound _ => rfl
  | .list element => by rw [detach, detach, detach_detach element]

@[simp] theorem text_detach : ∀ t : FieldType, t.detach.text = t.text
  | .primitive _ | .unbound _ | .bound _ => rfl
  | .list element => by rw [detach, text, text, text_detach element]

/-- Types are the same when they agree with every group taken by name. -/
theorem same_iff : ∀ {t u : FieldType}, t.same u = true ↔ t.detach = u.detach
  | .primitive p, .primitive q => by simp [same, detach]
  | .unbound a, .unbound b => by simp [same, detach]
  | .unbound a, .bound t => by simp [same, detach]
  | .bound t, .unbound b => by simp [same, detach]
  | .bound t, .bound u => by simp [same, detach]
  | .list a, .list b => by simp [same, detach, same_iff (t := a)]
  | .primitive _, .unbound _ | .primitive _, .bound _ | .primitive _, .list _
  | .unbound _, .primitive _ | .unbound _, .list _ | .bound _, .primitive _ | .bound _, .list _
  | .list _, .primitive _ | .list _, .unbound _ | .list _, .bound _ => by simp [same, detach]

/-- Every table that the type is bound to is among those in `T`. -/
def Within (T : Table → Prop) : FieldType → Prop
  | .bound table => T table
  | .list element => element.Within T
  | _ => True

theorem Within.imp {T U : Table → Prop} (imp : ∀ t, T t → U t) : ∀ (type : FieldType),
    type.Within T → type.Within U
  | .primitive _, _ | .unbound _, _ => trivial
  | .bound t, h => imp t h
  | .list element, h => Within.imp imp element h

end FieldType

/-- The tables that groups of tables in `T` are bound to are in `T`. -/
def NestedIn (T : Table → Prop) : Prop := ∀ t, T t → ∀ f ∈ t.fields, f.type.Within T

/-- The field could have been made. -/
def Field.Made (f : Field) : Prop :=
  Field.create f.id f.name f.type f.constraints f.default = .ok f

theorem Field.Made.natural {f : Field} (h : f.Made) : 0 ≤ f.id := by
  unfold Field.Made Field.create at h
  split at h
  · cases h
  · split at h
    · cases h
    · next natural => exact Int16.not_lt.mp natural

/-- Two fields have different names, and different numbers other than the reserved one. -/
def Field.Apart (f g : Field) : Prop :=
  f.name ≠ g.name ∧ (f.id = g.id → g.id = Field.derivedId)

namespace Table

/-- The fields could have been made, and the stored ones have numbers of their own. -/
structure Numbered (t : Table) : Prop where
  made : ∀ f ∈ t.fields, f.Made
  distinct : (t.storedFields.map Field.id).Nodup

/-- The table could have been made, of fields that could. -/
structure Made (t : Table) : Prop where
  fields : ∀ f ∈ t.fields, f.Made
  table : Table.create t.name t.version t.fields = .ok t

/-- The table could have been made and follows the structural rules. -/
structure Valid (t : Table) : Prop extends t.Made where
  checked : t.check = .ok ()

variable {t : Table} {f : Field}

theorem mem_storedFields : f ∈ t.storedFields ↔ f ∈ t.fields ∧ f.isDerived = false := by
  simp [storedFields, Field.isStored, Field.isDerived]

theorem filter_isStored_requiredFields (t : Table) :
    t.requiredFields.filter Field.isStored = t.storedFields.filter Field.isRequired := by
  rw [requiredFields, storedFields, List.filter_filter, List.filter_filter]
  simp only [Bool.and_comm]

/-- A field is compared with the names and then with the numbers of earlier ones. -/
theorem apart_iff {earlier : List Field} : (∀ e ∈ earlier, e.Apart f) ↔
    (earlier.any fun e => e.name = f.name) = false ∧
      (earlier.find? fun e => f.id ≠ Field.derivedId && e.id = f.id) = none := by
  rw [List.any_eq_false, List.find?_eq_none]
  constructor
  · intro apart
    refine ⟨fun e he => by simpa using (apart e he).1, ?_⟩
    intro e he taken
    rw [Bool.and_eq_true, decide_eq_true_eq, decide_eq_true_eq] at taken
    exact taken.1 ((apart e he).2 taken.2)
  · rintro ⟨fresh, free⟩ e he
    refine ⟨by simpa using fresh e he, ?_⟩
    intro same
    by_contra own
    exact free e he (by simp [own, same])

/-- **Fields are accepted when each is apart from all earlier ones.** -/
theorem checkFields_eq_ok_iff {table : String} : ∀ {fields earlier : List Field},
    checkFields table earlier fields = .ok () ↔
      fields.Pairwise Field.Apart ∧ ∀ e ∈ earlier, ∀ f ∈ fields, e.Apart f
  | [], earlier => by simp [checkFields]
  | f :: rest, earlier => by
      have step : (∀ e ∈ earlier, e.Apart f) →
          checkFields table earlier (f :: rest) = checkFields table (earlier ++ [f]) rest := by
        intro here
        obtain ⟨fresh, free⟩ := apart_iff.mp here
        rw [checkFields, if_neg (by simp [fresh]), free]
      constructor
      · intro h
        have here : ∀ e ∈ earlier, e.Apart f := by
          rw [checkFields] at h
          split at h
          · cases h
          · next fresh =>
            split at h
            · cases h
            · next free => exact apart_iff.mpr ⟨Bool.not_eq_true _ ▸ fresh, free⟩
        obtain ⟨apart, before⟩ := checkFields_eq_ok_iff.mp (step here ▸ h)
        refine ⟨List.pairwise_cons.mpr ⟨?_, apart⟩, ?_⟩
        · intro g hg
          exact before f (List.mem_append_right _ (List.mem_singleton_self f)) g hg
        · intro e he g hg
          rcases List.mem_cons.mp hg with rfl | hg
          · exact here e he
          · exact before e (List.mem_append_left _ he) g hg
      · rintro ⟨apart, before⟩
        obtain ⟨own, apart⟩ := List.pairwise_cons.mp apart
        rw [step fun e he => before e he f (List.mem_cons_self ..)]
        refine checkFields_eq_ok_iff.mpr ⟨apart, ?_⟩
        intro e he g hg
        rcases List.mem_append.mp he with he | he
        · exact before e he g (List.mem_cons_of_mem _ hg)
        · exact List.mem_singleton.mp he ▸ own g hg

theorem create_eq_ok_iff {name : String} {version : Int16} {fields : List Field} :
    Table.create name version fields = .ok t ↔
      name.isEmpty = false ∧ checkFields name [] fields = .ok () ∧ t = ⟨name, version, fields⟩ := by
  unfold Table.create
  by_cases unnamed : name.isEmpty = true
  · rw [if_pos unnamed, unnamed]
    exact ⟨fun h => absurd h throw_ne_ok, nofun⟩
  · rw [if_neg unnamed, bind_eq_ok_iff]
    rw [Bool.not_eq_true] at unnamed
    constructor
    · rintro ⟨_, checked, made⟩
      exact ⟨unnamed, checked, (pure_eq_ok_iff.mp made).symm⟩
    · rintro ⟨-, checked, rfl⟩
      exact ⟨(), checked, rfl⟩

theorem Made.apart (h : t.Made) : t.fields.Pairwise Field.Apart :=
  (checkFields_eq_ok_iff.mp (create_eq_ok_iff.mp h.table).2.1).1

theorem Made.names (h : t.Made) : (t.fields.map Field.name).Nodup :=
  List.pairwise_map.mpr (h.apart.imp fun apart => apart.1)

/-- A table finds its own fields. -/
theorem Made.fieldByName?_eq (h : t.Made) (hf : f ∈ t.fields) : t.fieldByName? f.name = some f :=
  (find?_key_eq_some_iff h.names).mpr ⟨hf, rfl⟩

theorem resolve?_eq_self_iff : t.resolve? f = some f ↔ t.fieldByName? f.name = some f := by
  simp [resolve?, Option.filter_eq_some_iff]

theorem Made.resolve?_eq (h : t.Made) (hf : f ∈ t.fields) : t.resolve? f = some f :=
  resolve?_eq_self_iff.mpr (h.fieldByName?_eq hf)

theorem eq_of_resolve? {own : Field} (h : t.resolve? f = some own) :
    own ∈ t.fields ∧ own.name = f.name ∧ own.id = f.id := by
  obtain ⟨found, id⟩ := Option.filter_eq_some_iff.mp h
  unfold fieldByName? at found
  refine ⟨List.mem_of_find?_eq_some found, ?_, of_decide_eq_true id⟩
  simpa using List.find?_some found

end Table

/-! ## Structural rules -/

namespace Field

variable {table : String} {f : Field}

/-- What the check of a field tells about numbers and defaults. -/
structure Checked (f : Field) : Prop where
  reserved : f.isDerived = true ↔ f.id = derivedId
  computed : f.isDerived = true → f.type.isPrimitive = true
  noDefault : f.forbidsDefault = true → f.default = none
  someDefault : f.forbidsDefault = false → f.requiresDefault = true → f.default.isSome = true

theorem checked_of_check {u : Unit} (h : f.check table = .ok u) : f.Checked where
  reserved := (lawful_of_check h).reserved
  computed := (lawful_of_check h).derivedType
  noDefault := fun forbidden => (lawful_of_check h).noDefault (forbidsDefault_iff.mp forbidden)
  someDefault := by
    intro allowed needed
    have free : ¬ f.TakesNoDefault := mt forbidsDefault_iff.mpr (by simp [allowed])
    obtain ⟨p, optional⟩ := exists_isOptional_iff.mpr free
    rcases (lawful_of_check h).default p optional with ⟨s, given, -⟩ | ⟨-, binary⟩
    · exact Option.isSome_iff_exists.mpr ⟨s, given⟩
    · rw [requiresDefault, optional.type, binary] at needed
      simp at needed

end Field

namespace Table

variable {t : Table} {f : Field}

theorem checked_of_check (h : t.check = .ok ()) (hf : f ∈ t.fields) : f.Checked :=
  Field.checked_of_check (checkField h hf)

theorem Valid.checkedField (h : t.Valid) (hf : f ∈ t.fields) : f.Checked :=
  checked_of_check h.checked hf

/-- **In a valid table the stored fields have numbers of their own.** -/
theorem Valid.numbered (h : t.Valid) : t.Numbered where
  made := h.fields
  distinct := by
    rw [storedFields, List.Nodup, List.pairwise_map, List.pairwise_filter]
    apply h.apart.imp_of_mem
    intro f g hf hg apart _ stored same
    have reserved := (h.checkedField hg).reserved.mpr (apart.2 same)
    simp [Field.isStored, Field.isDerived] at stored reserved
    rw [reserved] at stored
    cases stored

/-- Lists and groups have no default. -/
theorem Valid.default_eq_none (h : t.Valid) (hf : f ∈ t.fields)
    (composite : f.type.isPrimitive = false) : f.default = none := by
  apply (h.checkedField hf).noDefault
  simp [Field.forbidsDefault, composite]

/-- A stored optional field has a default where it needs one. -/
theorem Valid.default_of_optional (h : t.Valid) (hf : f ∈ t.storedFields)
    (optional : f.isRequired = false) (needed : f.requiresDefault = true) :
    f.default.isSome = true := by
  obtain ⟨mem, stored⟩ := List.mem_filter.mp hf
  refine (h.checkedField mem).someDefault ?_ needed
  have computed : f.isDerived = false := by
    simpa [Field.isStored, Field.isDerived] using stored
  -- A type that needs a default is a primitive, which is what may have one.
  cases type : f.type <;>
    simp_all [Field.forbidsDefault, Field.requiresDefault, FieldType.isPrimitive,
      FieldType.asPrimitive?]

end Table

end RecordFormat
