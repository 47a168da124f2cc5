import Mathlib
import RecordFormat.Proofs.Schema.Builds
import RecordFormat.Proofs.Schema.Declared
import RecordFormat.Proofs.Schema.Literals

/-!
# Reflecting what was built

The definition that a schema reflects need not be the one that it was built from: blanks, capitals
in the names of constraints and literals of other numeric types are gone. But it declares that very
schema, so that is what is built from it, and what that reflects is the definition again
(`Schema.reflect_build`).
-/

namespace RecordFormat

open Outcome

/-! ## What is reflected -/

/-- The definition names the type of the field, and gives the field once its type is known. -/
structure FieldDefinition.Mirrors (u : FieldDefinition) (f : Field) : Prop where
  type : u.type = f.type.text
  complete : u.complete f.type = .ok f

structure TableDefinition.Mirrors (u : TableDefinition) (t : Table) : Prop where
  name : u.name = t.name
  version : u.version = t.version
  fields : List.Forall₂ FieldDefinition.Mirrors u.fields t.fields

structure Definition.Mirrors (d : Definition) (s : Schema) : Prop where
  name : d.name = s.name
  tables : List.Forall₂ TableDefinition.Mirrors d.tables s.tables

theorem FieldDefinition.defaultFor_literal {u : FieldDefinition} {p : Primitive} {j : Json}
    {s : Scalar} (given : u.default = some j) (read : Scalar.ofJson p j = .ok s) :
    u.defaultFor (.primitive p) = .ok (some s) := by
  unfold defaultFor
  rw [given]
  dsimp only
  rw [read]

namespace Field

variable {f : Field} {table : String} {v : Unit}

/-- The check of a field lets no default pass but one that its type may hold. -/
theorem fits_of_check (h : f.check table = .ok v) {s : Scalar} (given : f.default = some s) :
    ∃ p, f.type = .primitive p ∧ s.fits p Limits.standard.floatMagnitude = true := by
  have lawful := lawful_of_check h
  have allowed : ¬ f.TakesNoDefault := by
    intro takesNone
    cases given.symm.trans (lawful.noDefault takesNone)
  obtain ⟨p, optional⟩ := exists_isOptional_iff.mpr allowed
  rcases lawful.default p optional with ⟨s', given', admits⟩ | ⟨none, -⟩
  · cases given.symm.trans given'
    exact ⟨p, optional.type, Primitive.admits_iff.mp admits⟩
  · cases given.symm.trans none

/-- A field that was made and checked is reflected. -/
theorem exists_reflect (made : f.Made) (h : f.check table = .ok v) :
    ∃ u, f.reflect = .ok u ∧ u.Mirrors f := by
  cases given : f.default with
  | none =>
      refine ⟨⟨f.id, f.name, f.type.text, f.constraints.names, none⟩, ?_, rfl, ?_⟩
      · rw [reflect, given]
        rfl
      · rw [FieldDefinition.complete, Constraints.ofNames_names, ok_bind]
        rw [Field.Made, given] at made
        exact made
  | some s =>
      obtain ⟨p, type, fits⟩ := fits_of_check h given
      obtain ⟨j, written, read⟩ := Scalar.exists_literal fits
      refine ⟨⟨f.id, f.name, f.type.text, f.constraints.names, some j⟩, ?_, rfl, ?_⟩
      · rw [reflect, given]
        dsimp only
        rw [written]
        rfl
      · rw [Field.Made, given, type] at made
        rw [FieldDefinition.complete, Constraints.ofNames_names, ok_bind, type,
          FieldDefinition.defaultFor_literal rfl read]
        exact made

end Field

/-- A table that was made and checked is reflected. -/
theorem Table.exists_reflect {t : Table} (made : t.Made) (checked : t.check = .ok ()) :
    ∃ u, t.reflect = .ok u ∧ u.Mirrors t := by
  obtain ⟨fields, reflected, mirrors⟩ := exists_mapM fun f hf =>
    Field.exists_reflect (made.fields f hf) (checkField checked hf)
  refine ⟨⟨t.name, t.version, fields⟩, ?_, rfl, rfl, mirrors.flip⟩
  rw [reflect, reflected]
  rfl

/-- A sound and checked schema is reflected. -/
theorem Schema.exists_reflect {s : Schema} (sound : s.Sound) (checked : s.check = .ok ()) :
    ∃ d, s.reflect = .ok d ∧ d.Mirrors s := by
  obtain ⟨tables, reflected, mirrors⟩ := exists_mapM fun t ht =>
    Table.exists_reflect (sound.made t ht) (checkTable checked ht)
  refine ⟨⟨s.name, tables⟩, ?_, rfl, mirrors.flip⟩
  rw [reflect, reflected]
  rfl

/-! ## What the reflection declares -/

/-- Where the same names are found, the same groups are. -/
theorem FieldType.resolved_of_isSome {d d' : Definition}
    (same : ∀ name, (d.table? name).isSome = (d'.table? name).isSome) : ∀ type : FieldType,
    type.Resolved .strict d → type.Resolved .strict d'
  | .primitive _, _ => trivial
  | .unbound _, resolved => absurd resolved.1 (by decide)
  | .bound table, resolved => (same table.name).symm.trans resolved
  | .list element, resolved => resolved_of_isSome same element resolved

namespace Definition

variable {d d' : Definition} {s : Schema}

theorem Mirrors.names (h : d.Mirrors s) :
    d.tables.map TableDefinition.name = s.tables.map Table.name :=
  map_eq_map_of_forall₂ (h.tables.imp fun _ _ mirrors => mirrors.name)

/-- **The reflection of a built schema declares it.** -/
theorem Mirrors.declares (mirrors : d'.Mirrors s) (h : d.Declares .strict s) :
    d'.Declares .strict s where
  tables := by
    have same : ∀ name, (d.table? name).isSome = (d'.table? name).isSome := by
      intro name
      rw [h.isSome_table?, isSome_table?_of_names mirrors.names]
    apply forall₂_imp_of_mem mirrors.tables
    intro u _ t ht table
    refine ⟨?_, ?_⟩
    · apply forall₂_imp_of_mem table.fields
      intro v _ f hf field
      obtain ⟨g, original⟩ := h.exists_field ht hf
      refine ⟨?_, FieldType.resolved_of_isSome same f.type original.resolved, field.complete⟩
      rw [field.type, ← FieldType.text_detach]
      exact FieldType.parse_text g.type.toList original.denotes
    · rw [table.name, table.version]
      exact (h.sound.made t ht).table
  created := by
    rw [mirrors.name, h.name]
    exact h.created
  nested := h.nested

end Definition

/-- **Reflecting undoes building.** A checked schema that was built has a definition; whatever was
interned before, that very schema is built from it, down to the tables that groups are bound to and
the bits of defaults, and its reflection is that definition. -/
theorem Schema.reflect_build (d : Definition) (before : List Interner.Request) (s : Schema)
    (built : ((d.build .strict).run (Interner.afterAll before)).1 = .ok s)
    (checked : s.check = .ok ()) :
    ∃ d', s.reflect = .ok d' ∧ ∀ before' : List Interner.Request,
      ∃ s', ((d'.build .strict).run (Interner.afterAll before')).1 = .ok s' ∧ s' = s ∧
        s'.reflect = .ok d' := by
  have declares := Definition.declares_of_build (Interner.plain_afterAll before) built
  obtain ⟨d', reflected, mirrors⟩ := Schema.exists_reflect declares.sound checked
  refine ⟨d', reflected, fun before' => ⟨s, ?_, rfl, reflected⟩⟩
  exact Definition.build_of_declares (mirrors.declares declares) (Interner.plain_afterAll before')

namespace Household

/-- A definition with blanks, and with constraints in another order than they are written in. -/
def sloppy : Definition := ⟨"Household", [
  ⟨"Person", 1, [⟨1, "names", " list< string >", ["optional "], none⟩,
    ⟨2, "height", "double", ["frequently_used", "optional"], some (.number ⟨0x4000000000000000⟩)⟩]⟩]⟩

def height : Field :=
  ⟨2, "height", .primitive .double, { Constraints.optional with frequentlyUsed := true },
    some (.double ⟨0x4000000000000000⟩)⟩

def tidySchema : Schema := ⟨"Household", [⟨"Person", 1, [{ names with id := 1 }, height]⟩]⟩

theorem built_tidySchema : ((sloppy.build .strict).run {}).1 = .ok tidySchema := by cbv

theorem reflect_build_household : tidySchema.check = .ok () ∧
    ∃ d', tidySchema.reflect = .ok d' ∧ ∃ s', ((d'.build .strict).run {}).1 = .ok s' ∧
      s' = tidySchema ∧ s'.reflect = .ok d' := by
  have checked : tidySchema.check = .ok () := by decide +kernel
  obtain ⟨d', reflected, again⟩ := Schema.reflect_build sloppy [] tidySchema built_tidySchema checked
  exact ⟨checked, d', reflected, again []⟩

end Household

end RecordFormat
