import RecordFormat.Proofs.Schema.Declared
import RecordFormat.Proofs.Schema.Grammar

/-!
# Tables by their names

In a checked schema that was built, a field whose type text is the name of a table is bound to that
table, unless the name is that of a primitive. The rules for the names of tables do not exclude
those, and the reader of type texts takes them for the primitives; so just these tables cannot be
referred to (`Definition.cited_of_build`).
-/

namespace RecordFormat

open Outcome

/-! ## What a name spells -/

namespace FieldType

variable {cs inner : List Char} {name : String} {type : FieldType}

theorem listText_injective : Function.Injective listText := by
  intro inner inner' same
  simpa [listText] using same

/-- A list is not written like a name. -/
theorem listText_ne (named : ∀ c ∈ name.toList, Text.isNameTail c = true) :
    listText inner ≠ name.toList := by
  intro same
  have angle := named '<' (same ▸ by simp [listText])
  exact absurd angle (by decide)

theorem Spells.names (h : Spells cs type) (strips : Text.Strips cs name.toList)
    (named : ∀ c ∈ name.toList, Text.isNameTail c = true) : Names name type := by
  have core := Text.strips_iff.mp strips
  cases h with
  | name strips' names =>
      rw [String.toList_inj.mp (core.symm.trans (Text.strips_iff.mp strips'))]
      exact names
  | list outside => exact absurd ((Text.strips_iff.mp outside).symm.trans core) (listText_ne named)

theorem Spells.exists_element (h : Spells cs type) (outside : Text.Strips cs (listText inner))
    (inside : Text.Strips inner name.toList) :
    ∃ element, type = .list element ∧ Names name element := by
  have core := Text.strips_iff.mp outside
  cases h with
  | name strips names =>
      exact absurd (core.symm.trans (Text.strips_iff.mp strips)) (listText_ne names.isNameTail)
  | list outside' inside' names =>
      rw [listText_injective ((Text.strips_iff.mp outside').symm.trans core)] at inside'
      have same := (Text.strips_iff.mp inside').symm.trans (Text.strips_iff.mp inside)
      exact ⟨_, rfl, String.toList_inj.mp same ▸ names⟩

end FieldType

/-! ## What a build makes of it -/

/-- The type text of the field is the name, or a list of it; `shape` makes the type of the field
from what the name is for. -/
inductive FieldDefinition.Cites (f : FieldDefinition) (name : String) :
    (FieldType → FieldType) → Prop
  | name : Text.Strips f.type.toList name.toList → Cites f name fun type => type
  | list {inner : List Char} : Text.Strips f.type.toList (FieldType.listText inner) →
      Text.Strips inner name.toList → Cites f name .list

namespace Definition

variable {mode : BuildMode} {d : Definition} {s : Schema} {f : FieldDefinition} {g : Field}
  {name : String} {shape : FieldType → FieldType}

/-- The type of a field that cites a name is made from what the name is for. -/
theorem exists_cited (declares : f.Declares mode d g) (named : Text.TableName name)
    (cites : f.Cites name shape) {T : Table → Prop} (within : g.type.Within T) :
    ∃ cited, g.type = shape cited ∧ FieldType.Names name cited.detach ∧ cited.Resolved mode d ∧
      cited.Within T := by
  have spells := FieldType.parse_eq_ok_iff.mp declares.denotes
  have resolved := declares.resolved
  cases cites with
  | name strips =>
      have tail := Text.isNameTail_of_isTableName (Text.isTableName_iff.mpr named)
      exact ⟨g.type, rfl, spells.names strips tail, resolved, within⟩
  | list outside inside =>
      obtain ⟨element, type, names⟩ := spells.exists_element outside inside
      generalize g.type = type' at type resolved within
      cases type' with
      | primitive | unbound | bound => cases type
      | list cited =>
          rw [FieldType.detach, FieldType.list.injEq] at type
          exact ⟨cited, rfl, type ▸ names, resolved, within⟩

/-- The name of a table is for that table, unless it is for a primitive. -/
theorem Declares.cited_eq (h : d.Declares mode s) {table : Table} {cited : FieldType}
    (found : s.table? name = some table) (names : FieldType.Names name cited.detach)
    (resolved : cited.Resolved mode d) (within : cited.Within (· ∈ s.tables)) :
    (cited = .bound table ↔ ∀ p ∈ Primitive.all, p.name ≠ name) ∧
      ∀ p ∈ Primitive.all, p.name = name → cited = .primitive p := by
  cases cited with
  | primitive p =>
      generalize eq : (FieldType.primitive p).detach = type at names
      cases names with
      | primitive mem =>
          cases eq
          refine ⟨⟨by rintro ⟨⟩, fun other => absurd rfl (other p mem)⟩, ?_⟩
          intro q hq same
          have again := Primitive.ofName?_name hq
          rw [same, Primitive.ofName?_name mem] at again
          rw [Option.some.inj again]
      | group => cases eq
  | unbound group =>
      generalize eq : (FieldType.unbound group).detach = type at names
      cases names with
      | primitive => cases eq
      | group =>
          cases eq
          have known := h.isSome_table? name
          rw [resolved.2, found] at known
          cases known
  | bound t =>
      generalize eq : (FieldType.bound t).detach = type at names
      cases names with
      | primitive => cases eq
      | group _ other =>
          obtain rfl : t.name = _ := FieldType.unbound.inj eq
          obtain rfl := Option.some.inj
            ((h.sound.table?_eq_some_iff.mpr ⟨within, rfl⟩).symm.trans found)
          refine ⟨⟨fun _ p _ => (other p).symm, fun _ => rfl⟩, ?_⟩
          intro p _ same
          exact absurd same.symm (other p)
  | list element =>
      generalize eq : (FieldType.list element).detach = type at names
      cases names <;> cases eq

end Definition

/-- **What the name of a table is for.** In a checked schema that was built, let the type text of a
field be the name of a table of the definition, or a list of it. Then the schema has that table, and
the field or its elements are of the group that is bound to it exactly when no primitive has the
name; otherwise they are of that primitive. -/
theorem Definition.cited_of_build (mode : BuildMode) (d : Definition)
    (before : List Interner.Request) (s : Schema)
    (built : ((d.build mode).run (Interner.afterAll before)).1 = .ok s) (checked : s.check = .ok ()) :
    List.Forall₂ (fun (u : TableDefinition) (t : Table) =>
      List.Forall₂ (fun (f : FieldDefinition) (g : Field) =>
        ∀ v ∈ d.tables, ∀ shape, f.Cites v.name shape →
          ∃ table cited, s.table? v.name = some table ∧ g.type = shape cited ∧
            (cited = .bound table ↔ ∀ p ∈ Primitive.all, p.name ≠ v.name) ∧
            ∀ p ∈ Primitive.all, p.name = v.name → cited = .primitive p)
        u.fields t.fields) d.tables s.tables := by
  have declares := Definition.declares_of_build (Interner.plain_afterAll before) built
  have lawful := Schema.lawful_of_check checked
  apply forall₂_imp_of_mem declares.tables
  intro u _ t ht table
  apply forall₂_imp_of_mem table.fields
  intro f _ g hg field v hv shape cites
  obtain ⟨target, mem, target'⟩ := exists_right_of_mem declares.tables hv
  have found := declares.sound.table?_eq_some_iff.mpr ⟨mem, target'.name⟩
  have named : Text.TableName v.name := target'.name ▸ (lawful.tables target mem).name
  obtain ⟨cited, type, names, resolved, within⟩ :=
    Definition.exists_cited field named cites (declares.nested t ht g hg)
  exact ⟨target, cited, found, type, declares.cited_eq found names resolved within⟩

namespace Household

/-- Homes are listed by their addresses; the text is written with blanks. -/
def spacedHomes : FieldDefinition := ⟨1, "homes", " list< Address > ", ["required"], none⟩

def spacedDefinition : Definition := ⟨"Household", [
  ⟨"Address", 1, [⟨1, "zip", "int32", ["required"], none⟩]⟩, ⟨"Person", 1, [spacedHomes]⟩]⟩

def spacedSchema : Schema := ⟨"Household", [address,
  ⟨"Person", 1, [⟨1, "homes", .list (.bound address), .required, none⟩]⟩]⟩

theorem built_spacedSchema : ((spacedDefinition.build .strict).run {}).1 = .ok spacedSchema := by cbv

theorem cites_spacedHomes : spacedHomes.Cites "Address" .list := by
  have outside : Text.Strips spacedHomes.type.toList (FieldType.listText " Address ".toList) :=
    Text.strips_iff.mpr (by decide +kernel)
  exact .list outside (Text.strips_iff.mpr (by decide +kernel))

theorem cited_of_build_homes : spacedSchema.check = .ok () ∧
    ∃ table cited, spacedSchema.table? "Address" = some table ∧
      FieldType.list (.bound address) = .list cited ∧
      (cited = .bound table ↔ ∀ p ∈ Primitive.all, p.name ≠ "Address") ∧
      ∀ p ∈ Primitive.all, p.name = "Address" → cited = .primitive p := by
  have checked : spacedSchema.check = .ok () := by decide +kernel
  have each := Definition.cited_of_build .strict spacedDefinition [] spacedSchema
    built_spacedSchema checked
  obtain ⟨-, each⟩ := List.forall₂_cons.mp each
  obtain ⟨homes, -⟩ := List.forall₂_cons.mp each
  have here := (List.forall₂_cons.mp homes).1 _ (List.mem_cons_self ..) .list cites_spacedHomes
  exact ⟨checked, here⟩

/-- A table may be called like a primitive. -/
def clashing : Definition := ⟨"Household", [
  ⟨"int32", 1, [⟨1, "city", "string", ["required"], none⟩]⟩,
  ⟨"Person", 1, [⟨1, "home", "int32", ["required"], none⟩]⟩]⟩

def numberTable : Table := ⟨"int32", 1, [⟨1, "city", .primitive .string, .required, none⟩]⟩

def clashingSchema : Schema := ⟨"Household", [numberTable,
  ⟨"Person", 1, [⟨1, "home", .primitive .int32, .required, none⟩]⟩]⟩

/-- The definition is built and passes the check, and the home of a person, whose type text is the
name of the table, is a number and not bound to the table. -/
theorem not_bound_of_cited : ((clashing.build .strict).run {}).1 = .ok clashingSchema ∧
    clashingSchema.check = .ok () ∧ clashingSchema.table? "int32" = some numberTable ∧
    FieldDefinition.Cites ⟨1, "home", "int32", ["required"], none⟩ "int32" (fun type => type) ∧
    ∀ t ∈ clashingSchema.tables, ∀ g ∈ t.fields, g.name = "home" →
      g.type = .primitive .int32 ∧ g.type ≠ .bound numberTable := by
  refine ⟨by cbv, by decide +kernel, rfl, .name (Text.strips_iff.mpr (by decide +kernel)), ?_⟩
  intro t ht g hg named
  simp only [clashingSchema, numberTable, List.mem_cons, List.not_mem_nil, or_false] at ht
  rcases ht with rfl | rfl
  · rw [List.mem_singleton.mp hg] at named
    exact absurd named (by decide)
  · rw [List.mem_singleton.mp hg]
    exact ⟨rfl, by rintro ⟨⟩⟩

end Household

end RecordFormat
