import RecordFormat.Proofs.Evolution.Chain

/-!
# Compatible upgrades

A schema may be replaced by another one exactly when that one follows the structural rules and each
table has an upgrade there, which is said of stored fields only: those of the table are kept, others
are optional. So the verdict depends on the outlines of stored fields alone, in no order
(`Schema.checkEvolution_iff_upgrades`).
-/

namespace RecordFormat

/-! ## Fields and tables -/

/-- What the rules of evolution see of a stored field: its number, its type with groups taken by
name, its presence and its sort order. -/
def Field.outline (f : Field) : Int16 × FieldType × Presence × Option SortOrder :=
  (f.id, f.type.detach, f.constraints.presence, f.constraints.sort)

theorem Field.isRequired_eq_iff {f g : Field} :
    g.isRequired = f.isRequired ↔ g.constraints.presence = f.constraints.presence := by
  unfold isRequired Constraints.isRequired
  cases f.constraints.presence <;> cases g.constraints.presence <;> simp

/-- The one stored field stands for the other one in the next version. -/
structure Field.Keeps (f g : Field) : Prop where
  id : g.id = f.id
  type : g.type.same f.type = true
  presence : g.constraints.presence = f.constraints.presence
  sort : g.constraints.sort = f.constraints.sort

theorem Field.keeps_iff {f g : Field} : f.Keeps g ↔ g.outline = f.outline := by
  simp only [outline, Prod.mk.injEq]
  constructor
  · rintro ⟨id, type, presence, sort⟩
    exact ⟨id, FieldType.same_iff.mp type, presence, sort⟩
  · rintro ⟨id, type, presence, sort⟩
    exact ⟨id, FieldType.same_iff.mpr type, presence, sort⟩

namespace Table

/-- The second table may take the place of the first one. -/
structure Upgrades (t u : Table) : Prop where
  name : u.name = t.name
  version : t.version ≤ u.version
  kept : ∀ f ∈ t.storedFields, ∃ g ∈ u.storedFields, f.Keeps g
  added : ∀ g ∈ u.storedFields, (∀ f ∈ t.storedFields, f.id ≠ g.id) → g.isOptional = true

/-- The tables are called the same, are of one version, and store the same fields, as far as their
outlines tell. -/
structure Resembles (t u : Table) : Prop where
  name : u.name = t.name
  version : u.version = t.version
  stored : ∀ o, o ∈ t.storedFields.map Field.outline ↔ o ∈ u.storedFields.map Field.outline

variable {t t' u u' : Table}

theorem Resembles.symm (h : t.Resembles u) : u.Resembles t :=
  ⟨h.name.symm, h.version.symm, fun o => (h.stored o).symm⟩

/-- A stored field has its like in a table that resembles its own. -/
theorem Resembles.exists_stored (h : t.Resembles u) {f : Field} (hf : f ∈ t.storedFields) :
    ∃ g ∈ u.storedFields, g.outline = f.outline :=
  List.mem_map.mp ((h.stored f.outline).mp (List.mem_map.mpr ⟨f, hf, rfl⟩))

/-- **Upgrades are told by outlines.** -/
theorem Upgrades.of_resembles (h : t.Upgrades u) (before : t.Resembles t')
    (after : u.Resembles u') : t'.Upgrades u' where
  name := by rw [after.name, h.name, before.name]
  version := by
    rw [before.version, after.version]
    exact h.version
  kept := by
    intro f' hf'
    obtain ⟨f, hf, same⟩ := before.symm.exists_stored hf'
    obtain ⟨g, hg, keeps⟩ := h.kept f hf
    obtain ⟨g', hg', same'⟩ := after.exists_stored hg
    exact ⟨g', hg', Field.keeps_iff.mpr (same'.trans ((Field.keeps_iff.mp keeps).trans same))⟩
  added := by
    intro g' hg' fresh
    obtain ⟨g, hg, same⟩ := after.symm.exists_stored hg'
    have optional := h.added g hg fun f hf taken => by
      obtain ⟨f', hf', same'⟩ := before.exists_stored hf
      exact fresh f' hf' ((congrArg Prod.fst same').trans (taken.trans (congrArg Prod.fst same)))
    have presence : g.constraints.presence = g'.constraints.presence := congrArg (·.2.2.1) same
    rw [Field.isOptional, Constraints.isOptional, ← presence]
    exact optional

/-- A valid table may be replaced by another valid one exactly when that one upgrades it. -/
theorem Valid.checkEvolution_iff (valid : t.Valid) (valid' : u.Valid) (name : u.name = t.name) :
    t.checkEvolution u = .ok () ↔ t.Upgrades u := by
  have kept : ∀ f, checkKept t.name u f = .ok () ↔ ∃ g ∈ u.storedFields, f.Keeps g := by
    intro f
    simp only [checkKept_eq_ok_iff, valid'.storedById?_eq_some_iff]
    constructor
    · rintro ⟨g, ⟨hg, id⟩, type, required, sort⟩
      exact ⟨g, hg, id, FieldType.same_iff.mpr type, Field.isRequired_eq_iff.mp required, sort⟩
    · rintro ⟨g, hg, id, type, presence, sort⟩
      exact ⟨g, ⟨hg, id⟩, FieldType.same_iff.mp type, Field.isRequired_eq_iff.mpr presence, sort⟩
  have unknown : ∀ id, t.fieldById? id = none ↔ ∀ f ∈ t.storedFields, f.id ≠ id := by
    intro id
    simp only [Option.eq_none_iff_forall_ne_some, Ne, valid.fieldById?_eq_some_iff, not_and]
  rw [checkEvolution_eq_ok_iff]
  constructor
  · rintro ⟨version, keeps, adds⟩
    refine ⟨name, version, fun f hf => (kept f).mp (keeps f hf), ?_⟩
    intro g hg fresh
    rw [Field.isOptional_eq, (checkAdded_eq_ok_iff.mp (adds g hg) ((unknown g.id).mpr fresh)).1]
    rfl
  · rintro ⟨-, version, keeps, adds⟩
    refine ⟨version, fun f hf => (kept f).mpr (keeps f hf), ?_⟩
    intro g hg
    refine checkAdded_eq_ok_iff.mpr fun fresh => ?_
    have optional := adds g hg ((unknown g.id).mp fresh)
    rw [Field.isOptional_eq, Bool.not_eq_true'] at optional
    exact ⟨optional, valid'.default_of_optional hg optional⟩

end Table

/-! ## Schemas -/

namespace Schema

/-- The schema could have been made, of tables that could. -/
structure Made (s : Schema) : Prop where
  tables : ∀ t ∈ s.tables, t.Made
  schema : Schema.create s.name s.tables = .ok s

/-- Every table of the one schema has its like in the other one, and the other way round. -/
structure Resembles (s s' : Schema) : Prop where
  left : ∀ t ∈ s.tables, ∃ t' ∈ s'.tables, t.Resembles t'
  right : ∀ t' ∈ s'.tables, ∃ t ∈ s.tables, t'.Resembles t

variable {s s' current current' next next' : Schema} {t u : Table}

theorem Resembles.symm (h : s.Resembles s') : s'.Resembles s := ⟨h.right, h.left⟩

theorem Made.valid (made : s.Made) (checked : s.check = .ok ()) (ht : t ∈ s.tables) : t.Valid :=
  ⟨made.tables t ht, checkTable checked ht⟩

/-- A schema that could be made finds its own tables. -/
theorem Made.table?_eq_some_iff (made : s.Made) {name : String} :
    s.table? name = some t ↔ t ∈ s.tables ∧ t.name = name := by
  obtain ⟨_, checked, -⟩ := Outcome.bind_eq_ok_iff.mp made.schema
  exact find?_key_eq_some_iff (nodup_of_checkTables checked).1

/-- A schema that is built could have been made. -/
theorem made_of_build {mode : BuildMode} {d : Definition} {i : Interner} (plain : i.Plain)
    (built : ((d.build mode).run i).1 = .ok s) : s.Made where
  tables := (Definition.build_sound plain built).made
  schema := by
    have declares := Definition.declares_of_build plain built
    rw [declares.name]
    exact declares.created

/-- Every table of the first schema has an upgrade in the second one. -/
def Upgrades (current next : Schema) : Prop := ∀ t ∈ current.tables, ∃ u ∈ next.tables, t.Upgrades u

theorem Upgrades.of_resembles (h : current.Upgrades next) (before : current.Resembles current')
    (after : next.Resembles next') : current'.Upgrades next' := by
  intro t' ht'
  obtain ⟨t, ht, same⟩ := before.right t' ht'
  obtain ⟨u, hu, upgrades⟩ := h t ht
  obtain ⟨u', hu', same'⟩ := after.left u hu
  exact ⟨u', hu', upgrades.of_resembles same.symm same'⟩

/-- A schema is replaced by upgrades of its tables. -/
theorem Made.checkEvolution_iff (made : current.Made) (made' : next.Made)
    (checked : current.check = .ok ()) :
    current.checkEvolution next = .ok () ↔ next.check = .ok () ∧ current.Upgrades next := by
  rw [checkEvolution_eq_ok_iff, and_congr_right_iff]
  intro checked'
  refine forall₂_congr fun t ht => exists_congr fun u => ?_
  rw [made'.table?_eq_some_iff, and_assoc, and_congr_right_iff]
  intro hu
  have iff := (made.valid checked ht).checkEvolution_iff (made'.valid checked' hu)
  constructor
  · rintro ⟨name, evolves⟩
    exact (iff name).mp evolves
  · intro upgrades
    exact ⟨upgrades.name, (iff upgrades.name).mpr upgrades⟩

/-- **The check of evolution accepts exactly the compatible upgrades**: the next schema follows the
structural rules, and each table has one of its name there that is of no lower version, keeps number,
type, presence and sort order of every stored field, and stores nothing else that is required. What
is new has a default where its type needs one, by the structural rules. So among schemas that follow
the rules the verdict does not depend on the order of tables and fields, on names and defaults of
stored fields, on other constraints, or on derived fields: none of them is part of an outline. -/
theorem checkEvolution_iff_upgrades (made : current.Made) (made' : next.Made)
    (checked : current.check = .ok ()) :
    (current.checkEvolution next = .ok () ↔
      next.check = .ok () ∧ ∀ t ∈ current.tables, ∃ u ∈ next.tables, t.Upgrades u) ∧
    (next.check = .ok () → ∀ u ∈ next.tables, ∀ g ∈ u.storedFields,
      g.requiresDefault = true → g.default.isSome = true) ∧
    ∀ current' next' : Schema, current'.Made → next'.Made → current'.check = .ok () →
      next.check = .ok () → next'.check = .ok () → current.Resembles current' →
        next.Resembles next' →
          (current.checkEvolution next = .ok () ↔ current'.checkEvolution next' = .ok ()) := by
  refine ⟨made.checkEvolution_iff made' checked, ?_, ?_⟩
  · intro checked' u hu g hg needed
    have optional : g.isRequired = false := by
      rw [Field.requiresDefault, Field.isOptional_eq] at needed
      simp only [Bool.and_eq_true] at needed
      simpa using needed.1.1
    exact (made'.valid checked' hu).default_of_optional hg optional needed
  · intro current' next' made₂ made₂' checked₂ checked' checked₂' before after
    rw [made.checkEvolution_iff made' checked, made₂.checkEvolution_iff made₂' checked₂]
    constructor
    · rintro ⟨-, upgrades⟩
      exact ⟨checked₂', upgrades.of_resembles before after⟩
    · rintro ⟨-, upgrades⟩
      exact ⟨checked', upgrades.of_resembles before.symm after.symm⟩

end Schema

namespace Household

def rearrangedPerson : Table := ⟨"Person", 2, [
  ⟨4, "office", .unbound "Address", { presence := .optional, frequentlyUsed := true }, none⟩,
  ⟨0, "ageNextYear", .primitive .int32, .computed, none⟩,
  { nicknames with constraints := { presence := .optional, largeList := true } },
  { age with name := "years" }, { home with type := .unbound "Address" }]⟩

def rearrangedAddress : Table := ⟨"Address", 2, [{ city with default := some (.string "Lyon") }, zip]⟩

/-- The next version in another order, with other names, another default, other flags and a field
that is computed. -/
def rearrangedSchema : Schema := ⟨"Home", [rearrangedPerson, rearrangedAddress]⟩

theorem resembles_rearrangedSchema : nextSchema.Resembles rearrangedSchema := by
  have person : nextPerson.Resembles rearrangedPerson := by
    refine ⟨rfl, rfl, fun o => ?_⟩
    have reversed : rearrangedPerson.storedFields.map Field.outline =
        (nextPerson.storedFields.map Field.outline).reverse := rfl
    rw [reversed, List.mem_reverse]
  have address : nextAddress.Resembles rearrangedAddress := by
    refine ⟨rfl, rfl, fun o => ?_⟩
    have reversed : rearrangedAddress.storedFields.map Field.outline =
        (nextAddress.storedFields.map Field.outline).reverse := rfl
    rw [reversed, List.mem_reverse]
  constructor
  · rintro t ht
    simp only [nextSchema, List.mem_cons, List.not_mem_nil, or_false] at ht
    rcases ht with rfl | rfl
    · exact ⟨_, by simp [rearrangedSchema], address⟩
    · exact ⟨_, by simp [rearrangedSchema], person⟩
  · rintro t ht
    simp only [rearrangedSchema, List.mem_cons, List.not_mem_nil, or_false] at ht
    rcases ht with rfl | rfl
    · exact ⟨_, by simp [nextSchema], person.symm⟩
    · exact ⟨_, by simp [nextSchema], address.symm⟩

/-- Today's household is upgraded by the next one, and may as well be replaced by the same in
another order. -/
theorem compatible_rearranged :
    (∀ t ∈ schema.tables, ∃ u ∈ nextSchema.tables, t.Upgrades u) ∧
      schema.checkEvolution rearrangedSchema = .ok () := by
  have made : schema.Made := Schema.made_of_build Interner.Reachable.empty.plain built_schema
  have made' : nextSchema.Made :=
    Schema.made_of_build Interner.Reachable.empty.plain built_nextSchema
  have made'' : rearrangedSchema.Made := by
    refine ⟨?_, rfl⟩
    intro t ht
    simp only [rearrangedSchema, List.mem_cons, List.not_mem_nil, or_false] at ht
    rcases ht with rfl | rfl
    · refine ⟨?_, rfl⟩
      intro f hf
      simp only [rearrangedPerson, List.mem_cons, List.not_mem_nil, or_false] at hf
      rcases hf with rfl | rfl | rfl | rfl | rfl <;> rfl
    · refine ⟨?_, rfl⟩
      intro f hf
      simp only [rearrangedAddress, List.mem_cons, List.not_mem_nil, or_false] at hf
      rcases hf with rfl | rfl <;> rfl
  obtain ⟨iff, -, verdict⟩ := Schema.checkEvolution_iff_upgrades made made' rfl
  have evolves : schema.checkEvolution nextSchema = .ok () := rfl
  have itself : schema.Resembles schema :=
    ⟨fun t ht => ⟨t, ht, rfl, rfl, fun _ => .rfl⟩, fun t ht => ⟨t, ht, rfl, rfl, fun _ => .rfl⟩⟩
  exact ⟨(iff.mp evolves).2, (verdict schema rearrangedSchema made made'' rfl rfl rfl itself
    resembles_rearrangedSchema).mp evolves⟩

end Household

end RecordFormat
