import RecordFormat.Proofs.Schema.Binding
import RecordFormat.Schema.Evolution

/-!
# What a permitted evolution keeps

Of two valid tables where the second may replace the first, every stored field of the first is
in the second under its number, with the same type and presence, and whatever else the second
stores is optional and has a default where one is possible. Between schemas this holds of each
table and the one of its name.
-/

namespace RecordFormat

open Outcome

/-- In a valid field only the number of a derived field is reserved. -/
theorem Field.Checked.isStored_iff {f : Field} (h : f.Checked) :
    f.isStored = true ↔ f.id ≠ derivedId := by
  have stored : f.isStored = !f.isDerived := rfl
  rw [Ne, ← h.reserved, stored]
  simp

namespace Table

variable {t u : Table} {f g : Field} {id : Int16}

/-- A field that is found among the stored ones is the table's own. -/
theorem mem_of_storedById? (h : t.storedById? id = some f) :
    f ∈ t.storedFields ∧ f.id = id := by
  obtain ⟨found, stored⟩ := Option.filter_eq_some_iff.mp h
  unfold fieldById? at found
  split at found
  · cases found
  · exact ⟨List.mem_filter.mpr ⟨List.mem_of_find?_eq_some found, stored⟩,
      by simpa using List.find?_some found⟩

/-- Where the rules are followed, what is found by number is stored. -/
theorem storedById?_of_fieldById? (checked : t.check = .ok ()) (found : t.fieldById? id = some f) :
    t.storedById? id = some f := by
  refine Option.filter_eq_some_iff.mpr ⟨found, ?_⟩
  unfold fieldById? at found
  split at found
  · cases found
  · next own =>
    have mem := List.mem_of_find?_eq_some found
    have same : f.id = id := by simpa using List.find?_some found
    exact (checked_of_check checked mem).isStored_iff.mpr (same ▸ own)

/-- Only stored fields are found by number. -/
theorem Valid.of_fieldById? (h : t.Valid) (found : t.fieldById? id = some f) :
    f ∈ t.storedFields ∧ f.id = id :=
  mem_of_storedById? (storedById?_of_fieldById? h.checked found)

/-- A valid table finds its stored fields by number. -/
theorem Valid.fieldById?_eq_some_iff (h : t.Valid) :
    t.fieldById? id = some f ↔ f ∈ t.storedFields ∧ f.id = id := by
  refine ⟨h.of_fieldById?, ?_⟩
  rintro ⟨hf, rfl⟩
  rcases List.mem_filter.mp hf with ⟨mem, stored⟩
  have own := (h.checkedField mem).isStored_iff.mp stored
  cases found : t.fieldById? f.id with
  | none =>
      unfold fieldById? at found
      rw [if_neg own] at found
      have absent := List.find?_eq_none.mp found f mem
      simp at absent
  | some g =>
      obtain ⟨hg, same⟩ := h.of_fieldById? found
      rw [List.inj_on_of_nodup_map h.numbered.distinct hg hf same]

theorem Valid.storedById?_eq_some_iff (h : t.Valid) :
    t.storedById? id = some f ↔ f ∈ t.storedFields ∧ f.id = id := by
  rw [storedById?, Option.filter_eq_some_iff, h.fieldById?_eq_some_iff]
  constructor
  · rintro ⟨found, -⟩
    exact found
  · intro found
    exact ⟨found, (List.mem_filter.mp found.1).2⟩

/-! ## The checks -/

/-- A stored field is kept when the next table stores its number with the same type, presence and
sort order. -/
theorem checkKept_eq_ok_iff {table : String} {v : Unit} :
    checkKept table u f = .ok v ↔ ∃ g, u.storedById? f.id = some g ∧
      g.type.detach = f.type.detach ∧ g.isRequired = f.isRequired ∧
      g.constraints.sort = f.constraints.sort := by
  unfold checkKept
  cases found : u.storedById? f.id with
  | none => simp
  | some g =>
      simp only [bind_eq_ok_iff, refuseIf_eq_ok_iff, Option.some.injEq, Field.isOptional_eq]
      constructor
      · rintro ⟨_, type, _, narrowed, _, widened, sort⟩
        refine ⟨g, rfl, FieldType.same_iff.mp (by simpa using type), ?_, by simpa using sort⟩
        cases required : f.isRequired <;> cases required' : g.isRequired <;>
          simp [required, required'] at narrowed widened ⊢
      · rintro ⟨_, rfl, type, required, sort⟩
        have same : g.type.same f.type = true := FieldType.same_iff.mpr type
        exact ⟨(), by simp [same], (), by simp [required], (), by simp [required], by simp [sort]⟩

/-- A field may be added when it is optional and has a default where it needs one. -/
theorem checkAdded_eq_ok_iff {v : Unit} :
    checkAdded t g = .ok v ↔ (t.fieldById? g.id = none →
      g.isRequired = false ∧ (g.requiresDefault = true → g.default.isSome = true)) := by
  unfold checkAdded
  cases known : t.fieldById? g.id with
  | some f => simp
  | none =>
      simp only [Option.isSome_none, Bool.false_eq_true, if_false, bind_eq_ok_iff,
        refuseIf_eq_ok_iff, Field.isOptional_eq, true_implies]
      constructor
      · rintro ⟨_, optional, default⟩
        refine ⟨by simpa using optional, ?_⟩
        intro needed
        simpa [needed, Option.isSome_iff_ne_none] using default
      · rintro ⟨optional, default⟩
        refine ⟨(), by simp [optional], ?_⟩
        rw [Bool.and_eq_true, Option.isNone_iff_eq_none]
        rintro ⟨needed, missing⟩
        simpa [missing] using default needed

/-- A table may be replaced when the version does not go back, every stored field is kept and
every other one may be added. -/
theorem checkEvolution_eq_ok_iff {v : Unit} :
    t.checkEvolution u = .ok v ↔ t.version ≤ u.version ∧
      (∀ f ∈ t.storedFields, checkKept t.name u f = .ok ()) ∧
      ∀ g ∈ u.storedFields, checkAdded t g = .ok () := by
  simp only [checkEvolution, bind_eq_ok_iff, refuseIf_eq_ok_iff, forM_eq_ok_iff, Int16.not_lt]
  constructor
  · rintro ⟨_, version, _, kept, added⟩
    exact ⟨version, kept, added⟩
  · rintro ⟨version, kept, added⟩
    exact ⟨(), version, (), kept, added⟩

/-- What evolution promises about two tables. -/
structure Evolves (t u : Table) : Prop where
  name : u.name = t.name
  kept : ∀ f ∈ t.storedFields, ∃ g, u.storedById? f.id = some g ∧
    g.type.detach = f.type.detach ∧ g.isRequired = f.isRequired
  added : ∀ g ∈ u.storedFields, (∀ f ∈ t.storedFields, f.id ≠ g.id) →
    g.isRequired = false ∧ (g.requiresDefault = true → g.default.isSome = true)

/-- **A table that may replace another** keeps what it stores. -/
theorem evolves_of_checkEvolution {v : Unit} (valid : t.Valid) (name : u.name = t.name)
    (h : t.checkEvolution u = .ok v) : t.Evolves u := by
  obtain ⟨-, kept, added⟩ := checkEvolution_eq_ok_iff.mp h
  refine ⟨name, ?_, ?_⟩
  · intro f hf
    obtain ⟨g, found, type, required, -⟩ := checkKept_eq_ok_iff.mp (kept f hf)
    exact ⟨g, found, type, required⟩
  · intro g hg fresh
    refine checkAdded_eq_ok_iff.mp (added g hg) ?_
    cases known : t.fieldById? g.id with
    | none => rfl
    | some f =>
        obtain ⟨hf, same⟩ := valid.of_fieldById? known
        exact absurd same (fresh f hf)

namespace Evolves

/-- A number that both store is of one type. -/
theorem type_eq (h : t.Evolves u) (valid : u.Valid) (hf : f ∈ t.storedFields)
    (hg : g ∈ u.storedFields) (same : f.id = g.id) : g.type.detach = f.type.detach := by
  obtain ⟨g', found, type, -⟩ := h.kept f hf
  have own := valid.storedById?_eq_some_iff.mpr ⟨hg, same.symm⟩
  rw [found, Option.some.injEq] at own
  rwa [own] at type

/-- What is required was required before. -/
theorem exists_required (h : t.Evolves u) (valid : u.Valid) (hg : g ∈ u.storedFields)
    (required : g.isRequired = true) :
    ∃ f ∈ t.storedFields, f.id = g.id ∧ f.isRequired = true := by
  by_contra missing
  by_cases fresh : ∀ f ∈ t.storedFields, f.id ≠ g.id
  · rw [(h.added g hg fresh).1] at required
    cases required
  · push Not at fresh
    obtain ⟨f, hf, same⟩ := fresh
    obtain ⟨g', found, -, presence⟩ := h.kept f hf
    have own := valid.storedById?_eq_some_iff.mpr ⟨hg, same.symm⟩
    rw [found, Option.some.injEq] at own
    subst own
    exact missing ⟨f, hf, same, presence ▸ required⟩

end Evolves

end Table

/-! ## Schemas -/

namespace Schema

variable {s current next : Schema} {t u : Table}

/-- Every table of a checked schema is valid. -/
theorem Sound.valid {v : Unit} (sound : s.Sound) (checked : s.check = .ok v) (ht : t ∈ s.tables) :
    t.Valid :=
  ⟨sound.made t ht, checkTable checked ht⟩

/-- A schema may be replaced when the next one follows the rules and every table may be replaced by
the one of its name. -/
theorem checkEvolution_eq_ok_iff {v : Unit} :
    current.checkEvolution next = .ok v ↔ next.check = .ok () ∧
      ∀ t ∈ current.tables, ∃ u, next.table? t.name = some u ∧ t.checkEvolution u = .ok () := by
  simp only [checkEvolution, bind_eq_ok_iff, forM_eq_ok_iff]
  refine ⟨fun ⟨_, checked, each⟩ => ⟨checked, ?_⟩, fun ⟨checked, each⟩ => ⟨(), checked, ?_⟩⟩
  · intro t ht
    have here := each t ht
    cases found : next.table? t.name with
    | none =>
        rw [found] at here
        exact absurd here throw_ne_ok
    | some u =>
        rw [found] at here
        exact ⟨u, rfl, here⟩
  · intro t ht
    obtain ⟨u, found, evolves⟩ := each t ht
    rw [found]
    exact evolves

theorem check_of_checkEvolution {v : Unit} (h : current.checkEvolution next = .ok v) :
    next.check = .ok () :=
  (checkEvolution_eq_ok_iff.mp h).1

/-- Every table is replaced by the one of its name. -/
theorem exists_table_of_checkEvolution {v : Unit} (h : current.checkEvolution next = .ok v)
    (ht : t ∈ current.tables) :
    ∃ u ∈ next.tables, next.table? t.name = some u ∧ u.name = t.name ∧
      t.checkEvolution u = .ok () := by
  obtain ⟨u, found, evolves⟩ := (checkEvolution_eq_ok_iff.mp h).2 t ht
  exact ⟨u, List.mem_of_find?_eq_some found, found, by simpa using List.find?_some found, evolves⟩

/-- **Every table has a successor.** -/
theorem exists_of_checkEvolution {v : Unit} (sound : current.Sound)
    (checked : current.check = .ok v) (h : current.checkEvolution next = .ok v)
    (ht : t ∈ current.tables) :
    ∃ u ∈ next.tables, next.table? t.name = some u ∧ t.Evolves u := by
  obtain ⟨u, mem, found, name, evolves⟩ := exists_table_of_checkEvolution h ht
  exact ⟨u, mem, found, Table.evolves_of_checkEvolution (sound.valid checked ht) name evolves⟩

/-- Tables of one name, an earlier and a later one, are related by evolution. -/
theorem evolves_of_name {v : Unit} (sound : current.Sound) (checked : current.check = .ok v)
    (sound' : next.Sound) (h : current.checkEvolution next = .ok v) (ht : t ∈ current.tables)
    (hu : u ∈ next.tables) (name : t.name = u.name) : t.Evolves u := by
  obtain ⟨u', -, found, evolves⟩ := exists_of_checkEvolution sound checked h ht
  have own := sound'.table?_eq_some_iff.mpr ⟨hu, name.symm⟩
  rw [found, Option.some.injEq] at own
  rwa [own] at evolves

end Schema

end RecordFormat
