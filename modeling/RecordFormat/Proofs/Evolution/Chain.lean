import RecordFormat.Proofs.Evolution.Forward

/-!
# Upgrades in several steps

A schema that may replace one which may itself replace a third may replace the third directly. The
rules for one table alone do not give this: a field that the middle version adds was judged as new
and is then judged as kept, so what is new to the oldest version is known to be optional only from
the first step, and to have its default only from the newest version's own check. Of a chain of
upgrades, each version may therefore replace any earlier one (`Schema.upgrades_compose`).
-/

namespace RecordFormat

namespace Table

variable {t u w : Table} {f g : Field}

/-- A field that is kept twice is kept. -/
theorem checkKept_trans {table table' : String} (hg : u.storedById? f.id = some g)
    (first : checkKept table u f = .ok ()) (second : checkKept table' w g = .ok ()) :
    checkKept table w f = .ok () := by
  obtain ⟨_, found, type, required, sort⟩ := checkKept_eq_ok_iff.mp first
  obtain rfl := Option.some.inj (hg.symm.trans found)
  obtain ⟨h, found', type', required', sort'⟩ := checkKept_eq_ok_iff.mp second
  rw [(mem_of_storedById? hg).2] at found'
  exact checkKept_eq_ok_iff.mpr
    ⟨h, found', type'.trans type, required'.trans required, sort'.trans sort⟩

/-- A field that is new after two steps may be added in one. -/
theorem checkAdded_trans (valid : w.Valid) (checked : u.check = .ok ())
    (first : t.checkEvolution u = .ok ()) (second : u.checkEvolution w = .ok ())
    (hg : g ∈ w.storedFields) : checkAdded t g = .ok () := by
  refine checkAdded_eq_ok_iff.mpr fun fresh => ?_
  have optional : g.isRequired = false := by
    cases middle : u.fieldById? g.id with
    | none =>
        exact (checkAdded_eq_ok_iff.mp ((checkEvolution_eq_ok_iff.mp second).2.2 g hg) middle).1
    | some h =>
        -- The middle version added it, so it was optional there, and the presence was kept.
        obtain ⟨hh, same⟩ := mem_of_storedById? (storedById?_of_fieldById? checked middle)
        obtain ⟨g', found, -, required, -⟩ :=
          checkKept_eq_ok_iff.mp ((checkEvolution_eq_ok_iff.mp second).2.1 h hh)
        rw [same, valid.storedById?_eq_some_iff.mpr ⟨hg, rfl⟩, Option.some.injEq] at found
        obtain rfl := found
        rw [required]
        exact (checkAdded_eq_ok_iff.mp ((checkEvolution_eq_ok_iff.mp first).2.2 h hh)
          (same ▸ fresh)).1
  exact ⟨optional, valid.default_of_optional hg optional⟩

/-- **Tables may be replaced in one step when in two**, through a table that follows the rules to
one that is valid. -/
theorem checkEvolution_trans (checked : u.check = .ok ()) (valid : w.Valid)
    (first : t.checkEvolution u = .ok ()) (second : u.checkEvolution w = .ok ()) :
    t.checkEvolution w = .ok () := by
  obtain ⟨version, kept, -⟩ := checkEvolution_eq_ok_iff.mp first
  obtain ⟨version', kept', -⟩ := checkEvolution_eq_ok_iff.mp second
  refine checkEvolution_eq_ok_iff.mpr ⟨Int16.le_trans version version', ?_, ?_⟩
  · intro f hf
    obtain ⟨g, found, -⟩ := checkKept_eq_ok_iff.mp (kept f hf)
    exact checkKept_trans found (kept f hf) (kept' g (mem_of_storedById? found).1)
  · intro g hg
    exact checkAdded_trans valid checked first second hg

end Table

namespace Schema

variable {a b c : Schema}

/-- Two upgrades to schemas, the second one of tables that could have been made, are one. -/
theorem checkEvolution_trans (made : ∀ t ∈ c.tables, t.Made) (first : a.checkEvolution b = .ok ())
    (second : b.checkEvolution c = .ok ()) : a.checkEvolution c = .ok () := by
  have checked := check_of_checkEvolution second
  refine checkEvolution_eq_ok_iff.mpr ⟨checked, ?_⟩
  intro t ht
  obtain ⟨u, hu, -, name, evolves⟩ := exists_table_of_checkEvolution first ht
  obtain ⟨w, hw, found, -, evolves'⟩ := exists_table_of_checkEvolution second hu
  exact ⟨w, name ▸ found, Table.checkEvolution_trans
    (checkTable (check_of_checkEvolution first) hu) ⟨made w hw, checkTable checked hw⟩
    evolves evolves'⟩

/-- Along a chain of upgrades, each version may replace every earlier one. -/
theorem pairwise_checkEvolution : ∀ {versions : List Schema},
    (∀ s ∈ versions, ∀ t ∈ s.tables, t.Made) →
      versions.IsChain (fun s t => s.checkEvolution t = .ok ()) →
        versions.Pairwise fun s t => s.checkEvolution t = .ok ()
  | [], _, _ => .nil
  | [s], _, _ => List.pairwise_singleton _ s
  | s :: t :: rest, made, chain => by
      obtain ⟨first, chain⟩ := List.isChain_cons_cons.mp chain
      have later : (t :: rest).Pairwise fun s t => s.checkEvolution t = .ok () :=
        pairwise_checkEvolution (fun u hu => made u (List.mem_cons_of_mem _ hu)) chain
      refine List.pairwise_cons.mpr ⟨?_, later⟩
      intro u hu
      rcases List.mem_cons.mp hu with rfl | mem
      · exact first
      · exact checkEvolution_trans (made u (List.mem_cons_of_mem _ hu)) first
          (List.rel_of_pairwise_cons later mem)

/-- **Upgrades compose.** Where a schema may be replaced by a second one and that by a third, the
third may replace the first directly; and along a chain of upgrades, each version may replace
every earlier one. The tables are such as could have been made; the first two schemas may be any. -/
theorem upgrades_compose :
    (∀ a b c : Schema, (∀ t ∈ c.tables, t.Made) → a.checkEvolution b = .ok () →
      b.checkEvolution c = .ok () → a.checkEvolution c = .ok ()) ∧
    ∀ versions : List Schema, (∀ s ∈ versions, ∀ t ∈ s.tables, t.Made) →
      versions.IsChain (fun s t => s.checkEvolution t = .ok ()) →
        versions.Pairwise fun s t => s.checkEvolution t = .ok () :=
  ⟨fun _ _ _ => checkEvolution_trans, fun _ => pairwise_checkEvolution⟩

end Schema

namespace Household

/-- A third version: the city is a town with another default, an address has a country, and a
person's age next year is computed. -/
def lastDefinition : Definition := ⟨"Household", [
  ⟨"Address", 3, [⟨1, "zip", "int32", ["required"], none⟩,
    ⟨2, "town", "string", ["optional"], some (.string "Lyon")⟩,
    ⟨3, "country", "string", ["optional"], some (.string "France")⟩]⟩,
  ⟨"Person", 2, [⟨0, "ageNextYear", "int32", ["derived"], none⟩,
    ⟨1, "home", "Address", ["required"], none⟩, ⟨2, "age", "int32", ["required"], none⟩,
    ⟨3, "nicknames", "list<string>", ["optional"], none⟩,
    ⟨4, "office", "Address", ["optional"], none⟩]⟩]⟩

def lastAddress : Table := ⟨"Address", 3, [zip,
  ⟨2, "town", .primitive .string, .optional, some (.string "Lyon")⟩,
  ⟨3, "country", .primitive .string, .optional, some (.string "France")⟩]⟩

def lastPerson : Table := ⟨"Person", 2, [⟨0, "ageNextYear", .primitive .int32, .computed, none⟩,
  { home with type := .bound lastAddress }, age, nicknames,
  ⟨4, "office", .bound lastAddress, .optional, none⟩]⟩

def lastSchema : Schema := ⟨"Household", [lastAddress, lastPerson]⟩

theorem built_lastSchema : ((lastDefinition.build .strict).run {}).1 = .ok lastSchema := by cbv

/-- The household of today may be replaced by the last one directly. -/
theorem upgrades_compose_versions : schema.checkEvolution lastSchema = .ok () ∧
    [schema, nextSchema, lastSchema].Pairwise fun s t => s.checkEvolution t = .ok () := by
  have made : ∀ s ∈ [schema, nextSchema, lastSchema], ∀ t ∈ s.tables, t.Made := by
    intro s hs
    simp only [List.mem_cons, List.not_mem_nil, or_false] at hs
    rcases hs with rfl | rfl | rfl
    · exact (Definition.build_sound Interner.Reachable.empty.plain built_schema).made
    · exact (Definition.build_sound Interner.Reachable.empty.plain built_nextSchema).made
    · exact (Definition.build_sound Interner.Reachable.empty.plain built_lastSchema).made
  have first : schema.checkEvolution nextSchema = .ok () := rfl
  have second : nextSchema.checkEvolution lastSchema = .ok () := rfl
  obtain ⟨direct, chain⟩ := Schema.upgrades_compose
  exact ⟨direct schema nextSchema lastSchema (made lastSchema (by simp)) first second,
    chain _ made (.cons_cons first (.cons_cons second (.singleton _)))⟩

end Household

end RecordFormat
