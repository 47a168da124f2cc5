import RecordFormat.Proofs.Evolution.Compatibility

/-!
# Sort keys of upgrades

No rule of evolution is about sort keys as such. But a valid table has at most one, which is
required and stored, so an upgrade keeps it with its number, type and direction; and a sort key of
the upgrade cannot be new, for what is new is optional (`Schema.sortKey_kept`).
-/

namespace RecordFormat

open Outcome

/-- Sort keys are required, and are not derived. -/
theorem Field.sortKey_of_check {table : String} {f : Field} {u : Unit} (h : f.check table = .ok u)
    (sorted : f.isSortKey = true) : f.isRequired = true ∧ f.isStored = true := by
  have lawful := Field.lawful_of_check h
  refine ⟨lawful.sortKey sorted, ?_⟩
  by_contra computed
  have derived : f.isDerived = true := by simpa [isStored, isDerived] using computed
  rw [lawful.derivedUnsorted derived] at sorted
  cases sorted

theorem Field.Keeps.isSortKey_eq {f g : Field} (h : f.Keeps g) : g.isSortKey = f.isSortKey :=
  congrArg Option.isSome h.sort

namespace Table

variable {t u : Table} {f g : Field}

/-- A valid table has no other sort key than the one that it finds. -/
theorem Valid.sortKey?_eq_some_iff (valid : t.Valid) :
    t.sortKey? = some f ↔ f ∈ t.storedFields ∧ f.isSortKey = true := by
  constructor
  · intro found
    have mem : f ∈ t.fields := List.mem_of_find?_eq_some found
    have sorted : f.isSortKey = true := List.find?_some found
    have stored := (Field.sortKey_of_check (checkField valid.checked mem) sorted).2
    exact ⟨List.mem_filter.mpr ⟨mem, stored⟩, sorted⟩
  · rintro ⟨hf, sorted⟩
    have mem : f ∈ t.fields.filter Field.isSortKey :=
      List.mem_filter.mpr ⟨(List.mem_filter.mp hf).1, sorted⟩
    have checked := valid.checked
    unfold check at checked
    simp only [bind_eq_ok_iff] at checked
    obtain ⟨_, -, _, -, each⟩ := checked
    have few := length_sortKeys_le each
    rw [sortKey?, ← List.head?_filter]
    match keys : t.fields.filter Field.isSortKey with
    | [] =>
        rw [keys] at mem
        cases mem
    | [key] =>
        rw [keys, List.mem_singleton] at mem
        rw [mem]
        rfl
    | _ :: _ :: _ =>
        rw [keys] at few
        simp at few

/-- A stored field of an upgrade that is required stands for one of the table. -/
theorem Upgrades.exists_kept (h : t.Upgrades u) (valid' : u.Valid) (hg : g ∈ u.storedFields)
    (required : g.isRequired = true) : ∃ f ∈ t.storedFields, f.Keeps g := by
  by_cases fresh : ∀ f ∈ t.storedFields, f.id ≠ g.id
  · have optional := h.added g hg fresh
    rw [Field.isOptional_eq, required] at optional
    cases optional
  · push Not at fresh
    obtain ⟨f, hf, same⟩ := fresh
    obtain ⟨g', hg', keeps⟩ := h.kept f hf
    have own : g' = g :=
      List.inj_on_of_nodup_map valid'.numbered.distinct hg' hg (keeps.id.trans same)
    exact ⟨f, hf, own ▸ keeps⟩

/-- **An upgrade has the sort key of its table**, or none where the table has none. -/
theorem Upgrades.rel_sortKey? (h : t.Upgrades u) (valid : t.Valid) (valid' : u.Valid) :
    Option.Rel Field.Keeps t.sortKey? u.sortKey? := by
  cases key : t.sortKey? with
  | some f =>
      obtain ⟨hf, sorted⟩ := valid.sortKey?_eq_some_iff.mp key
      obtain ⟨g, hg, keeps⟩ := h.kept f hf
      rw [valid'.sortKey?_eq_some_iff.mpr ⟨hg, keeps.isSortKey_eq.trans sorted⟩]
      exact .some keeps
  | none =>
      cases key' : u.sortKey? with
      | none => exact .none
      | some g =>
          -- It would be required, so it would stand for a sort key of the table.
          obtain ⟨hg, sorted⟩ := valid'.sortKey?_eq_some_iff.mp key'
          have mem := (List.mem_filter.mp hg).1
          have required := (Field.sortKey_of_check (checkField valid'.checked mem) sorted).1
          obtain ⟨f, hf, keeps⟩ := h.exists_kept valid' hg required
          cases key.symm.trans
            (valid.sortKey?_eq_some_iff.mpr ⟨hf, keeps.isSortKey_eq.symm.trans sorted⟩)

end Table

/-- **An accepted upgrade keeps every sort key.** Each table has one of its name in the next schema,
and this has a sort key exactly when the table has one; that is then the field of the same number,
with the same type and direction. -/
theorem Schema.sortKey_kept {current next : Schema} (made : current.Made) (made' : next.Made)
    (checked : current.check = .ok ()) (evolves : current.checkEvolution next = .ok ()) :
    ∀ t ∈ current.tables, ∃ u, next.table? t.name = some u ∧
      Option.Rel (fun f g => g.id = f.id ∧ g.type.same f.type = true ∧
        g.constraints.sort = f.constraints.sort) t.sortKey? u.sortKey? := by
  intro t ht
  obtain ⟨checked', upgrades⟩ := (made.checkEvolution_iff made' checked).mp evolves
  obtain ⟨u, hu, upgrade⟩ := upgrades t ht
  refine ⟨u, made'.table?_eq_some_iff.mpr ⟨hu, upgrade.name⟩, ?_⟩
  have kept := upgrade.rel_sortKey? (made.valid checked ht) (made'.valid checked' hu)
  generalize t.sortKey? = key, u.sortKey? = key' at kept ⊢
  cases kept with
  | none => exact .none
  | some keeps => exact .some ⟨keeps.id, keeps.type, keeps.sort⟩

namespace Household

/-- People are sorted by age, the oldest first. -/
def sortedDefinition : Definition := ⟨"Household", [
  ⟨"Person", 1, [⟨1, "name", "string", ["required"], none⟩,
    ⟨2, "age", "int32", ["required", "des_sorted"], none⟩]⟩]⟩

def sortedAge : Field :=
  { age with constraints := { presence := .required, sort := some .descending } }

def sortedPerson : Table :=
  ⟨"Person", 1, [⟨1, "name", .primitive .string, .required, none⟩, sortedAge]⟩

/-- The age has another name and place, and there is a nickname. -/
def nextSortedDefinition : Definition := ⟨"Household", [
  ⟨"Person", 2, [⟨2, "years", "int32", ["required", "des_sorted"], none⟩,
    ⟨1, "name", "string", ["required"], none⟩,
    ⟨3, "nickname", "string", ["optional"], some (.string "")⟩]⟩]⟩

def years : Field := { sortedAge with name := "years" }

def nextSortedPerson : Table :=
  ⟨"Person", 2, [years, ⟨1, "name", .primitive .string, .required, none⟩,
    ⟨3, "nickname", .primitive .string, .optional, some (.string "")⟩]⟩

theorem built_sorted :
    ((sortedDefinition.build .strict).run {}).1 = .ok ⟨"Household", [sortedPerson]⟩ := by cbv

theorem built_nextSorted :
    ((nextSortedDefinition.build .strict).run {}).1 = .ok ⟨"Household", [nextSortedPerson]⟩ := by
  cbv

/-- The next household sorts people by age as well. -/
theorem sortKey_kept_person :
    ∃ u, Schema.table? ⟨"Household", [nextSortedPerson]⟩ "Person" = some u ∧
      Option.Rel (fun f g => g.id = f.id ∧ g.type.same f.type = true ∧
        g.constraints.sort = f.constraints.sort) (some sortedAge) u.sortKey? := by
  have plain := Interner.Reachable.empty.plain
  have kept := Schema.sortKey_kept (Schema.made_of_build plain built_sorted)
    (Schema.made_of_build plain built_nextSorted) rfl rfl sortedPerson (List.mem_singleton.mpr rfl)
  exact kept

end Household

end RecordFormat
