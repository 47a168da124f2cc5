import Mathlib
import RecordFormat.Proofs.Record.SortKeyOrder

/-!
# Comparing records of two versions

An upgrade keeps the sort key of a table under its number, but may give it another name. Comparing
looks for the key of the first record in the second one by number and name. So the records of both
versions are in one total order as long as the key is called the same, and none of the one compares
with any of the other once it is renamed (`Record.comparable_of_evolution`), although nothing that
the order depends on has changed (`Household.not_compareByKey_renamed`).
-/

namespace RecordFormat

open Outcome

/-- A valid table finds a field by the number of a stored one only under that one's name. -/
theorem Table.Valid.resolve?_of_id {t : Table} {f g : Field} (valid : t.Valid)
    (hg : g ∈ t.storedFields) (number : f.id = g.id) :
    t.resolve? f = if g.name = f.name then some g else none := by
  obtain ⟨mem, stored⟩ := List.mem_filter.mp hg
  split
  · next name =>
    have found := valid.fieldByName?_eq mem
    rw [name] at found
    exact Option.filter_eq_some_iff.mpr ⟨found, decide_eq_true number.symm⟩
  · next renamed =>
    rw [Option.eq_none_iff_forall_ne_some]
    intro own found
    obtain ⟨mem', name, number'⟩ := eq_of_resolve? found
    -- The number is not the reserved one, so it has one owner.
    have unreserved : own.id ≠ Field.derivedId := by
      rw [number', number]
      exact (valid.checkedField mem).isStored_iff.mp stored
    have hown : own ∈ t.storedFields :=
      List.mem_filter.mpr ⟨mem', (valid.checkedField mem').isStored_iff.mpr unreserved⟩
    obtain rfl : own = g :=
      List.inj_on_of_nodup_map valid.numbered.distinct hown hg (number'.trans number)
    exact renamed name

namespace Record

variable {r : Record} {f g : Field}

/-- A field is read as the table's own, if the table finds it. -/
theorem get_of_resolve? (found : r.table.resolve? f = some g) (own : r.table.resolve? g = some g) :
    r.get f = r.get g := by
  have name := (Table.eq_of_resolve? found).2.1
  rw [get, get, readField, readField, lookup_eq_ok_iff.mpr found, lookup_eq_ok_iff.mpr own, name]

theorem get_of_unresolved (absent : r.table.resolve? f = none) :
    r.get f = .error (.unknownField r.table.name f.name) := by
  refine get_of_unknown ?_
  rw [lookup, absent]
  rfl

/-- **A stored field is read by its number and name**, and not by its number alone. -/
theorem get_of_id (valid : r.table.Valid) (hg : g ∈ r.table.storedFields) (number : f.id = g.id) :
    r.get f = if g.name = f.name then r.get g
      else .error (.unknownField r.table.name f.name) := by
  have found := valid.resolve?_of_id hg number
  split at found
  · next name =>
    rw [if_pos name]
    exact get_of_resolve? found (valid.resolve?_eq (List.mem_filter.mp hg).1)
  · next renamed =>
    rw [if_neg renamed]
    exact get_of_unresolved found

/-- A record is not compared with one that does not know its sort key. -/
theorem compareByKey_eq_error {a b : Record} {key : Field} {x : Value} {e : RecordError}
    (name : a.table.name = b.table.name) (sorted : a.table.sortKey? = some key)
    (ours : a.get key = .ok x) (theirs : b.get key = .error e) : a.compareByKey b = .error e := by
  rw [compareByKey, refuseIf, if_neg (not_not_intro name)]
  simp only [ok_bind, sorted, ours, theirs]
  rfl

/-- The records of a codec whose sort key can be read. -/
def Keyed (c : TableCodec) (key : Field) (r : Record) : Prop := Obtained c r ∧ ∃ v, r.get key = .ok v

end Record

namespace TableCodec

variable {limits : Limits} {c d : TableCodec} {key key' : Field}

/-- The codec is compiled for a valid table, of which this is the sort key. -/
structure SortsBy (c : TableCodec) (key : Field) : Prop where
  serves : c.Serves
  sound : ∃ limit, c.Sound limit
  valid : c.table.Valid
  sorted : c.table.sortKey? = some key

theorem SortsBy.mem (h : c.SortsBy key) : key ∈ c.table.storedFields :=
  (h.valid.sortKey?_eq_some_iff.mp h.sorted).1

theorem SortsBy.table_eq (h : c.SortsBy key) {r : Record} (keyed : Record.Keyed c key r) :
    r.table = c.table := by
  obtain ⟨limit, sound⟩ := h.sound
  exact congrArg TableCodec.table (keyed.1.orderly sound).codec

/-- A sort key is required, so what is read is of its kind. -/
theorem SortsBy.kind?_of_get (h : c.SortsBy key) {r : Record} {v : Value}
    (obtained : Record.Obtained c r) (read : r.get key = .ok v) :
    v.kind? = key.type.asPrimitive? := by
  obtain ⟨limit, sound⟩ := h.sound
  obtain ⟨hf, sorted⟩ := h.valid.sortKey?_eq_some_iff.mp h.sorted
  have checked := Table.checkField h.valid.checked (List.mem_filter.mp hf).1
  exact (obtained.orderly sound).kind?_of_get h.serves hf
    (Field.sortKey_of_check checked sorted).1 read

/-- How the records of two codecs compare by the sort keys of their tables: all are in one order if
the keys are called the same, and otherwise neither table has the key of the other one. -/
structure ComparesWith (c d : TableCodec) (key key' : Field) : Prop where
  named : key'.name = key.name →
    Record.SortedBy key fun r => Record.Keyed c key r ∨ Record.Keyed d key' r
  renamed : key'.name ≠ key.name → ∀ a b, Record.Keyed c key a → Record.Keyed d key' b →
    a.compareByKey b = .error (.unknownField d.table.name key.name) ∧
      b.compareByKey a = .error (.unknownField c.table.name key'.name)

/-- **Records compare with those of another table** that has kept the sort key, if it has kept its
name as well. -/
theorem SortsBy.comparesWith (h : c.SortsBy key) (h' : d.SortsBy key')
    (name : d.table.name = c.table.name) (keeps : key.Keeps key') :
    c.ComparesWith d key key' := by
  have table {r : Record} (keyed : Record.Keyed c key r) := h.table_eq keyed
  have table' {r : Record} (keyed : Record.Keyed d key' r) := h'.table_eq keyed
  -- What the key of the other table is in a record of either one.
  have across {r : Record} (keyed : Record.Keyed c key r) : r.get key' =
      if key.name = key'.name then r.get key else .error (.unknownField c.table.name key'.name) := by
    rw [← table keyed]
    exact Record.get_of_id (table keyed ▸ h.valid) (table keyed ▸ h.mem) keeps.id
  have across' {r : Record} (keyed : Record.Keyed d key' r) : r.get key =
      if key'.name = key.name then r.get key' else .error (.unknownField d.table.name key.name) := by
    rw [← table' keyed]
    exact Record.get_of_id (table' keyed ▸ h'.valid) (table' keyed ▸ h'.mem) keeps.id.symm
  constructor
  · intro named
    have same : ∀ r, Record.Keyed c key r ∨ Record.Keyed d key' r → r.get key' = r.get key := by
      rintro r (keyed | keyed)
      · rw [across keyed, if_pos named.symm]
      · rw [across' keyed, if_pos named]
    have called : ∀ r, Record.Keyed c key r ∨ Record.Keyed d key' r →
        r.table.name = c.table.name := by
      rintro r (keyed | keyed)
      · rw [table keyed]
      · rw [table' keyed, name]
    refine Record.sortedBy_of_keys (fun a b ha hb => (called a ha).trans (called b hb).symm) ?_ ?_
    · rintro a (keyed | keyed)
      · exact ⟨key, table keyed ▸ h.sorted, rfl, fun _ _ => rfl⟩
      · exact ⟨key', table' keyed ▸ h'.sorted, keeps.sort, same⟩
    · rintro r (⟨obtained, v, read⟩ | keyed)
      · exact ⟨v, read, h.kind?_of_get obtained read⟩
      · obtain ⟨v, read⟩ := keyed.2
        refine ⟨v, (same r (.inr keyed)).symm.trans read, ?_⟩
        rw [h'.kind?_of_get keyed.1 read, ← FieldType.asPrimitive?_detach,
          FieldType.same_iff.mp keeps.type, FieldType.asPrimitive?_detach]
  · intro renamed a b keyed keyed'
    have called : a.table.name = b.table.name := by rw [table keyed, table' keyed', name]
    obtain ⟨x, ours⟩ := keyed.2
    obtain ⟨y, theirs⟩ := keyed'.2
    constructor
    · refine Record.compareByKey_eq_error called (table keyed ▸ h.sorted) ours ?_
      rw [across' keyed', if_neg renamed]
    · refine Record.compareByKey_eq_error called.symm (table' keyed' ▸ h'.sorted) theirs ?_
      rw [across keyed, if_neg (Ne.symm renamed)]

end TableCodec

namespace Registry

variable {limits : Limits} {t : Table} {c : TableCodec} {key : Field}

theorem GivesCodec.sortsBy (given : GivesCodec limits (fun _ => True) t c) (valid : c.table.Valid)
    (sorted : c.table.sortKey? = some key) : c.SortsBy key := by
  have compiled := (given.compiled nestedIn_true).inside.here
  exact ⟨compiled.serves valid, ⟨_, compiled.sound valid.numbered⟩, valid, sorted⟩

end Registry

/-- **Records of two versions compare while the sort key is called the same.** The codecs are any
that registries give for a table with a sort key and for its upgrade in the next schema, which has
a sort key of the same number, type and direction. If that has the same name too, all records of
both codecs whose keys can be read are in one total order, so that any two compare both ways, one
the reverse of the other. If it has another name, no record of the one codec compares with any of
the other: the one that is asked second does not know the other's key. -/
theorem Record.comparable_of_evolution {current next : Schema} {t : Table} {key : Field}
    (made : current.Made) (made' : next.Made) (checked : current.check = .ok ())
    (evolves : current.checkEvolution next = .ok ()) (ht : t ∈ current.tables)
    (sorted : t.sortKey? = some key) :
    ∃ u key', next.table? t.name = some u ∧ u.sortKey? = some key' ∧ key.Keeps key' ∧
      ∀ limits limits' t₀ u₀ c d, Registry.GivesCodec limits (fun _ => True) t₀ c → c.table = t →
        Registry.GivesCodec limits' (fun _ => True) u₀ d → d.table = u →
          c.ComparesWith d key key' := by
  obtain ⟨checked', upgrades⟩ := (made.checkEvolution_iff made' checked).mp evolves
  obtain ⟨u, hu, upgrade⟩ := upgrades t ht
  have valid := made.valid checked ht
  have valid' := made'.valid checked' hu
  have kept := upgrade.rel_sortKey? valid valid'
  rw [sorted] at kept
  cases found : u.sortKey? with
  | none =>
      rw [found] at kept
      cases kept
  | some key' =>
      rw [found] at kept
      have keeps := Option.rel_some_some.mp kept
      refine ⟨u, key', made'.table?_eq_some_iff.mpr ⟨hu, upgrade.name⟩, found, keeps, ?_⟩
      rintro limits limits' t₀ u₀ c d given rfl given' rfl
      exact (given.sortsBy valid sorted).comparesWith (given'.sortsBy valid' found) upgrade.name keeps

namespace Household

def fullName : Field := ⟨1, "name", .primitive .string, .required, none⟩

def nickname : Field := ⟨3, "nickname", .primitive .string, .optional, some (.string "")⟩

/-- People get a nickname and are sorted by age as before. -/
def nicknamedDefinition : Definition := ⟨"Household", [
  ⟨"Person", 2, [⟨2, "age", "int32", ["required", "des_sorted"], none⟩,
    ⟨1, "name", "string", ["required"], none⟩,
    ⟨3, "nickname", "string", ["optional"], some (.string "")⟩]⟩]⟩

def nicknamedPerson : Table := ⟨"Person", 2, [sortedAge, fullName, nickname]⟩

theorem built_nicknamed :
    ((nicknamedDefinition.build .strict).run {}).1 = .ok ⟨"Household", [nicknamedPerson]⟩ := by cbv

def nicknamedPersonCodec : TableCodec :=
  ⟨nicknamedPerson, limits, [⟨fullName, .string⟩, ⟨sortedAge, .fixed .int32 ⟨0⟩⟩,
    ⟨nickname, .string⟩]⟩

theorem givesCodec_nicknamedPerson :
    Registry.GivesCodec limits (fun _ => True) nicknamedPerson nicknamedPersonCodec :=
  ⟨trivial, { limits }, .fresh, by cbv⟩

/-- A person of some age, after there are nicknames. -/
def nicknamed (age : Int32) : Record :=
  .holding nicknamedPersonCodec [(1, .scalar (.string "Ann")), (2, .scalar (.int32 age))]

theorem obtained_nicknamed (age : Int32) : Record.Obtained nicknamedPersonCodec (nicknamed age) :=
  .change (.setName "age" (.scalar (.int32 age)))
    (.change (.setName "name" (.scalar (.string "Ann"))) (.arises .empty))

/-- Who is older comes first, with and without nicknames. -/
theorem comparable_nicknamed : ∃ o, (aging 8).compareByKey (nicknamed 7) = .ok o ∧
    (nicknamed 7).compareByKey (aging 8) = .ok o.swap := by
  have plain := Interner.Reachable.empty.plain
  have sorted : sortedPerson.sortKey? = some sortedAge := rfl
  obtain ⟨u, key', found, sorted', -, compares⟩ :=
    Record.comparable_of_evolution (Schema.made_of_build plain built_sorted)
      (Schema.made_of_build plain built_nicknamed) rfl rfl (List.mem_singleton.mpr rfl) sorted
  obtain rfl : nicknamedPerson = u := Option.some.inj found
  obtain rfl : sortedAge = key' := Option.some.inj sorted'
  have order := (compares limits limits _ _ _ _ givesCodec_sortedPerson rfl
    givesCodec_nicknamedPerson rfl).named rfl
  have older : Record.Keyed sortedPersonCodec sortedAge (aging 8) :=
    ⟨obtained_aging 8, _, get_aging 8⟩
  have younger : Record.Keyed nicknamedPersonCodec sortedAge (nicknamed 7) :=
    ⟨obtained_nicknamed 7, .scalar (.int32 7), by cbv⟩
  obtain ⟨o, compared⟩ := order.compares _ _ (.inl older) (.inr younger)
  exact ⟨o, compared, order.swap _ _ _ (.inl older) (.inr younger) compared⟩

def nextSortedPersonCodec : TableCodec :=
  ⟨nextSortedPerson, limits, [⟨fullName, .string⟩, ⟨years, .fixed .int32 ⟨0⟩⟩,
    ⟨nickname, .string⟩]⟩

theorem givesCodec_nextSortedPerson :
    Registry.GivesCodec limits (fun _ => True) nextSortedPerson nextSortedPersonCodec :=
  ⟨trivial, { limits }, .fresh, by cbv⟩

/-- A person of some age, after the age is called something else. -/
def counting (age : Int32) : Record :=
  .holding nextSortedPersonCodec [(1, .scalar (.string "Ann")), (2, .scalar (.int32 age))]

theorem obtained_counting (age : Int32) : Record.Obtained nextSortedPersonCodec (counting age) :=
  .change (.setName "years" (.scalar (.int32 age)))
    (.change (.setName "name" (.scalar (.string "Ann"))) (.arises .empty))

/-- Two people whose ages can be read do not compare after the age was renamed, which is an accepted
upgrade. -/
theorem not_compareByKey_renamed : ∃ current next : Schema,
    ((sortedDefinition.build .strict).run {}).1 = .ok current ∧
      ((nextSortedDefinition.build .strict).run {}).1 = .ok next ∧
      current.check = .ok () ∧ next.check = .ok () ∧ current.checkEvolution next = .ok () ∧
      current.tables = [sortedPerson] ∧ next.tables = [nextSortedPerson] ∧
      Registry.GivesCodec limits (fun _ => True) sortedPerson sortedPersonCodec ∧
      Registry.GivesCodec limits (fun _ => True) nextSortedPerson nextSortedPersonCodec ∧
      sortedPerson.sortKey? = some sortedAge ∧ sortedAge.type.isPrimitive = true ∧
      nextSortedPerson.sortKey? = some years ∧
      ∃ a b x y, Record.Obtained sortedPersonCodec a ∧ a.isComplete = true ∧
        a.get sortedAge = .ok x ∧ Record.Obtained nextSortedPersonCodec b ∧ b.isComplete = true ∧
        b.get years = .ok y ∧ (a.compareByKey b).isOk = false ∧ (b.compareByKey a).isOk = false := by
  refine ⟨_, _, built_sorted, built_nextSorted, rfl, rfl, rfl, rfl, rfl, givesCodec_sortedPerson,
    givesCodec_nextSortedPerson, rfl, rfl, rfl, aging 8, counting 7, .scalar (.int32 8),
    .scalar (.int32 7), obtained_aging 8, by cbv, get_aging 8, obtained_counting 7, by cbv, by cbv,
    by cbv, by cbv⟩

end Household

end RecordFormat
