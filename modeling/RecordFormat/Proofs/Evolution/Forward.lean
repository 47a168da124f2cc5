import Mathlib
import RecordFormat.Proofs.Evolution.Codecs

/-!
# A newer reader reads what an older writer wrote

Let a schema evolve. A record that was made of new ones through the older schema's codecs and
then written is accepted by the newer schema's codec for the table of its name. At every depth
each stored field of the older table is set under its number as it was, to an equal value, and
each field that was added reads as absent (`Record.carriedOver_of_evolution`).
-/

namespace RecordFormat

open Outcome
open Value (Equal)

namespace Record

/-- What became of a record that a newer codec reads: stored fields are set as they were, to equal
values; fields that were added are not set, and read as their default unless they are groups,
which have none. -/
structure CarriedOver (r s : Record) : Prop where
  kept : ∀ f ∈ r.table.storedFields, ∃ g, s.table.storedById? f.id = some g ∧
    s.isSet g = r.isSet f ∧
    (r.isSet f = true → ∃ v w, r.get f = .ok v ∧ s.get g = .ok w ∧ Equal v w)
  added : ∀ g ∈ s.table.storedFields, (∀ f ∈ r.table.storedFields, f.id ≠ g.id) →
    s.isSet g = false ∧
    if g.type.isGroup then s.get g = .error (.noValue s.table.name g.name)
    else ∃ v, g.effectiveDefault? = some v ∧ s.get g = .ok v

variable {r r' s : Record}

/-- Being paired depends on the codec and the numbers of a record only. -/
theorem Paired.of_equal {R : TableCodec → TableCodec → Prop} (h : Paired R r' s)
    (codec : r'.codec = r.codec) (equal : Equal (.group r) (.group r')) : Paired R r s := by
  obtain ⟨m, m', read, read', maps⟩ := equal.exists_maps
  obtain ⟨codecs, known, staged, shared⟩ := h
  rw [codec] at codecs known
  refine ⟨codecs, ?_, staged, ?_⟩
  · intro k hk id present
    rw [read, Except.ok.injEq] at hk
    subst hk
    exact known m' read' id (maps.ids ▸ present)
  · intro k n hk hn id
    rw [read, Except.ok.injEq] at hk
    subst hk
    rw [shared m' n read' hn id, maps.ids]

/-- A newer codec reads all the numbers that the older one wrote. -/
theorem Paired.ids_eq (h : Paired TableCodec.Evolves r s) {m n : IdMap Value}
    (read : r.values = .ok m) (read' : s.values = .ok n) : m.ids = n.ids := by
  apply (sorted_of_values read).ids_eq (sorted_of_values read')
  intro id
  rw [h.shared m n read read' id]
  constructor
  · intro present
    exact ⟨present, h.codecs.known (h.known m read id present)⟩
  · rintro ⟨present, -⟩
    exact present

end Record

/-- In a valid table an absent optional field reads as its default, unless it is a group. -/
theorem Table.Valid.absent_of_optional {u : Table} (valid : u.Valid) {g : Field}
    (hg : g ∈ u.storedFields) (optional : g.isRequired = false) (table : String) :
    if g.type.isGroup then g.absent table = .error (.noValue table g.name)
    else ∃ v, g.effectiveDefault? = some v ∧ g.absent table = .ok v := by
  rcases List.mem_filter.mp hg with ⟨mem, stored⟩
  have plain := valid.default_eq_none mem
  have reads : ∀ v, g.effectiveDefault? = some v →
      ∃ v, g.effectiveDefault? = some v ∧ g.absent table = .ok v := by
    intro v effective
    refine ⟨v, effective, ?_⟩
    simp only [Field.absent, optional, effective, Bool.false_eq_true, if_false]
  cases type : g.type with
  | unbound | bound =>
      rw [type] at plain
      simp [FieldType.isGroup, Field.absent, optional, Field.effectiveDefault?, plain rfl, type]
  | list element =>
      rw [type] at plain
      exact reads (.list []) (by simp [Field.effectiveDefault?, plain rfl, type])
  | primitive p =>
      show ∃ v, _
      cases given : g.default with
      | some s => exact reads (.scalar s) (by simp [Field.effectiveDefault?, given])
      | none =>
          by_cases binary : p = .binary
          · exact reads (.scalar (.binary .empty))
              (by simp [Field.effectiveDefault?, given, type, binary])
          · -- The rules ask for a default here.
            have needed : g.requiresDefault = true := by
              simp [Field.requiresDefault, Field.isOptional_eq, optional, stored, type, binary]
            have declared := valid.default_of_optional hg optional needed
            rw [given] at declared
            cases declared

/-- An absent field that was added reads as its default, unless it is a group. -/
theorem Table.Evolves.absent_of_added {t u : Table} (h : t.Evolves u) (valid : u.Valid) {g : Field}
    (hg : g ∈ u.storedFields) (fresh : ∀ f ∈ t.storedFields, f.id ≠ g.id) (table : String) :
    if g.type.isGroup then g.absent table = .error (.noValue table g.name)
    else ∃ v, g.effectiveDefault? = some v ∧ g.absent table = .ok v :=
  valid.absent_of_optional hg (h.added g hg fresh).1 table

namespace Record

variable {r s : Record}

/-- **What is carried over**, of records that hold equal values. -/
theorem Paired.carriedOver (h : Paired TableCodec.Evolves r s) (settled : r.Settled)
    (equal : Equal (.group r) (.group s)) : r.CarriedOver s := by
  obtain ⟨m, n, read, read', maps⟩ := equal.exists_maps
  have evolves := h.codecs
  have staged : IdMap.Sorted s.pending := h.staged ▸ IdMap.sorted_nil
  constructor
  · intro f hf
    obtain ⟨g, found, -⟩ := evolves.table.kept f hf
    obtain ⟨hg, same⟩ := evolves.valid'.storedById?_eq_some_iff.mp found
    have isSet := isSet_eq evolves.serves settled.staged read hf
    have isSet' := isSet_eq evolves.serves' staged read' hg
    have rel := maps.rel f.id
    refine ⟨g, found, ?_, ?_⟩
    · rw [isSet, isSet', same]
      generalize m.find? f.id = x at rel
      generalize n.find? f.id = y at rel
      cases rel <;> rfl
    · intro set
      rcases Option.isSome_iff_exists.mp (isSet ▸ set) with ⟨v, value⟩
      obtain ⟨w, value', related⟩ := maps.exists_right value
      refine ⟨v, w, ?_, ?_, related⟩
      · rw [get_eq evolves.serves settled.staged read hf, Field.valueIn, value]
      · rw [get_eq evolves.serves' staged read' hg, Field.valueIn, same, value']
  · intro g hg fresh
    have absent : n.find? g.id = none := by
      rw [IdMap.find?_eq_none_iff, ← maps.ids]
      intro present
      -- The older codec knows every number that was written, and only its own fields.
      obtain ⟨slot, found⟩ := Option.isSome_iff_exists.mp (h.known m read g.id present)
      exact fresh slot.field (evolves.serves.stored slot (TableCodec.mem_of_slot? found))
        (TableCodec.id_of_slot? found)
    constructor
    · rw [isSet_eq evolves.serves' staged read' hg, absent]
      rfl
    · rw [get_eq evolves.serves' staged read' hg, Field.valueIn, absent]
      exact evolves.table.absent_of_added evolves.valid' hg fresh _

variable {limits : Limits} {mode mode' : BuildMode} {d d' : Definition} {i i' : Interner}
  {current next : Schema} {t : Table} {c : TableCodec} {bytes : Bytes}

/-- **A newer reader reads what an older writer wrote.** The record was made of new ones, of
codecs that registries give for tables of the current schema, and is read by any codec that a
registry gives for the table of that name in the next schema. -/
theorem carriedOver_of_evolution (interner : i.Reachable) (interner' : i'.Reachable)
    (built : ((d.build mode).run i).1 = .ok current)
    (built' : ((d'.build mode').run i').1 = .ok next) (checked : current.check = .ok ())
    (evolves : current.checkEvolution next = .ok ())
    (given : Registry.GivesCodec limits (· ∈ current.tables) t c) (codec : r.codec = c)
    (grown : (Value.group r).Grown fun c => ∃ t,
      Registry.GivesCodec limits (· ∈ current.tables) t c)
    (written : r.toBytes = .ok bytes) :
    ∃ u, next.table? t.name = some u ∧
      ∀ c', Registry.GivesCodec limits (· ∈ next.tables) u c' →
        ∃ s, Record.ofBytes c' bytes = .ok s ∧ (Value.group r).Linked CarriedOver (.group s) := by
  have sound := Definition.build_sound interner.plain built
  have sound' := Definition.build_sound interner'.plain built'
  have family : TableCodec.Family limits.maxRecordSize (current.Compiles limits) :=
    sound.family checked
  obtain ⟨here, table⟩ := sound.compiles_of_gives given
  subst codec table
  obtain ⟨u, mem, found, -⟩ :=
    Schema.exists_of_checkEvolution sound checked evolves here.here.asked
  refine ⟨u, found, ?_⟩
  intro c' given'
  obtain ⟨here', rfl⟩ := sound'.compiles_of_gives given'
  -- What the older codec reads of the octets.
  have made := grown.imp fun c given => (sound.compiles_of_gives given.choose_spec).1
  obtain ⟨-, M, tracks⟩ := (family.of_grown made).1 r rfl
  obtain ⟨b, rfl, reads⟩ := tracks.written lasting_settled (family.everywhere_sound here) written
  have owns := reads.owns b rfl
  have decoded := Operator.decode_group (Bytes.partAt_self b.bytes) owns.small owns.complete
  -- What the newer codec reads of the same octets.
  have name := (sound'.table?_eq_some_iff.mp found).2
  have paired := Schema.paired_of_evolution sound checked sound' evolves here here' trivial trivial
    (congrArg FieldType.unbound name.symm)
  obtain ⟨w, decoded', linked⟩ := Operator.decode_paired (fun _ _ h => h.openedBy)
    (fun _ settled => settled.closed) (reads.holds reads.settled) paired decoded
  rcases Operator.decode_group_eq_ok_iff.mp decoded' with ⟨b', slice, small', complete', rfl⟩
  rw [(Bytes.partAt_self b.bytes).slice_eq, Except.ok.injEq] at slice
  obtain rfl : b = b' := RecordBuffer.eq_of_bytes slice
  refine ⟨_, ofBytes_eq_ok_iff.mpr ⟨b, rfl, small', complete', rfl⟩, ?_⟩
  have linked : (Value.group r).Linked (fun r s => r.Settled ∧ Paired TableCodec.Evolves r s) _ :=
    (tracks.holds tracks.settled).linked_of_equal (reads.holds reads.settled) (tracks.equal reads)
      linked (fun _ _ m h => h.known m) fun _ _ _ settled codec equal h =>
        ⟨settled, h.of_equal codec equal⟩
  have equal' := linked.equal fun r s m n h read read' =>
    ⟨h.2.codecs.table.name.symm, h.2.ids_eq read read'⟩
  exact (linked.and_equal equal').imp fun r s h => h.1.2.carriedOver h.1.1 h.2

end Record

/-! ## A household that evolves

An address gets a city and a person a place of work, and the names are renamed. -/

namespace Household

def definition : Definition := ⟨"Household", [
  ⟨"Address", 1, [⟨1, "zip", "int32", ["required"], none⟩]⟩,
  ⟨"Person", 1, [⟨1, "home", "Address", ["required"], none⟩,
    ⟨2, "age", "int32", ["required"], none⟩, ⟨3, "names", "list<string>", ["optional"], none⟩]⟩]⟩

def schema : Schema := ⟨"Household", [address, person]⟩

def nextDefinition : Definition := ⟨"Household", [
  ⟨"Address", 2, [⟨1, "zip", "int32", ["required"], none⟩,
    ⟨2, "city", "string", ["optional"], some (.string "Paris")⟩]⟩,
  ⟨"Person", 2, [⟨1, "home", "Address", ["required"], none⟩,
    ⟨2, "age", "int32", ["required"], none⟩, ⟨3, "nicknames", "list<string>", ["optional"], none⟩,
    ⟨4, "work", "Address", ["optional"], none⟩]⟩]⟩

def city : Field := ⟨2, "city", .primitive .string, .optional, some (.string "Paris")⟩

def nextAddress : Table := ⟨"Address", 2, [zip, city]⟩

def nextHome : Field := { home with type := .bound nextAddress }

def nicknames : Field := { names with name := "nicknames" }

def work : Field := ⟨4, "work", .bound nextAddress, .optional, none⟩

def nextPerson : Table := ⟨"Person", 2, [nextHome, age, nicknames, work]⟩

def nextSchema : Schema := ⟨"Household", [nextAddress, nextPerson]⟩

def nextAddressCodec : TableCodec :=
  ⟨nextAddress, limits, [⟨zip, .fixed .int32 ⟨0⟩⟩, ⟨city, .string⟩]⟩

def nextPersonCodec : TableCodec :=
  ⟨nextPerson, limits, [⟨nextHome, .group nextAddressCodec⟩, ⟨age, .fixed .int32 ⟨0⟩⟩,
    ⟨nicknames, .list .string 10⟩, ⟨work, .group nextAddressCodec⟩]⟩

theorem built_schema : ((definition.build .strict).run {}).1 = .ok schema := by cbv

theorem built_nextSchema : ((nextDefinition.build .strict).run {}).1 = .ok nextSchema := by cbv

theorem givesCodec_address : Registry.GivesCodec limits (· ∈ schema.tables) address addressCodec :=
  ⟨List.mem_cons_self .., { limits }, .fresh, by cbv⟩

theorem givesCodec_currentPerson :
    Registry.GivesCodec limits (· ∈ schema.tables) person personCodec :=
  givesCodec_person (List.mem_cons_of_mem _ (List.mem_cons_self ..))

theorem givesCodec_nextPerson :
    Registry.GivesCodec limits (· ∈ nextSchema.tables) nextPerson nextPersonCodec :=
  ⟨List.mem_cons_of_mem _ (List.mem_cons_self ..), { limits }, .fresh, by cbv⟩

/-- A person is made by setting one field after the other, and so is the home. -/
theorem grown_resident : (Value.group resident).Grown fun c => ∃ t,
    Registry.GivesCodec limits (· ∈ schema.tables) t c := by
  have place : (Value.group place).Grown fun c => ∃ t,
      Registry.GivesCodec limits (· ∈ schema.tables) t c := by
    refine .edit (e := .set zip (.scalar (.int32 75011))) (.empty ⟨_, givesCodec_address⟩) ?_ rfl
    rintro id v ⟨⟩
    exact .scalar _
  refine .edit (e := .set names (.list [.scalar (.string "Ann")]))
    (.edit (e := .set age (.scalar (.int32 7)))
      (.edit (e := .set home (.group Household.place)) (.empty ⟨_, givesCodec_currentPerson⟩) ?_
        rfl) ?_ rfl) ?_ rfl
  · rintro id v ⟨⟩
    exact place
  · rintro id v ⟨⟩
    exact .scalar _
  · rintro id v ⟨⟩
    exact .list fun x hx => List.mem_singleton.mp hx ▸ .scalar _

/-- A person that was written before the household evolved. -/
theorem carriedOver_resident : ∃ bytes s, resident.toBytes = .ok bytes ∧
    Record.ofBytes nextPersonCodec bytes = .ok s ∧
      (Value.group resident).Linked Record.CarriedOver (.group s) := by
  obtain ⟨bytes, encoded⟩ := encode_values
  have written : resident.toBytes = .ok bytes :=
    (Record.toBytes_eq_encode rfl (m := values) rfl).trans encoded
  obtain ⟨u, found, reads⟩ := Record.carriedOver_of_evolution .empty .empty built_schema
    built_nextSchema (by cbv) rfl givesCodec_currentPerson rfl grown_resident written
  obtain rfl : nextPerson = u := Option.some.inj found
  obtain ⟨s, read, linked⟩ := reads nextPersonCodec givesCodec_nextPerson
  exact ⟨bytes, s, written, read, linked⟩

end Household

end RecordFormat
