import RecordFormat.Proofs.Evolution.Forward

/-!
# An older reader reads what a newer writer writes

Let a schema evolve. A record that was made of new ones through the newer schema's codecs and
then written is accepted by the older schema's codec for the table of its name, which skips the
numbers that it does not know. At every depth the older reader has the stored fields of its own
table that were set, with what was written, and reads its own default for any other optional
field (`Record.readBack_of_evolution`).
-/

namespace RecordFormat

open Outcome

/-- The second codec is for an earlier version of the first one's table. -/
abbrev TableCodec.Follows (d c : TableCodec) : Prop := c.Evolves d ∧ c.table.Valid

namespace Record

/-- What an older codec reads of a record: the fields of its own table that are set there, under
the numbers of that record's values. An optional field that is not set reads as the reader's own
default, unless it is a group, which has none. -/
structure ReadBack (r s : Record) : Prop where
  name : s.table.name = r.table.name
  values : ∃ m n, r.values = .ok m ∧ s.values = .ok n ∧ n.ids ⊆ m.ids ∧
    ∀ id, id ∈ n.ids ↔ ∃ f ∈ s.table.storedFields, f.id = id ∧
      ∃ g, r.table.storedById? id = some g ∧ r.isSet g = true
  set : ∀ f ∈ s.table.storedFields, ∃ g, r.table.storedById? f.id = some g ∧
    s.isSet f = r.isSet g
  absent : ∀ f ∈ s.table.storedFields, f.isRequired = false → s.isSet f = false →
    if f.type.isGroup then s.get f = .error (.noValue s.table.name f.name)
    else ∃ v, f.effectiveDefault? = some v ∧ s.get f = .ok v

/-- The octets of a grown record, read through a codec that is paired with its own. -/
theorem exists_linked_of_grown {R : TableCodec → TableCodec → Prop} {limit : Nat}
    {C : TableCodec → Prop} {r : Record} {d : TableCodec} {bytes : Bytes}
    (family : TableCodec.Family limit C) (grown : (Value.group r).Grown C)
    (opened : ∀ c d, R c d → c.OpenedBy d)
    (paired : (Operator.group r.codec).Paired R (.group d)) (written : r.toBytes = .ok bytes) :
    ∃ s, Record.ofBytes d bytes = .ok s ∧
      (Value.group r).Linked (fun r s => r.Settled ∧ Record.Paired R r s) (.group s) := by
  obtain ⟨own, M, tracks⟩ := (family.of_grown grown).1 r rfl
  -- What the record's own codec reads of the octets.
  obtain ⟨b, rfl, reads⟩ := tracks.written lasting_settled (family.everywhere_sound own) written
  have owns := reads.owns b rfl
  have here := Bytes.partAt_self b.bytes
  have decoded := Operator.decode_group here owns.small owns.complete
  -- What the other codec reads of the same octets.
  obtain ⟨w, decoded', linked⟩ := Operator.decode_paired opened (fun _ settled => settled.closed)
    (reads.holds reads.settled) paired decoded
  rcases Operator.decode_group_eq_ok_iff.mp decoded' with ⟨b', slice, small', complete', rfl⟩
  rw [here.slice_eq, Except.ok.injEq] at slice
  obtain rfl : b = b' := RecordBuffer.eq_of_bytes slice
  refine ⟨_, ofBytes_eq_ok_iff.mpr ⟨b, rfl, small', complete', rfl⟩, ?_⟩
  exact (tracks.holds tracks.settled).linked_of_equal (reads.holds reads.settled)
    (tracks.equal reads) linked (fun _ _ m h => h.known m)
    fun _ _ _ settled codec equal h => ⟨settled, h.of_equal codec equal⟩

variable {r s : Record}

/-- The numbers that an older reader has are those of its own table that were written. -/
theorem Paired.mem_ids_iff (h : Paired TableCodec.Follows r s) {m n : IdMap Value}
    (read : r.values = .ok m) (read' : s.values = .ok n) {id : Int16} :
    id ∈ n.ids ↔ id ∈ m.ids ∧ ∃ f ∈ s.table.storedFields, f.id = id := by
  rw [h.shared m n read read' id]
  constructor
  · rintro ⟨present, slot⟩
    obtain ⟨t, slot⟩ := Option.isSome_iff_exists.mp slot
    exact ⟨present, t.field, h.codecs.1.serves.stored t (TableCodec.mem_of_slot? slot),
      TableCodec.id_of_slot? slot⟩
  · rintro ⟨present, f, hf, rfl⟩
    obtain ⟨t, slot, -⟩ := h.codecs.1.serves.slot f hf
    exact ⟨present, Option.isSome_of_eq_some slot⟩

/-- **What is read back**, of records that can be read. -/
theorem Paired.readBack (h : Paired TableCodec.Follows r s) (settled : r.Settled)
    {m n : IdMap Value} (read : r.values = .ok m) (read' : s.values = .ok n) : r.ReadBack s := by
  obtain ⟨evolves, valid⟩ := h.codecs
  have staged : IdMap.Sorted s.pending := h.staged ▸ IdMap.sorted_nil
  have isSet' : ∀ f ∈ s.table.storedFields, s.isSet f = (n.find? f.id).isSome := fun f hf =>
    isSet_eq evolves.serves staged read' hf
  -- Each stored field of the reader has a partner, which is set when its number was written.
  have partner : ∀ f ∈ s.table.storedFields, ∃ g, r.table.storedById? f.id = some g ∧
      r.isSet g = (m.find? f.id).isSome := by
    intro f hf
    obtain ⟨g, found, -⟩ := evolves.table.kept f hf
    obtain ⟨hg, same⟩ := evolves.valid'.storedById?_eq_some_iff.mp found
    exact ⟨g, found, same ▸ isSet_eq evolves.serves' settled.staged read hg⟩
  refine ⟨evolves.table.name.symm, ⟨m, n, read, read', ?_, ?_⟩, ?_, ?_⟩
  · intro id present
    exact ((h.mem_ids_iff read read').mp present).1
  · intro id
    rw [h.mem_ids_iff read read', ← IdMap.isSome_find?_iff]
    constructor
    · rintro ⟨present, f, hf, rfl⟩
      obtain ⟨g, found, isSet⟩ := partner f hf
      exact ⟨f, hf, rfl, g, found, isSet.trans present⟩
    · rintro ⟨f, hf, rfl, g, found, set⟩
      obtain ⟨g', found', isSet⟩ := partner f hf
      obtain rfl : g = g' := Option.some.inj (found.symm.trans found')
      exact ⟨isSet.symm.trans set, f, hf, rfl⟩
  · intro f hf
    obtain ⟨g, found, isSet⟩ := partner f hf
    refine ⟨g, found, ?_⟩
    rw [isSet' f hf, isSet, Bool.eq_iff_iff, IdMap.isSome_find?_iff, IdMap.isSome_find?_iff,
      h.mem_ids_iff read read', and_iff_left ⟨f, hf, rfl⟩]
  · intro f hf optional unset
    rw [isSet' f hf, Option.isSome_eq_false_iff, Option.isNone_iff_eq_none] at unset
    rw [get_eq evolves.serves staged read' hf, Field.valueIn, unset]
    exact valid.absent_of_optional hf optional _

variable {limits : Limits} {mode mode' : BuildMode} {d d' : Definition} {i i' : Interner}
  {current next : Schema} {t : Table} {c : TableCodec}

/-- **An older reader reads what a newer writer writes.** The codec is one that a registry gives
for a table of the current schema. The record was made of new ones, of codecs that registries
give for tables of the next schema, and is one of the table of that name. -/
theorem readBack_of_evolution (interner : i.Reachable) (interner' : i'.Reachable)
    (built : ((d.build mode).run i).1 = .ok current)
    (built' : ((d'.build mode').run i').1 = .ok next) (checked : current.check = .ok ())
    (evolves : current.checkEvolution next = .ok ())
    (given : Registry.GivesCodec limits (· ∈ current.tables) t c) :
    ∃ u, next.table? t.name = some u ∧
      ∀ c' r bytes, Registry.GivesCodec limits (· ∈ next.tables) u c' → r.codec = c' →
        (Value.group r).Grown (fun c => ∃ t, Registry.GivesCodec limits (· ∈ next.tables) t c) →
          r.toBytes = .ok bytes →
            ∃ s, Record.ofBytes c bytes = .ok s ∧ (Value.group r).Linked ReadBack (.group s) := by
  have sound := Definition.build_sound interner.plain built
  have sound' := Definition.build_sound interner'.plain built'
  have family : TableCodec.Family limits.maxRecordSize (next.Compiles limits) :=
    sound'.family (Schema.check_of_checkEvolution evolves)
  obtain ⟨here, rfl⟩ := sound.compiles_of_gives given
  obtain ⟨u, mem, found, -⟩ :=
    Schema.exists_of_checkEvolution sound checked evolves here.here.asked
  refine ⟨u, found, ?_⟩
  rintro _ r bytes given' rfl grown written
  obtain ⟨here', rfl⟩ := sound'.compiles_of_gives given'
  have made := grown.imp fun c given => (sound'.compiles_of_gives given.choose_spec).1
  have name := (sound'.table?_eq_some_iff.mp found).2
  have paired := Schema.paired_of_evolution sound checked sound' evolves here here' trivial trivial
    (congrArg FieldType.unbound name.symm)
  have valid : c.Everywhere fun c => c.table.Valid :=
    here.imp fun c compiled => sound.valid checked compiled.asked
  obtain ⟨s, read, linked⟩ := exists_linked_of_grown (R := TableCodec.Follows) family made
    (fun _ _ follows => follows.1.opens) (paired.and_left valid).flip written
  refine ⟨s, read, linked.and_values.imp ?_⟩
  rintro r s ⟨⟨settled, paired⟩, m, n, read, read'⟩
  exact paired.readBack settled read read'

end Record

namespace Household

/-- An address with a city. -/
def office : Record :=
  { Record.empty nextAddressCodec with
    pending := [(1, .scalar (.int32 69001)), (2, .scalar (.string "Lyon"))] }

/-- A person of the household that has evolved. The home has a city, and there is a place of
work, but there are no names. -/
def newcomer : Record :=
  { Record.empty nextPersonCodec with
    pending := [(1, .group office), (2, .scalar (.int32 7)), (4, .group office)] }

theorem givesCodec_nextAddress :
    Registry.GivesCodec limits (· ∈ nextSchema.tables) nextAddress nextAddressCodec :=
  ⟨List.mem_cons_self .., { limits }, .fresh, by cbv⟩

theorem grown_newcomer : (Value.group newcomer).Grown fun c => ∃ t,
    Registry.GivesCodec limits (· ∈ nextSchema.tables) t c := by
  have office : (Value.group office).Grown fun c => ∃ t,
      Registry.GivesCodec limits (· ∈ nextSchema.tables) t c := by
    refine .edit (e := .set city (.scalar (.string "Lyon")))
      (.edit (e := .set zip (.scalar (.int32 69001))) (.empty ⟨_, givesCodec_nextAddress⟩) ?_ rfl)
      ?_ rfl
    all_goals
      rintro id v ⟨⟩
      exact .scalar _
  refine .edit (e := .set work (.group Household.office))
    (.edit (e := .set age (.scalar (.int32 7)))
      (.edit (e := .set nextHome (.group Household.office)) (.empty ⟨_, givesCodec_nextPerson⟩) ?_
        rfl) ?_ rfl) ?_ rfl
  · rintro id v ⟨⟩
    exact office
  · rintro id v ⟨⟩
    exact .scalar _
  · rintro id v ⟨⟩
    exact office

/-- A person that is written after the household evolved, and read as before. -/
theorem readBack_newcomer : ∃ bytes s, newcomer.toBytes = .ok bytes ∧
    Record.ofBytes personCodec bytes = .ok s ∧
      (Value.group newcomer).Linked Record.ReadBack (.group s) := by
  obtain ⟨bytes, written⟩ : ∃ bytes, newcomer.toBytes = .ok bytes := isOk_iff.mp (by cbv)
  obtain ⟨u, found, reads⟩ := Record.readBack_of_evolution .empty .empty built_schema
    built_nextSchema (by cbv) rfl givesCodec_currentPerson
  obtain rfl : nextPerson = u := Option.some.inj found
  obtain ⟨s, read, linked⟩ :=
    reads nextPersonCodec newcomer bytes givesCodec_nextPerson rfl grown_newcomer written
  exact ⟨bytes, s, written, read, linked⟩

end Household

end RecordFormat
