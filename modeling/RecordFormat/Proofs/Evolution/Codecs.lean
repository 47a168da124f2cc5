import RecordFormat.Proofs.Codec.Versions
import RecordFormat.Proofs.Record.Growth
import RecordFormat.Proofs.Registry.Uniqueness
import RecordFormat.Proofs.Schema.Evolution

/-!
# Codecs of two versions of a schema

The codecs that are compiled of a sound and checked schema are a family: each table name has one.
When the schema evolves, a codec of a table and one of its successor are paired at every depth,
for groups are compared by name, and every name leads from a table to its own successor
(`Schema.paired_of_evolution`).
-/

namespace RecordFormat

open Outcome

namespace Schema

variable {s : Schema} {limits : Limits} {t : Table} {c : TableCodec}

/-- The codec and those inside are compiled of tables of the schema. -/
def Compiles (s : Schema) (limits : Limits) (c : TableCodec) : Prop :=
  c.Everywhere (TableCodec.Compiled limits (· ∈ s.tables))

theorem Sound.keyedIn (sound : s.Sound) : KeyedIn (· ∈ s.tables) := by
  intro t u ht hu key
  exact sound.eq_of_name ht hu (Prod.mk.inj key).1

/-- What a registry gives for a table of the schema. -/
theorem Sound.compiles_of_gives (sound : s.Sound)
    (given : Registry.GivesCodec limits (· ∈ s.tables) t c) :
    s.Compiles limits c ∧ c.table = t := by
  have compiled := given.compiled sound.nested
  exact ⟨compiled.inside,
    sound.eq_of_name compiled.inside.here.asked given.1 (Prod.mk.inj compiled.table).1⟩

/-- **The codecs of a schema are a family.** -/
theorem Sound.family (sound : s.Sound) (checked : s.check = .ok ()) :
    TableCodec.Family limits.maxRecordSize (s.Compiles limits) where
  inside c h := Operator.Everywhere.nested h
  unique c d hc hd name :=
    TableCodec.eq_of_table sound.keyedIn hc hd (sound.eq_of_name hc.here.asked hd.here.asked name)
  serves c h := h.here.serves (sound.valid checked h.here.asked)
  sound c h := h.here.sound (sound.valid checked h.here.asked).numbered
  limit_eq c h := by rw [h.here.limits_eq]

end Schema

/-! ## Pairs of codecs -/

/-- The second codec is for what became of the first one's table. -/
structure TableCodec.Evolves (c d : TableCodec) : Prop where
  limits : c.limits = d.limits
  serves : c.Serves
  serves' : d.Serves
  valid' : d.table.Valid
  table : c.table.Evolves d.table

namespace TableCodec.Evolves

variable {c d : TableCodec}

/-- What the first codec knows the second one knows as well. -/
theorem known (h : c.Evolves d) {id : Int16} (known : (c.slot? id).isSome) :
    (d.slot? id).isSome := by
  obtain ⟨s, slot⟩ := Option.isSome_iff_exists.mp known
  obtain ⟨g, found, -⟩ := h.table.kept s.field (h.serves.stored s (mem_of_slot? slot))
  rcases h.valid'.storedById?_eq_some_iff.mp found with ⟨stored, same⟩
  obtain ⟨s', slot', -⟩ := h.serves'.slot g stored
  rw [same, id_of_slot? slot] at slot'
  rw [slot']
  rfl

theorem openedBy (h : c.Evolves d) : c.OpenedBy d := by
  intro b small complete
  refine ⟨h.limits ▸ small, ?_⟩
  rw [checkBuffer_eq_ok_iff, Table.filter_isStored_requiredFields] at complete ⊢
  intro g hg
  obtain ⟨stored, required⟩ := List.mem_filter.mp hg
  obtain ⟨f, hf, same, required'⟩ := h.table.exists_required h.valid' stored required
  rw [← same]
  exact complete f (List.mem_filter.mpr ⟨hf, required'⟩)

/-- The first codec takes what the second one does, for nothing that it requires became optional. -/
theorem opens (h : c.Evolves d) : d.OpenedBy c := by
  intro b small complete
  refine ⟨h.limits ▸ small, ?_⟩
  rw [checkBuffer_eq_ok_iff, Table.filter_isStored_requiredFields] at complete ⊢
  intro f hf
  obtain ⟨stored, required⟩ := List.mem_filter.mp hf
  obtain ⟨g, found, -, presence⟩ := h.table.kept f stored
  obtain ⟨hg, same⟩ := h.valid'.storedById?_eq_some_iff.mp found
  rw [← same]
  exact complete g (List.mem_filter.mpr ⟨hg, presence.trans required⟩)

end TableCodec.Evolves

variable {current next : Schema} {limits : Limits}

/-- Compiled codecs for tables of one name, in two versions of a schema. -/
theorem TableCodec.Compiled.evolves {c d : TableCodec} (h : c.Compiled limits (· ∈ current.tables))
    (sound : current.Sound) (checked : current.check = .ok ()) (sound' : next.Sound)
    (evolves : current.checkEvolution next = .ok ()) (h' : d.Compiled limits (· ∈ next.tables))
    (name : c.table.name = d.table.name) : c.Evolves d := by
  have valid := sound.valid checked h.asked
  have valid' := sound'.valid (Schema.check_of_checkEvolution evolves) h'.asked
  exact ⟨h.limits_eq.trans h'.limits_eq.symm, h.serves valid, h'.serves valid', valid',
    Schema.evolves_of_name sound checked sound' evolves h.asked h'.asked name⟩

namespace Schema

/-- **Operators of one type in two versions of a schema are paired.** -/
theorem paired_of_evolution (sound : current.Sound) (checked : current.check = .ok ())
    (sound' : next.Sound) (evolves : current.checkEvolution next = .ok ()) {op op' : Operator}
    (compiled : op.Everywhere (TableCodec.Compiled limits (· ∈ current.tables)))
    (compiled' : op'.Everywhere (TableCodec.Compiled limits (· ∈ next.tables)))
    (configured : op.Configured limits) (configured' : op'.Configured limits)
    (type : op.type.detach = op'.type.detach) : op.Paired TableCodec.Evolves op' := by
  have akin := Operator.akin_of_type type
  induction compiled generalizing op' with
  | fixed kind limit =>
      cases akin with
      | fixed _ _ limit' => exact .fixed kind limit limit'
  | string =>
      cases akin
      exact .string
  | binary =>
      cases akin
      exact .binary
  | @list element maxElements _ ih =>
      cases akin with
      | @list _ element' _ maxElements' inner =>
          obtain rfl : maxElements = maxElements' := configured.1.trans configured'.1.symm
          exact .list (ih compiled'.element configured.2 configured'.2 inner
            (Operator.akin_of_type inner))
  | @group c here slots ih =>
      cases akin with
      | @group _ d name =>
          have inside : d.Everywhere (TableCodec.Compiled limits (· ∈ next.tables)) := compiled'
          have related := here.evolves sound checked sound' evolves inside.here name
          refine .group related ?_
          intro id s s' slot slot'
          have hs := TableCodec.mem_of_slot? slot
          have hs' := TableCodec.mem_of_slot? slot'
          have type : s.operator.type.detach = s'.operator.type.detach := by
            have kept := related.table.type_eq related.valid' (related.serves.stored s hs)
              (related.serves'.stored s' hs')
              ((TableCodec.id_of_slot? slot).trans (TableCodec.id_of_slot? slot').symm)
            have own := congrArg OperatorKey.type (here.types s hs)
            have own' := congrArg OperatorKey.type (inside.here.types s' hs')
            exact own.trans (kept.symm.trans own'.symm)
          exact ih s hs (inside.slot hs') (here.configured s hs)
            (inside.here.configured s' hs') type (Operator.akin_of_type type)

end Schema

end RecordFormat
