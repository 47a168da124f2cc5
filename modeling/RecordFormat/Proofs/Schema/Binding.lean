import RecordFormat.Proofs.Schema.TypeText
import RecordFormat.Schema.Build

/-!
# What a build binds

A build finishes tables one after the other, each after the tables that its groups name, and
keeps every finished table. So each table of a schema that is built is the one that its definition
declares, and a group is never bound to anything but a table of the schema, by name to exactly one
of them (`Definition.declares_of_build`).
-/

namespace RecordFormat

open Outcome
open Steps (Ends)

/-! ## What a definition declares -/

/-- Every group is bound to the table that it names in the definition. A group that names none is
left as it is, in lenient mode only. -/
def FieldType.Resolved (mode : BuildMode) (d : Definition) : FieldType → Prop
  | .primitive _ => True
  | .unbound group => mode = .lenient ∧ d.table? group = none
  | .bound table => (d.table? table.name).isSome = true
  | .list element => element.Resolved mode d

/-- The field is the one that is defined. -/
structure FieldDefinition.Declares (mode : BuildMode) (d : Definition) (f : FieldDefinition)
    (g : Field) : Prop where
  denotes : FieldType.parse f.type.toList = .ok g.type.detach
  resolved : g.type.Resolved mode d
  complete : f.complete g.type = .ok g

/-- The table is the one that is defined. -/
structure TableDefinition.Declares (mode : BuildMode) (d : Definition) (u : TableDefinition)
    (t : Table) : Prop where
  fields : List.Forall₂ (FieldDefinition.Declares mode d) u.fields t.fields
  created : Table.create u.name u.version t.fields = .ok t

/-- The schema is the one that is defined, and its groups are bound to its own tables. -/
structure Definition.Declares (mode : BuildMode) (d : Definition) (s : Schema) : Prop where
  tables : List.Forall₂ (TableDefinition.Declares mode d) d.tables s.tables
  created : Schema.create d.name s.tables = .ok s
  nested : NestedIn (· ∈ s.tables)

/-- A field that is completed has the given type and could have been made. -/
theorem FieldDefinition.made_of_complete {f : FieldDefinition} {type : FieldType} {g : Field}
    (h : f.complete type = .ok g) : g.Made ∧ g.type = type := by
  rcases bind_eq_ok_iff.mp h with ⟨constraints, -, h⟩
  obtain ⟨default, -, h⟩ := bind_eq_ok_iff.mp h
  have created := h
  unfold Field.create at h
  split at h
  · cases h
  · split at h
    · cases h
    · split at h
      · cases h
      · cases h
        exact ⟨created, rfl⟩

namespace TableDefinition.Declares

variable {mode : BuildMode} {d : Definition} {u : TableDefinition} {t : Table}

theorem name (h : u.Declares mode d t) : t.name = u.name := by
  rw [(Table.create_eq_ok_iff.mp h.created).2.2]

theorem made (h : u.Declares mode d t) : t.Made where
  fields g hg := by
    obtain ⟨f, -, declares⟩ := exists_left_of_mem h.fields hg
    exact (FieldDefinition.made_of_complete declares.complete).1
  table := by
    have version : t.version = u.version := by rw [(Table.create_eq_ok_iff.mp h.created).2.2]
    rw [h.name, version]
    exact h.created

end TableDefinition.Declares

/-! ## Workshops -/

namespace Workshop

/-- Interned types and finished tables are kept, and new tables have the given names. -/
def Grows (names : String → Prop) (w w' : Workshop) : Prop :=
  w.interner.Extends w'.interner ∧
    ∃ fresh, w'.finished = fresh ++ w.finished ∧ ∀ t ∈ fresh, names t.name

instance {names : String → Prop} : Std.Refl (Grows names) :=
  ⟨fun _ => ⟨List.prefix_rfl, [], rfl, nofun⟩⟩

instance {names : String → Prop} : IsTrans Workshop (Grows names) where
  trans := by
    rintro _ _ _ ⟨types, early, eq, named⟩ ⟨types', late, eq', named'⟩
    refine ⟨types.trans types', late ++ early, by rw [eq', eq, List.append_assoc], ?_⟩
    intro t ht
    rcases List.mem_append.mp ht with ht | ht
    · exact named' t ht
    · exact named t ht

variable {names : String → Prop} {w w' : Workshop}

theorem Grows.weaken {names' : String → Prop} (h : Grows names w w')
    (less : ∀ name, names name → names' name) : Grows names' w w' := by
  obtain ⟨types, fresh, eq, named⟩ := h
  exact ⟨types, fresh, eq, fun t ht => less _ (named t ht)⟩

theorem Grows.mem (h : Grows names w w') {t : Table} (ht : t ∈ w.finished) : t ∈ w'.finished := by
  obtain ⟨-, fresh, eq, -⟩ := h
  rw [eq]
  exact List.mem_append_right _ ht

/-- Finished tables are declared by the definition, have names of their own, and have their groups
bound to finished tables. -/
structure Sound (mode : BuildMode) (d : Definition) (w : Workshop) : Prop where
  plain : w.interner.Plain
  names : (w.finished.map Table.name).Nodup
  declared : ∀ t ∈ w.finished, ∃ u ∈ d.tables, u.Declares mode d t
  nested : NestedIn (· ∈ w.finished)

variable {mode : BuildMode} {d : Definition}

theorem sound_begin {i : Interner} (plain : i.Plain) : Sound mode d ⟨i, []⟩ :=
  ⟨plain, .nil, nofun, nofun⟩

/-- A declared table may be finished when its name is new and its groups are bound to finished
tables. -/
theorem Sound.finish (h : w.Sound mode d) {t : Table} (fresh : ∀ u ∈ w.finished, u.name ≠ t.name)
    (declared : ∃ u ∈ d.tables, u.Declares mode d t)
    (nested : ∀ f ∈ t.fields, f.type.Within (· ∈ w.finished)) :
    Sound mode d { w with finished := t :: w.finished } where
  plain := h.plain
  names := by
    refine List.nodup_cons.mpr ⟨?_, h.names⟩
    intro taken
    obtain ⟨u, hu, same⟩ := List.mem_map.mp taken
    exact fresh u hu same
  declared := List.forall_mem_cons.mpr ⟨declared, h.declared⟩
  nested := by
    intro u hu f hf
    apply FieldType.Within.imp fun v hv => List.mem_cons_of_mem t hv
    rcases List.mem_cons.mp hu with rfl | hu
    · exact nested f hf
    · exact h.nested u hu f hf

theorem interning_ends (text : String) (sound : w.Sound mode d) :
    Ends (Grows names) (Sound mode d) (fun a _ => FieldType.parse text.toList = .ok a.type)
      (BuildM.interning (FieldType.ofText text)) w where
  keeps := ⟨(FieldType.ofText_ends text sound.plain).keeps, sound.names, sound.declared, sound.nested⟩
  after := ⟨(FieldType.ofText_ends text sound.plain).after, [], rfl, nofun⟩
  returns := (FieldType.ofText_ends text sound.plain).returns

theorem finished?_ends (name : String) (sound : w.Sound mode d) :
    Ends (Grows names) (Sound mode d) (fun o w' => w' = w ∧ match o with
      | some t => t ∈ w.finished ∧ t.name = name
      | none => ∀ t ∈ w.finished, t.name ≠ name) (BuildM.finished? name) w := by
  apply (Ends.get sound).bind
  rintro s s' sound' _ ⟨rfl, rfl⟩
  refine Ends.pure sound' ⟨rfl, ?_⟩
  cases found : s.finished.find? fun t => t.name = name with
  | some t => exact ⟨List.mem_of_find?_eq_some found, by simpa using List.find?_some found⟩
  | none =>
      intro t ht
      simpa using List.find?_eq_none.mp found t ht

end Workshop

/-! ## Building -/

namespace Definition

open Workshop

/-- The names of tables that are not being built. -/
def Idle (idle : List TableDefinition) (name : String) : Prop := ∃ u ∈ idle, u.name = name

theorem idle_of_filter {idle : List TableDefinition} {other name : String}
    (h : Idle (idle.filter fun u => u.name ≠ other) name) : Idle idle name ∧ name ≠ other := by
  rcases h with ⟨u, hu, rfl⟩
  rcases List.mem_filter.mp hu with ⟨mem, different⟩
  exact ⟨⟨u, mem, rfl⟩, of_decide_eq_true different⟩

/-- A field is made once its type is bound. -/
theorem field_ends {mode : BuildMode} {d : Definition} {idle : List TableDefinition}
    {t : TableDefinition} {f : FieldDefinition} {w : Workshop} (sound : w.Sound mode d)
    (bind : ∀ type, type.detach = type → ∀ {w : Workshop}, w.Sound mode d →
      Ends (Grows (Idle idle)) (Sound mode d) (fun bound w' => bound.detach = type ∧
        bound.Resolved mode d ∧ bound.Within (· ∈ w'.finished))
        (bindGroups mode d idle t f type) w) :
    Ends (Grows (Idle idle)) (Sound mode d)
      (fun g s => f.Declares mode d g ∧ g.type.Within (· ∈ s.finished))
      (do
        let parsed ← BuildM.interning (FieldType.ofText f.type)
        let type ← bindGroups mode d idle t f parsed.type
        liftExcept (f.complete type)) w := by
  apply (interning_ends f.type sound).bind
  intro parsed s sound _ denotes
  apply (bind parsed.type (FieldType.detach_of_parse _ denotes) sound).bind
  rintro type s sound _ ⟨named, resolved, within⟩
  apply Ends.liftExcept sound
  intro g completed
  obtain ⟨-, rfl⟩ := FieldDefinition.made_of_complete completed
  exact ⟨⟨named ▸ denotes, resolved, completed⟩, within⟩

/-- The fields of a table are made one after the other. -/
theorem fields_ends {mode : BuildMode} {d : Definition} {idle : List TableDefinition}
    {t : TableDefinition} {w : Workshop} (sound : w.Sound mode d)
    (bind : ∀ f type, type.detach = type → ∀ {w : Workshop}, w.Sound mode d →
      Ends (Grows (Idle idle)) (Sound mode d) (fun bound w' => bound.detach = type ∧
        bound.Resolved mode d ∧ bound.Within (· ∈ w'.finished))
        (bindGroups mode d idle t f type) w) :
    Ends (Grows (Idle idle)) (Sound mode d)
      (fun fields s => List.Forall₂ (fun f g => f.Declares mode d g ∧
        g.type.Within (· ∈ s.finished)) t.fields fields)
      (t.fields.mapM fun f => do
        let parsed ← BuildM.interning (FieldType.ofText f.type)
        let type ← bindGroups mode d idle t f parsed.type
        liftExcept (f.complete type)) w := by
  refine Ends.mapM ?_ sound fun f _ s sound _ => field_ends sound (bind f)
  rintro f g s s' grown ⟨declares, within⟩
  exact ⟨declares, within.imp (fun _ => grown.mem) _⟩

/-- A table of such fields is finished, when nothing of its name is. -/
theorem finish_ends {mode : BuildMode} {d : Definition} {idle : List TableDefinition}
    {t : TableDefinition} {fields : List Field} {w : Workshop} (sound : w.Sound mode d)
    (mem : t ∈ d.tables) (waiting : Idle idle t.name) (fresh : ∀ u ∈ w.finished, u.name ≠ t.name)
    (each : List.Forall₂ (fun f g => f.Declares mode d g ∧ g.type.Within (· ∈ w.finished))
      t.fields fields) :
    Ends (Grows (Idle idle)) (Sound mode d)
      (fun table w' => table ∈ w'.finished ∧ table.name = t.name)
      (do
        let table ← liftExcept (Table.create t.name t.version fields)
        BuildM.finish table
        return table) w := by
  refine Ends.bind (Q := fun table s => s = w ∧ Table.create t.name t.version fields = .ok table)
    (Ends.liftExcept sound fun _ created => ⟨rfl, created⟩) ?_
  rintro table s _ _ ⟨rfl, created⟩
  obtain rfl := (Table.create_eq_ok_iff.mp created).2.2
  have declared : t.Declares mode d ⟨t.name, t.version, fields⟩ :=
    ⟨each.imp fun _ _ h => h.1, created⟩
  have within : ∀ g ∈ fields, g.type.Within (· ∈ s.finished) := by
    intro g hg
    obtain ⟨f, -, -, within⟩ := exists_left_of_mem each hg
    exact within
  have complete := sound.finish fresh ⟨t, mem, declared⟩ within
  have grows : Grows (Idle idle) s
      { s with finished := ⟨t.name, t.version, fields⟩ :: s.finished } := by
    refine ⟨List.prefix_rfl, [_], rfl, ?_⟩
    intro u hu
    rw [List.mem_singleton.mp hu]
    exact waiting
  apply (Ends.modify complete grows).bind
  rintro _ _ sound' _ rfl
  exact Ends.pure sound' ⟨List.mem_cons_self .., rfl⟩

mutual

/-- **A table that is built is finished**, and so is everything that it was built from. -/
theorem buildTable_ends (mode : BuildMode) (d : Definition) (idle : List TableDefinition)
    (t : TableDefinition) (mem : t ∈ d.tables) {w : Workshop} (sound : w.Sound mode d) :
    Ends (Grows (Idle idle)) (Sound mode d)
      (fun table w' => table ∈ w'.finished ∧ table.name = t.name)
      (buildTable mode d idle t) w := by
  rw [buildTable]
  refine (finished?_ends t.name sound).bind ?_
  rintro o w' sound' _ ⟨rfl, found⟩
  cases o with
  | some table => exact Ends.pure sound' found
  | none =>
      dsimp only
      split
      · next waiting =>
        have shorter := length_filter_name_lt waiting
        -- Nothing with the table's own name is finished before the table itself.
        let idle' := idle.filter fun u => u.name ≠ t.name
        have fields := fields_ends (t := t) sound' fun f type plain {_} sound =>
          bindGroups_ends mode d idle' t f type plain sound
        have kept := fields.imp fun fields s _ grown each =>
          (⟨grown, each⟩ : Grows (Idle idle') w' s ∧ _)
        have less : ∀ s, Grows (Idle idle') w' s → Grows (Idle idle) w' s := by
          intro s grown
          exact grown.weaken fun name waits => (idle_of_filter waits).1
        apply (kept.weaken less).bind
        rintro fields s sound _ ⟨grown, each⟩
        refine finish_ends sound mem ?_ ?_ each
        · rcases List.any_eq_true.mp waiting with ⟨u, hu, same⟩
          exact ⟨u, hu, of_decide_eq_true same⟩
        · intro u hu
          rcases grown with ⟨-, late, finished, named⟩
          rw [finished] at hu
          rcases List.mem_append.mp hu with hu | hu
          · exact (idle_of_filter (named u hu)).2
          · exact found u hu
      · exact Ends.throw sound'
termination_by (idle.length, 0)
decreasing_by
  exact Prod.Lex.left _ _ shorter

/-- **A type is bound to finished tables**, of the names that it has. -/
theorem bindGroups_ends (mode : BuildMode) (d : Definition) (idle : List TableDefinition)
    (t : TableDefinition) (f : FieldDefinition) (type : FieldType) (plain : type.detach = type)
    {w : Workshop} (sound : w.Sound mode d) :
    Ends (Grows (Idle idle)) (Sound mode d) (fun bound w' => bound.detach = type ∧
      bound.Resolved mode d ∧ bound.Within (· ∈ w'.finished))
      (bindGroups mode d idle t f type) w := by
  match type, plain with
  | .primitive p, _ =>
      unfold bindGroups
      exact Ends.pure sound ⟨rfl, trivial, trivial⟩
  | .unbound group, _ =>
      unfold bindGroups
      cases target : d.table? group with
      | some u =>
          have mem : u ∈ d.tables := List.mem_of_find?_eq_some target
          have named : u.name = group := by simpa using List.find?_some target
          refine (buildTable_ends mode d idle u mem sound).bind ?_
          rintro table s sound _ ⟨finished, name⟩
          have same : table.name = group := name.trans named
          exact Ends.pure sound ⟨congrArg FieldType.unbound same,
            Option.isSome_iff_exists.mpr ⟨u, same ▸ target⟩, finished⟩
      | none =>
          cases mode with
          | strict => exact Ends.throw sound
          | lenient => exact Ends.pure sound ⟨rfl, ⟨rfl, target⟩, trivial⟩
  | .list element, plain =>
      rw [FieldType.detach, FieldType.list.injEq] at plain
      unfold bindGroups
      apply (bindGroups_ends mode d idle t f element plain sound).bind
      rintro bound s sound _ ⟨named, resolved, within⟩
      apply Ends.liftExcept sound
      intro type made
      obtain ⟨rfl, -⟩ := FieldType.eq_of_listOf made
      exact ⟨congrArg FieldType.list named, resolved, within⟩
termination_by (idle.length, sizeOf type)

end

end Definition

namespace Schema

/-- The tables could have been made and have names of their own, and groups are bound to tables of
the schema only. -/
structure Sound (s : Schema) : Prop where
  names : (s.tables.map Table.name).Nodup
  made : ∀ t ∈ s.tables, t.Made
  nested : NestedIn (· ∈ s.tables)

theorem nodup_of_checkTables {schema : String} : ∀ {names earlier : List String} {u : Unit},
    checkTables schema earlier names = .ok u →
      names.Nodup ∧ ∀ name ∈ names, name ∉ earlier
  | [], earlier, u, _ => ⟨.nil, nofun⟩
  | name :: rest, earlier, u, h => by
      rw [checkTables] at h
      split at h
      · cases h
      · next fresh =>
        rw [List.contains_iff_mem] at fresh
        rcases nodup_of_checkTables h with ⟨nodup, apart⟩
        refine ⟨List.nodup_cons.mpr ⟨?_, nodup⟩, ?_⟩
        · intro again
          exact apart name again (List.mem_cons_self ..)
        · intro other hother
          rcases List.mem_cons.mp hother with rfl | hother
          · exact fresh
          · intro taken
            exact apart other hother (List.mem_cons_of_mem _ taken)

/-- A schema finds its own tables. -/
theorem Sound.table?_eq_some_iff {s : Schema} (sound : s.Sound) {name : String} {t : Table} :
    s.table? name = some t ↔ t ∈ s.tables ∧ t.name = name :=
  find?_key_eq_some_iff sound.names

theorem Sound.eq_of_name {s : Schema} (sound : s.Sound) {t u : Table} (ht : t ∈ s.tables)
    (hu : u ∈ s.tables) (same : t.name = u.name) : t = u :=
  List.inj_on_of_nodup_map sound.names ht hu same

end Schema

namespace Definition

variable {mode : BuildMode} {d : Definition} {i : Interner} {s : Schema}

theorem Declares.name (h : d.Declares mode s) : s.name = d.name := by
  obtain ⟨_, -, made⟩ := bind_eq_ok_iff.mp h.created
  rw [← pure_eq_ok_iff.mp made]

/-- Every field of a declared schema is defined. -/
theorem Declares.exists_field (h : d.Declares mode s) {t : Table} (ht : t ∈ s.tables) {f : Field}
    (hf : f ∈ t.fields) : ∃ u : FieldDefinition, u.Declares mode d f := by
  obtain ⟨_, -, table⟩ := exists_left_of_mem h.tables ht
  obtain ⟨u, -, field⟩ := exists_left_of_mem table.fields hf
  exact ⟨u, field⟩

/-- A declared schema is sound. -/
theorem Declares.sound (h : d.Declares mode s) : s.Sound where
  names := by
    obtain ⟨_, checked, -⟩ := bind_eq_ok_iff.mp h.created
    exact (Schema.nodup_of_checkTables checked).1
  made t ht := by
    obtain ⟨u, -, declares⟩ := exists_left_of_mem h.tables ht
    exact declares.made
  nested := h.nested

/-- The steps of a build, from a workshop without finished tables. -/
def work (mode : BuildMode) (d : Definition) : BuildM Schema := do
  liftExcept (Schema.checkTables d.name [] (d.tables.map TableDefinition.name))
  let tables ← d.tables.mapM (buildTable mode d d.tables)
  liftExcept (Schema.create d.name tables)

theorem build_eq_work (mode : BuildMode) (d : Definition) (i : Interner) :
    ((d.build mode).run i).1 = ((d.work mode).run ⟨i, []⟩).1 := rfl

theorem interner_build (mode : BuildMode) (d : Definition) (i : Interner) :
    ((d.build mode).run i).2 = ((d.work mode).run ⟨i, []⟩).2.interner := rfl

/-- A build leaves a sound workshop, and makes the schema that is declared. -/
theorem work_ends (plain : i.Plain) :
    Ends (Workshop.Grows (Idle d.tables)) (Workshop.Sound mode d) (fun s _ => d.Declares mode s)
      (d.work mode) ⟨i, []⟩ := by
  refine Ends.bind (Q := fun _ _ => (d.tables.map TableDefinition.name).Nodup)
    (Ends.liftExcept (Workshop.sound_begin plain) fun _ checked =>
      (Schema.nodup_of_checkTables checked).1) ?_
  intro _ w sound _ distinct
  refine (Ends.mapM (G := fun u t w => t ∈ w.finished ∧ t.name = u.name) ?_ sound ?_).bind ?_
  · rintro u t w w' grown ⟨finished, name⟩
    exact ⟨grown.mem finished, name⟩
  · intro u hu w sound _
    exact buildTable_ends mode d d.tables u hu sound
  · intro tables w sound _ each
    apply Ends.liftExcept sound
    intro s created
    obtain ⟨_, -, eq⟩ := bind_eq_ok_iff.mp created
    obtain rfl := pure_eq_ok_iff.mp eq
    refine ⟨?_, created, ?_⟩
    · apply forall₂_imp_of_mem each
      rintro u hu t - ⟨finished, name⟩
      obtain ⟨u', hu', declares⟩ := sound.declared t finished
      obtain rfl := List.inj_on_of_nodup_map distinct hu hu' (name.symm.trans declares.name)
      exact declares
    · intro t ht f hf
      obtain ⟨u, -, finished, -⟩ := exists_left_of_mem each ht
      refine (sound.nested t finished f hf).imp ?_ _
      -- A finished table has the name of a definition, hence of a table, and is that table.
      intro v hv
      obtain ⟨u, hu, declares⟩ := sound.declared v hv
      obtain ⟨t', ht', done, name'⟩ := exists_right_of_mem each hu
      have same := List.inj_on_of_nodup_map sound.names done hv (name'.trans declares.name.symm)
      exact same ▸ ht'

/-- **A schema that is built is the one that is declared.** -/
theorem declares_of_build (plain : i.Plain) (built : ((d.build mode).run i).1 = .ok s) :
    d.Declares mode s := by
  rw [build_eq_work] at built
  exact (work_ends plain).returns s built

/-- **A schema that is built is sound.** -/
theorem build_sound (plain : i.Plain) (built : ((d.build mode).run i).1 = .ok s) : s.Sound :=
  (declares_of_build plain built).sound

/-- A build keeps what was interned. -/
theorem extends_build (plain : i.Plain) : i.Extends ((d.build mode).run i).2 := by
  rw [interner_build]
  exact (work_ends plain).after.1

theorem plain_build (plain : i.Plain) : ((d.build mode).run i).2.Plain := by
  rw [interner_build]
  exact (work_ends plain).keeps.plain

end Definition

end RecordFormat
