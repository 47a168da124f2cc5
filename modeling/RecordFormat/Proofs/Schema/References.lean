import Mathlib
import RecordFormat.Proofs.Schema.Declared
import RecordFormat.Proofs.Schema.Modes

/-!
# References between tables

A table refers to another one when the type text of one of its fields is read as that table's group
or as a list of it. A build goes along these references, depth first. What is neither finished nor
idle is being built, and from there references lead to the table that is asked for
(`Workshop.Underway`); so a build complains about cycles and missing tables only where there are
some, and succeeds only where there are none (`Definition.build_respects_references`).
-/

namespace RecordFormat

open Outcome
open Relation (TransGen ReflTransGen)
open Steps (Ends FailsOnly)

/-! ## The graph of references -/

namespace FieldDefinition

/-- The text of the field's type is read as the type. -/
def Denotes (f : FieldDefinition) (type : FieldType) : Prop :=
  ((FieldType.ofText f.type).run {}).1.map Interned.type = .ok type

theorem denotes_iff {f : FieldDefinition} {type : FieldType} :
    f.Denotes type ↔ FieldType.parse f.type.toList = .ok type := by
  have empty : Interner.Plain {} := Interner.plain_afterAll []
  rw [Denotes, (FieldType.ofText_alike f.type empty).map_eq_right]

/-- The field refers to the group, itself or by its elements. -/
def RefersTo (f : FieldDefinition) (group : String) : Prop :=
  f.Denotes (.unbound group) ∨ f.Denotes (.list (.unbound group))

end FieldDefinition

/-- One table of the definition refers to another one. -/
structure Definition.Refers (d : Definition) (t u : TableDefinition) : Prop where
  left : t ∈ d.tables
  right : u ∈ d.tables
  field : ∃ f ∈ t.fields, f.RefersTo u.name

/-- References lead from the table back to itself. -/
def Definition.OnCycle (d : Definition) (t : TableDefinition) : Prop := TransGen d.Refers t t

namespace FieldType

/-- The type occurs in another one: as all of it, in the elements of a list, or in a field of the
table that a group is bound to. -/
inductive Inside (part : FieldType) : FieldType → Prop
  | whole : Inside part part
  | element {type : FieldType} : Inside part type → Inside part (.list type)
  | field {table : Table} {f : Field} : f ∈ table.fields → Inside part f.type →
      Inside part (.bound table)

/-- Lists are one level deep, so a group is the type or its element. -/
theorem eq_of_group? {type : FieldType} {group : String} (plain : type.detach = type)
    (formed : type.Formed) (refers : type.group?.map Prod.fst = some group) :
    type = .unbound group ∨ type = .list (.unbound group) := by
  match type, plain, formed, refers with
  | .unbound _, _, _, rfl => exact .inl rfl
  | .list (.unbound _), _, _, rfl => exact .inr rfl
  | .list (.list _), _, formed, _ => exact nomatch formed.1

theorem group?_detach : ∀ type : FieldType,
    type.detach.group?.map Prod.fst = type.group?.map Prod.fst
  | .primitive _ | .unbound _ | .bound _ => rfl
  | .list element => group?_detach element

theorem sizeOf_lt_of_group? {group : String} {table : Table} : ∀ {type : FieldType},
    type.group? = some (group, some table) → sizeOf table < sizeOf type
  | .bound _, h => by
      cases h
      simp
  | .list element, h => by
      have smaller : sizeOf table < sizeOf element := sizeOf_lt_of_group? h
      simp
      omega

end FieldType

theorem FieldDefinition.refersTo_of_parse {f : FieldDefinition} {type : FieldType} {group : String}
    (denotes : FieldType.parse f.type.toList = .ok type)
    (refers : type.group?.map Prod.fst = some group) : f.RefersTo group := by
  have plain := FieldType.detach_of_parse _ denotes
  rcases FieldType.eq_of_group? plain (FieldType.formed_of_parse _ denotes) refers with rfl | rfl
  · exact .inl (denotes_iff.mpr denotes)
  · exact .inr (denotes_iff.mpr denotes)

/-! ## Schemas that are built -/

namespace Definition

variable {mode : BuildMode} {d : Definition} {s : Schema} {t u : TableDefinition} {table : Table}

/-- A reference is built as a smaller table. -/
theorem Declares.exists_smaller (h : d.Declares mode s) (refers : d.Refers t u)
    (mem : table ∈ s.tables) (name : table.name = t.name) :
    ∃ target ∈ s.tables, target.name = u.name ∧ sizeOf target < sizeOf table := by
  obtain ⟨f, hf, refersTo⟩ := refers.field
  obtain ⟨g, hg, field⟩ := exists_right_of_mem (h.declaresTable refers.left mem name).fields hf
  have named : g.type.group?.map Prod.fst = some u.name := by
    rw [← FieldType.group?_detach]
    rcases refersTo with denotes | denotes
    · rw [← Except.ok.inj ((FieldDefinition.denotes_iff.mp denotes).symm.trans field.denotes)]
      rfl
    · rw [← Except.ok.inj ((FieldDefinition.denotes_iff.mp denotes).symm.trans field.denotes)]
      rfl
  obtain ⟨⟨_, bound⟩, group, rfl⟩ := Option.map_eq_some_iff.mp named
  cases bound with
  | none =>
      have absent := (FieldType.eq_none_iff_of_resolved g.type field.resolved group).mp rfl
      exact absurd rfl (List.find?_eq_none.mp absent u refers.right ∘ decide_eq_true)
  | some target =>
      obtain ⟨here, name'⟩ := FieldType.within_group? g.type (h.nested table mem g hg) group
      have inner := FieldType.sizeOf_lt_of_group? group
      exact ⟨target, here, name', Nat.lt_trans inner (Table.sizeOf_fieldType_lt hg)⟩

/-- Along references tables become smaller. -/
theorem Declares.exists_smaller_of_transGen (h : d.Declares mode s)
    (path : TransGen d.Refers t u) (mem : table ∈ s.tables) (name : table.name = t.name) :
    ∃ target ∈ s.tables, target.name = u.name ∧ sizeOf target < sizeOf table := by
  induction path with
  | single refers => exact h.exists_smaller refers mem name
  | tail _ refers ih =>
      obtain ⟨between, here, name', smaller⟩ := ih
      obtain ⟨target, there, name'', smaller'⟩ := h.exists_smaller refers here name'
      exact ⟨target, there, name'', Nat.lt_trans smaller' smaller⟩

/-- **What is declared has no cycles.** -/
theorem Declares.acyclic (h : d.Declares mode s) (mem : t ∈ d.tables) :
    ¬ d.OnCycle t := by
  intro cycle
  obtain ⟨table, here, declares⟩ := exists_right_of_mem h.tables mem
  obtain ⟨again, here', name, smaller⟩ :=
    h.exists_smaller_of_transGen cycle here declares.name
  obtain rfl := h.sound.eq_of_name here here' (declares.name.trans name.symm)
  exact Nat.lt_irrefl _ smaller

/-- **What is declared strictly is bound through and through**: at any depth a group is bound to the
table of its name. -/
theorem Declares.bound_of_inside (h : d.Declares .strict s) {part type : FieldType}
    (inside : part.Inside type) : type.Resolved .strict d → type.Within (· ∈ s.tables) →
      part.Resolved .strict d ∧ part.Within (· ∈ s.tables) := by
  induction inside with
  | whole => exact fun resolved within => ⟨resolved, within⟩
  | element _ ih => exact fun resolved within => ih resolved within
  | field hf _ ih =>
      intro _ within
      obtain ⟨_, declared⟩ := h.exists_field within hf
      exact ih declared.resolved (h.nested _ within _ hf)

end Definition

/-! ## Failures that have nothing to do with references -/

/-- The failure is not about groups. -/
def ModelError.Local : ModelError → Prop
  | .unresolvedGroup .. | .cyclicGroup .. => False
  | _ => True

theorem FieldType.faults_listOf (element : FieldType) : Faults ModelError.Local element.listOf := by
  unfold listOf
  split
  · exact .error trivial
  · exact .ok _

theorem FieldType.faults_parse (cs : List Char) : Faults ModelError.Local (parse cs) := by
  cases found : listElement? (Text.trimBlanks cs) with
  | some inner =>
      have shorter := length_of_inner found
      rw [parse_of_some found]
      exact (faults_parse inner).bind faults_listOf
  | none =>
      rw [parse_of_none found]
      split
      · exact .ok _
      · split
        · exact .ok _
        · exact .error trivial
termination_by cs.length

theorem Constraints.faults_ofNames (names : List String) :
    Faults ModelError.Local (ofNames names) := by
  refine (Faults.foldlM ?_ _ _).bind ?_
  · intro r name
    unfold Reading.read Reading.setPresence Reading.setSort
    dsimp only
    repeat' split
    all_goals first
      | exact .ok _
      | exact .error trivial
  · rintro ⟨presence, _, _, derived, _⟩
    cases presence <;> cases derived
    · exact .error trivial
    all_goals exact .ok _

theorem Field.faults_create (id : Int16) (name : String) (type : FieldType)
    (constraints : Constraints) (default : Option Scalar) :
    Faults ModelError.Local (create id name type constraints default) := by
  unfold create
  repeat' split
  · exact .error trivial
  · exact .error trivial
  · exact .error trivial
  · exact .ok _

theorem FieldDefinition.faults_complete (f : FieldDefinition) (type : FieldType) :
    Faults ModelError.Local (f.complete type) := by
  refine (Constraints.faults_ofNames _).bind fun constraints => Faults.bind ?_ fun default =>
    Field.faults_create _ _ _ _ _
  unfold defaultFor
  split
  · exact .ok _
  · split
    · exact .ok _
    · exact .error trivial
  · exact .error trivial

theorem Table.faults_checkFields (table : String) : ∀ fields earlier : List Field,
    Faults ModelError.Local (checkFields table earlier fields)
  | [], _ => .ok _
  | f :: rest, earlier => by
      unfold checkFields
      split
      · exact .error trivial
      · split
        · exact .error trivial
        · exact faults_checkFields table rest _

theorem Table.faults_create (name : String) (version : Int16) (fields : List Field) :
    Faults ModelError.Local (create name version fields) := by
  unfold create
  by_cases unnamed : name.isEmpty = true
  · rw [if_pos unnamed]
    exact .error trivial
  · rw [if_neg unnamed]
    exact (faults_checkFields name fields []).bind fun _ => .ok _

theorem Schema.faults_checkTables (schema : String) : ∀ names earlier : List String,
    Faults ModelError.Local (checkTables schema earlier names)
  | [], _ => .ok _
  | name :: rest, earlier => by
      unfold checkTables
      split
      · exact .error trivial
      · exact faults_checkTables schema rest _

theorem Schema.faults_create (name : String) (tables : List Table) :
    Faults ModelError.Local (create name tables) :=
  (faults_checkTables name _ []).bind fun _ => .ok _

/-! ## What a build complains about -/

namespace Definition

variable {mode : BuildMode} {d : Definition} {idle : List TableDefinition} {w w' : Workshop}

/-- What a failure says about groups is true of the definition. -/
def Explains (mode : BuildMode) (d : Definition) : ModelError → Prop
  | .cyclicGroup name => ∃ t ∈ d.tables, t.name = name ∧ d.OnCycle t
  | .unresolvedGroup table field group => mode = .strict ∧ ∃ t ∈ d.tables, t.name = table ∧
      ∃ f ∈ t.fields, f.name = field ∧ f.RefersTo group ∧ d.table? group = none
  | _ => True

theorem explains_of_local {α : Type} {x : Except ModelError α} (h : Faults ModelError.Local x) :
    Faults (d.Explains mode) x := by
  intro e failed
  have other := h e failed
  cases e with
  | unresolvedGroup table field group => exact absurd other id
  | cyclicGroup table => exact absurd other id
  | _ => trivial

/-- A table that is neither idle nor finished is being built, and is linked to `t`. -/
def Underway (link : TableDefinition → TableDefinition → Prop) (d : Definition)
    (idle : List TableDefinition) (t : TableDefinition) (w : Workshop) : Prop :=
  ∀ u ∈ d.tables, ¬ Idle idle u.name → (∃ v ∈ w.finished, v.name = u.name) ∨ link u t

namespace Underway

variable {link : TableDefinition → TableDefinition → Prop} {t u : TableDefinition}

theorem grown {names : String → Prop} (h : Underway link d idle t w)
    (grown : Workshop.Grows names w w') : Underway link d idle t w' := by
  intro u mem busy
  rcases h u mem busy with ⟨v, hv, name⟩ | linked
  · exact .inl ⟨v, grown.mem hv, name⟩
  · exact .inr linked

/-- While its fields are made, a table is being built itself. -/
theorem enter (distinct : (d.tables.map TableDefinition.name).Nodup) (mem : t ∈ d.tables)
    (h : Underway (TransGen d.Refers) d idle t w) :
    Underway (ReflTransGen d.Refers) d (idle.filter fun u => u.name ≠ t.name) t w := by
  intro u hu busy
  by_cases own : u.name = t.name
  · obtain rfl := List.inj_on_of_nodup_map distinct hu mem own
    exact .inr .refl
  · have busy' : ¬ Idle idle u.name := by
      rintro ⟨v, hv, name⟩
      exact busy ⟨v, List.mem_filter.mpr ⟨hv, decide_eq_true (name.symm ▸ own)⟩, name⟩
    exact (h u hu busy').imp_right TransGen.to_reflTransGen

/-- What is being built leads on to where the table refers. -/
theorem follow (h : Underway (ReflTransGen d.Refers) d idle t w) (refers : d.Refers t u) :
    Underway (TransGen d.Refers) d idle u w := by
  intro v hv busy
  exact (h v hv busy).imp_right fun path => .tail' path refers

end Underway

/-- A field is made unless its type cannot be bound, or for a reason of its own. -/
theorem field_failsOnly {t : TableDefinition} {f : FieldDefinition} (sound : w.Sound mode d)
    (bind : ∀ type, FieldType.parse f.type.toList = .ok type → ∀ w', w'.Sound mode d →
      Workshop.Grows (Idle idle) w w' →
        FailsOnly (d.Explains mode) (bindGroups mode d idle t f type) w') :
    FailsOnly (d.Explains mode)
      (do
        let parsed ← BuildM.interning (FieldType.ofText f.type)
        let type ← bindGroups mode d idle t f parsed.type
        liftExcept (f.complete type)) w := by
  have read : FailsOnly (d.Explains mode) (BuildM.interning (FieldType.ofText f.type)) w := by
    show Faults _ ((FieldType.ofText f.type).run w.interner).1
    exact .of_alike (FieldType.ofText_alike f.type sound.plain)
      (explains_of_local (FieldType.faults_parse _))
  have reads : Ends (Workshop.Grows (Idle idle)) _ _ _ w := Workshop.interning_ends f.type sound
  refine read.bind reads ?_
  intro parsed w' sound grown denotes
  have plain := FieldType.detach_of_parse _ denotes
  refine (bind parsed.type denotes w' sound grown).bind
    (bindGroups_ends mode d idle t f parsed.type plain sound) ?_
  intro type w' _ _ _
  exact .liftExcept (explains_of_local (f.faults_complete type))

/-- The fields of a table are made unless one of them is not. -/
theorem fields_failsOnly {t : TableDefinition} (sound : w.Sound mode d)
    (bind : ∀ f ∈ t.fields, ∀ type, FieldType.parse f.type.toList = .ok type → ∀ w',
      w'.Sound mode d → Workshop.Grows (Idle idle) w w' →
        FailsOnly (d.Explains mode) (bindGroups mode d idle t f type) w') :
    FailsOnly (d.Explains mode)
      (t.fields.mapM fun f => do
        let parsed ← BuildM.interning (FieldType.ofText f.type)
        let type ← bindGroups mode d idle t f parsed.type
        liftExcept (f.complete type)) w := by
  refine FailsOnly.mapM sound fun f hf w' sound (grown : Workshop.Grows (Idle idle) w w') => ?_
  have ends := fun type plain {w : Workshop} (sound : w.Sound mode d) =>
    bindGroups_ends mode d idle t f type plain sound
  refine ⟨field_failsOnly sound ?_, (field_ends sound ends).imp fun _ _ _ _ _ => trivial⟩
  intro type denotes w' sound grown'
  exact bind f hf type denotes w' sound (IsTrans.trans _ _ _ grown grown')

mutual

/-- **Building a table fails only where references do.** -/
theorem buildTable_failsOnly (mode : BuildMode) (d : Definition)
    (distinct : (d.tables.map TableDefinition.name).Nodup) (idle : List TableDefinition)
    (t : TableDefinition) (mem : t ∈ d.tables) {w : Workshop} (sound : w.Sound mode d)
    (underway : Underway (TransGen d.Refers) d idle t w) :
    FailsOnly (d.Explains mode) (buildTable mode d idle t) w := by
  rw [buildTable]
  have looks : Ends (Workshop.Grows (Idle idle)) _ _ _ w := Workshop.finished?_ends t.name sound
  refine FailsOnly.bind (Faults.ok _) looks ?_
  rintro o w' sound _ ⟨rfl, found⟩
  cases o with
  | some table => exact FailsOnly.pure table
  | none =>
      dsimp only
      split
      · next waiting =>
        have shorter := length_filter_name_lt waiting
        let idle' := idle.filter fun u => u.name ≠ t.name
        have inner := underway.enter distinct mem
        have fields := fields_ends (t := t) sound fun f type plain {_} sound =>
          bindGroups_ends mode d idle' t f type plain sound
        refine FailsOnly.bind (fields_failsOnly sound ?_) fields ?_
        · intro f hf type denotes w' sound grown
          exact bindGroups_failsOnly mode d distinct idle' t mem f hf type
            (FieldType.detach_of_parse _ denotes) (fun _ => f.refersTo_of_parse denotes) sound
            (inner.grown grown)
        · intro fields w sound _ _
          have creates : Ends (Workshop.Grows (Idle idle)) (Workshop.Sound mode d) (fun _ _ => True)
              (liftExcept (Table.create t.name t.version fields)) w :=
            Ends.liftExcept sound fun _ _ => trivial
          refine FailsOnly.bind (.liftExcept (explains_of_local ?_)) creates ?_
          · exact Table.faults_create t.name t.version fields
          · exact fun table _ _ _ _ => Faults.ok table
      · next busy =>
        apply FailsOnly.throw
        have taken : ¬ Idle idle t.name := by
          rintro ⟨u, hu, name⟩
          exact busy (List.any_eq_true.mpr ⟨u, hu, decide_eq_true name⟩)
        rcases underway t mem taken with ⟨v, hv, name⟩ | cycle
        · exact absurd name (found v hv)
        · exact ⟨t, mem, rfl, cycle⟩
termination_by (idle.length, 0)
decreasing_by
  all_goals exact Prod.Lex.left _ _ shorter

/-- **Binding a type fails only where references do.** -/
theorem bindGroups_failsOnly (mode : BuildMode) (d : Definition)
    (distinct : (d.tables.map TableDefinition.name).Nodup) (idle : List TableDefinition)
    (t : TableDefinition) (mem : t ∈ d.tables) (f : FieldDefinition) (hf : f ∈ t.fields)
    (type : FieldType) (plain : type.detach = type)
    (refers : ∀ group, type.group?.map Prod.fst = some group → f.RefersTo group) {w : Workshop}
    (sound : w.Sound mode d) (underway : Underway (ReflTransGen d.Refers) d idle t w) :
    FailsOnly (d.Explains mode) (bindGroups mode d idle t f type) w := by
  match type, plain, refers with
  | .primitive p, _, _ =>
      unfold bindGroups
      exact FailsOnly.pure _
  | .unbound group, _, refers =>
      unfold bindGroups
      have here : f.RefersTo group := refers group rfl
      cases target : d.table? group with
      | some u =>
          have there : u ∈ d.tables := List.mem_of_find?_eq_some target
          have name : u.name = group := by simpa using List.find?_some target
          have reference : d.Refers t u := ⟨mem, there, f, hf, name.symm ▸ here⟩
          refine FailsOnly.bind (buildTable_failsOnly mode d distinct idle u there sound
            (underway.follow reference)) (buildTable_ends mode d idle u there sound) ?_
          intro table _ _ _ _
          exact FailsOnly.pure _
      | none =>
          cases mode with
          | strict => exact FailsOnly.throw ⟨rfl, t, mem, rfl, f, hf, rfl, here, target⟩
          | lenient => exact FailsOnly.pure _
  | .list element, plain, refers =>
      rw [FieldType.detach, FieldType.list.injEq] at plain
      unfold bindGroups
      refine FailsOnly.bind (bindGroups_failsOnly mode d distinct idle t mem f hf element plain
        refers sound underway) (bindGroups_ends mode d idle t f element plain sound) ?_
      intro bound _ _ _ _
      exact .liftExcept (explains_of_local (FieldType.faults_listOf bound))
termination_by (idle.length, sizeOf type)

end

/-- **A build fails only where references do.** -/
theorem work_failsOnly {i : Interner} (plain : i.Plain) :
    FailsOnly (d.Explains mode) (d.work mode) ⟨i, []⟩ := by
  have names := Schema.faults_checkTables d.name (d.tables.map TableDefinition.name) []
  have checked : Ends (Workshop.Grows (Idle d.tables)) (Workshop.Sound mode d)
      (fun _ _ => (d.tables.map TableDefinition.name).Nodup)
      (liftExcept (Schema.checkTables d.name [] (d.tables.map TableDefinition.name))) ⟨i, []⟩ :=
    Ends.liftExcept (Workshop.sound_begin plain) fun _ checked =>
      (Schema.nodup_of_checkTables checked).1
  refine FailsOnly.bind (.liftExcept (explains_of_local names)) checked ?_
  intro _ w sound _ distinct
  have ends : ∀ t ∈ d.tables, ∀ w', w'.Sound mode d → Workshop.Grows (Idle d.tables) w w' →
      Ends (Workshop.Grows (Idle d.tables)) (Workshop.Sound mode d) (fun _ _ => True)
        (buildTable mode d d.tables t) w' := by
    intro t mem w sound _
    exact (buildTable_ends mode d d.tables t mem sound).imp fun _ _ _ _ _ => trivial
  refine FailsOnly.bind (FailsOnly.mapM sound fun t mem w' sound' grown =>
    ⟨?_, ends t mem w' sound' grown⟩) (Ends.mapM (G := fun _ _ _ => True) ?_ sound ends) ?_
  · refine buildTable_failsOnly mode d distinct d.tables t mem sound' ?_
    intro u hu busy
    exact absurd ⟨u, hu, rfl⟩ busy
  · exact fun _ _ _ _ _ same => same
  · intro tables _ _ _ _
    exact .liftExcept (explains_of_local (Schema.faults_create d.name tables))

/-- **A build goes along every graph of references.** It ends with a schema, and then no table lies
on a cycle, or with an error, and where that names a cycle, there is one. In a schema that is built
strictly, the tables are the declared ones, and every group in a type, at any depth, is bound to the
table of its name; otherwise, a group that is called unresolved is referred to and names no table. -/
theorem build_respects_references (d : Definition) (before : List Interner.Request) :
    (∀ mode,
      (∃ s, ((d.build mode).run (Interner.afterAll before)).1 = .ok s ∧
        ∀ t ∈ d.tables, ¬ d.OnCycle t) ∨
      ∃ e, ((d.build mode).run (Interner.afterAll before)).1 = .error e ∧
        ∀ name, e = .cyclicGroup name → ∃ t ∈ d.tables, t.name = name ∧ d.OnCycle t) ∧
    (∀ s, ((d.build .strict).run (Interner.afterAll before)).1 = .ok s →
      List.Forall₂ (TableDefinition.Declares .strict d) d.tables s.tables ∧
      ∀ t ∈ s.tables, ∀ f ∈ t.fields, ∀ part : FieldType, part.Inside f.type →
        (∀ group, part ≠ .unbound group) ∧
        ∀ table, part = .bound table → s.table? table.name = some table) ∧
    ∀ table field group,
      ((d.build .strict).run (Interner.afterAll before)).1 =
        .error (.unresolvedGroup table field group) →
      (∃ t ∈ d.tables, t.name = table ∧ ∃ f ∈ t.fields, f.name = field ∧ f.RefersTo group) ∧
        ∀ u ∈ d.tables, u.name ≠ group := by
  have plain := Interner.plain_afterAll before
  have explains : ∀ mode, Faults (d.Explains mode)
      ((d.build mode).run (Interner.afterAll before)).1 := by
    intro mode
    rw [build_eq_work]
    exact work_failsOnly plain
  refine ⟨?_, ?_, ?_⟩
  · intro mode
    cases built : ((d.build mode).run (Interner.afterAll before)).1 with
    | ok s =>
        have declares := declares_of_build plain built
        exact .inl ⟨s, rfl, fun t mem => declares.acyclic mem⟩
    | error e =>
        refine .inr ⟨e, rfl, ?_⟩
        rintro name rfl
        exact explains mode _ built
  · intro s built
    have declares := declares_of_build plain built
    refine ⟨declares.tables, ?_⟩
    intro t ht f hf part inside
    obtain ⟨_, declared⟩ := declares.exists_field ht hf
    obtain ⟨resolved, within⟩ :=
      declares.bound_of_inside inside declared.resolved (declares.nested t ht f hf)
    constructor
    · rintro group rfl
      cases resolved.1
    · rintro table rfl
      exact declares.sound.table?_eq_some_iff.mpr ⟨within, rfl⟩
  · intro table field group failed
    obtain ⟨-, t, mem, name, f, hf, name', refers, absent⟩ := explains .strict _ failed
    refine ⟨⟨t, mem, name, f, hf, name', refers⟩, ?_⟩
    intro u hu same
    exact List.find?_eq_none.mp absent u hu (decide_eq_true same)

end Definition

namespace Household

/-- The household is built without cycles. Two tables that need each other are on one, and a home
without addresses is missing its table. -/
theorem build_respects_household_references :
    (∀ t ∈ definition.tables, ¬ definition.OnCycle t) ∧
      (∀ t ∈ schema.tables, ∀ f ∈ t.fields, ∀ table,
        (FieldType.bound table).Inside f.type → schema.table? table.name = some table) ∧
      (∃ t ∈ tangled.tables, t.name = "Address" ∧ tangled.OnCycle t) ∧
      ∃ t ∈ homeless.tables, t.name = "Person" ∧
        ∃ f ∈ t.fields, f.name = "home" ∧ f.RefersTo "Address" := by
  refine ⟨?_, ?_, ?_, ?_⟩
  · rcases (definition.build_respects_references []).1 .strict with ⟨_, -, acyclic⟩ | ⟨e, failed, -⟩
    · exact acyclic
    · cases built_schema.symm.trans failed
  · intro t ht f hf table inside
    have bound := ((definition.build_respects_references []).2.1 schema built_schema).2 t ht f hf
    exact (bound (.bound table) inside).2 table rfl
  · have failed : ((tangled.build .lenient).run {}).1 = .error (.cyclicGroup "Address") := by cbv
    rcases (tangled.build_respects_references []).1 .lenient with ⟨_, built, -⟩ | ⟨e, failed', cyclic⟩
    · cases failed.symm.trans built
    · exact cyclic "Address" (Except.error.inj (failed'.symm.trans failed))
  · exact ((homeless.build_respects_references []).2.2 "Person" "home" "Address" (by cbv)).1

end Household

end RecordFormat
