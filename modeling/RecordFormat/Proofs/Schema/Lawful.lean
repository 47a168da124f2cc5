import RecordFormat.Proofs.Text.Words
import RecordFormat.Proofs.Traversal
import RecordFormat.Record.Encoding
import RecordFormat.Schema.Rules

/-!
# What the structural rules decide

The rules for fields, tables and schemas, said without the checks: `Field.Lawful`, `Table.Lawful`
and `Schema.Lawful`. Beside them `Breaks` says of a violation that it stands: its table and field
are there, are named as it says, and break just that rule. The check accepts exactly the lawful
schemas, and what it complains about is a violation that stands, of the first table and the first
field that are not lawful (`Schema.check_decides`).
-/

namespace RecordFormat

open Outcome

/-! ## The rules -/

/-- The scalar is one that the kind's operator writes under the standard limits. -/
def Primitive.Admits (p : Primitive) (s : Scalar) : Prop :=
  ∃ op, Operator.ofPrimitive Limits.standard.floatMagnitude p = .ok op ∧
    op.accepts (.scalar s) = true

theorem Primitive.admits_iff {p : Primitive} {s : Scalar} :
    p.Admits s ↔ s.fits p Limits.standard.floatMagnitude = true := by
  -- Sentinels have no operator, and no scalar is of their kind.
  cases p with
  | null | unknown => cases s <;> simp [Admits, Operator.ofPrimitive, Scalar.fits, Scalar.kind]
  | bool | byte | int16 | int32 | int64 | float | double =>
      simp [Admits, Operator.ofPrimitive, Operator.accepts, FixedKind.primitive]
  | string | binary =>
      cases s <;> simp [Admits, Operator.ofPrimitive, Operator.accepts, Scalar.fits, Scalar.kind]

namespace FieldType

/-- Kinds that have values, and groups. -/
def Elementary : FieldType → Prop
  | .primitive p => p ∈ Primitive.all
  | .unbound _ | .bound _ => True
  | .list _ => False

/-- An elementary type, or a list of one. -/
def Supported : FieldType → Prop
  | .list element => element.Elementary
  | type => type.Elementary

/-- The type is the group or a list of it, and the group is only named. -/
def OnlyNames (type : FieldType) (group : String) : Prop :=
  type = .unbound group ∨ type = .list (.unbound group)

end FieldType

namespace Field

/-- Fields that take no default. -/
def TakesNoDefault (f : Field) : Prop :=
  f.isRequired = true ∨ f.isDerived = true ∨ f.type.isPrimitive = false

/-- A stored optional field of the kind. -/
structure IsOptional (f : Field) (p : Primitive) : Prop where
  type : f.type = .primitive p
  stored : f.isStored = true
  optional : f.isOptional = true

/-- The rules for a field. -/
structure Lawful (f : Field) : Prop where
  name : Text.FieldName f.name
  reserved : f.isDerived = true ↔ f.id = derivedId
  derivedType : f.isDerived = true → f.type.isPrimitive = true
  derivedPresence : f.isDerived = true → f.isOptional = true
  derivedUnsorted : f.isDerived = true → f.isSortKey = false
  derivedRarelyUsed : f.isDerived = true → f.constraints.frequentlyUsed = false
  sortKey : f.isSortKey = true → f.isRequired = true
  largeList : f.constraints.largeList = true → f.type.isList = true
  type : f.type.Supported
  noDefault : f.TakesNoDefault → f.default = none
  default : ∀ p, f.IsOptional p →
    (∃ s, f.default = some s ∧ p.Admits s) ∨ (f.default = none ∧ p = .binary)

/-- The field breaks the rule, as a violation in the named table says. -/
inductive Breaks (table : String) (f : Field) : Violation → Prop
  | name : ¬ Text.FieldName f.name → Breaks table f (.invalidFieldName table f.name)
  | reserved : ¬ (f.isDerived = true ↔ f.id = derivedId) →
      Breaks table f (.derivedIdMismatch table f.name f.id)
  | derivedType : f.isDerived = true → f.type.isPrimitive = false →
      Breaks table f (.derivedNotPrimitive table f.name)
  | derivedPresence : f.isDerived = true → f.isOptional = false →
      Breaks table f (.derivedNotOptional table f.name)
  | derivedUnsorted : f.isDerived = true → f.isSortKey = true →
      Breaks table f (.derivedSortKey table f.name)
  | derivedRarelyUsed : f.isDerived = true → f.constraints.frequentlyUsed = true →
      Breaks table f (.derivedFrequentlyUsed table f.name)
  | sortKey : f.isSortKey = true → f.isRequired = false →
      Breaks table f (.sortKeyNotRequired table f.name)
  | largeList : f.constraints.largeList = true → f.type.isList = false →
      Breaks table f (.largeListNotCollection table f.name)
  | type : ¬ f.type.Supported → Breaks table f (.unsupportedType table f.name f.type.text)
  | noDefault : f.TakesNoDefault → f.default ≠ none →
      Breaks table f (.unexpectedDefault table f.name)
  | missingDefault {p : Primitive} : f.IsOptional p → p ≠ .binary → f.default = none →
      Breaks table f (.missingDefault table f.name)
  | wrongDefault {p : Primitive} {s : Scalar} : f.IsOptional p → f.default = some s →
      ¬ p.Admits s → Breaks table f (.incompatibleDefault table f.name p.name s.kind.name)

end Field

namespace Table

/-- The rules for a table. -/
structure Lawful (t : Table) : Prop where
  name : Text.TableName t.name
  version : 1 ≤ t.version
  fields : ∀ f ∈ t.fields, f.Lawful
  oneSortKey : (t.fields.filter Field.isSortKey).length ≤ 1

/-- The violation stands, and all fields in front of the culprit are lawful. A second sort key is
lawful on its own, and the one named with it is the only one in front of it. -/
inductive Breaks (t : Table) : Violation → Prop
  | name : ¬ Text.TableName t.name → Breaks t (.invalidTableName t.name)
  | version : t.version < 1 → Breaks t (.invalidTableVersion t.name t.version)
  | field {before after : List Field} {f : Field} {v : Violation} :
      t.fields = before ++ f :: after → (∀ g ∈ before, g.Lawful) → f.Breaks t.name v → Breaks t v
  | sortKeys {before after : List Field} {f g : Field} : t.fields = before ++ g :: after →
      (∀ h ∈ before ++ [g], h.Lawful) → before.filter Field.isSortKey = [f] →
      g.isSortKey = true → Breaks t (.multipleSortKeys t.name f.name g.name)

end Table

namespace Schema

/-- The rules for a schema. -/
structure Lawful (s : Schema) : Prop where
  name : Text.TableName s.name
  tables : ∀ t ∈ s.tables, t.Lawful
  references : ∀ t ∈ s.tables, ∀ f ∈ t.fields, ∀ group, f.type.OnlyNames group →
    ∃ u ∈ s.tables, u.name = group

/-- The violation stands, and all tables in front of the culprit are lawful; all tables are when a
group is missing. -/
inductive Breaks (s : Schema) : Violation → Prop
  | name : ¬ Text.TableName s.name → Breaks s (.invalidSchemaName s.name)
  | table {before after : List Table} {t : Table} {v : Violation} :
      s.tables = before ++ t :: after → (∀ u ∈ before, u.Lawful) → t.Breaks v → Breaks s v
  | reference {t : Table} {f : Field} {group : String} : (∀ t ∈ s.tables, t.Lawful) →
      t ∈ s.tables → f ∈ t.fields → f.type.OnlyNames group → (∀ u ∈ s.tables, u.name ≠ group) →
      Breaks s (.unresolvedGroup t.name f.name group)

end Schema

/-! ## Fields -/

theorem Primitive.isSentinel_iff {p : Primitive} : p.isSentinel = true ↔ p ∉ Primitive.all := by
  cases p <;> decide

namespace Field

variable {table : String} {f : Field} {v : Violation}

theorem hasUnsupportedType_iff : f.hasUnsupportedType = true ↔ ¬ f.type.Supported := by
  unfold hasUnsupportedType
  cases f.type with
  | primitive p => exact Primitive.isSentinel_iff
  | unbound | bound => simp [FieldType.isSentinel, FieldType.Supported, FieldType.Elementary]
  | list element =>
      cases element with
      | primitive p => exact Primitive.isSentinel_iff
      | unbound | bound | list =>
          simp [FieldType.isSentinel, FieldType.isList, FieldType.Supported, FieldType.Elementary]

theorem forbidsDefault_iff : f.forbidsDefault = true ↔ f.TakesNoDefault := by
  simp [forbidsDefault, TakesNoDefault, or_assoc]

theorem isOptional_eq (f : Field) : f.isOptional = !f.isRequired := by
  unfold isOptional isRequired Constraints.isOptional Constraints.isRequired
  cases f.constraints.presence <;> rfl

/-- Stored optional fields of a kind are those that may have a default. -/
theorem exists_isOptional_iff : (∃ p, f.IsOptional p) ↔ ¬ f.TakesNoDefault := by
  simp only [TakesNoDefault, not_or, Bool.not_eq_true, Bool.not_eq_false]
  constructor
  · rintro ⟨p, type, stored, optional⟩
    rw [isOptional_eq] at optional
    refine ⟨by simpa using optional, by simpa [isStored, isDerived] using stored, ?_⟩
    rw [type]
    rfl
  · rintro ⟨optional, stored, primitive⟩
    obtain ⟨p, type⟩ := Option.isSome_iff_exists.mp primitive
    refine ⟨p, ?_, by simpa [isStored, isDerived] using stored, by simp [isOptional_eq, optional]⟩
    cases type' : f.type <;> rw [type'] at type <;> cases type
    rfl

theorem misnumbered_iff : (f.isDerived != decide (f.id = derivedId)) = true ↔
    ¬ (f.isDerived = true ↔ f.id = derivedId) := by
  rw [bne_iff_ne, Ne, Bool.eq_iff_iff, decide_eq_true_iff]

theorem breaks_of_checkDefault : Faults (f.Breaks table) (f.checkDefault table) := by
  unfold checkDefault
  by_cases forbidden : f.forbidsDefault = true
  · rw [if_pos forbidden]
    refine Faults.refuseIf fun given => ?_
    exact .noDefault (forbidsDefault_iff.mp forbidden) (Option.isSome_iff_ne_none.mp given)
  · rw [if_neg forbidden]
    obtain ⟨p, optional⟩ := exists_isOptional_iff.mpr (mt forbidsDefault_iff.mpr forbidden)
    rw [optional.type]
    cases given : f.default with
    | some s =>
        refine Faults.refuseIf fun unfit => ?_
        refine .wrongDefault optional given ?_
        rw [Primitive.admits_iff]
        simpa using unfit
    | none =>
        refine Faults.refuseIf fun required => ?_
        refine .missingDefault optional ?_ given
        rw [requiresDefault, optional.type] at required
        simpa using (Bool.and_eq_true_iff.mp required).2

/-- **What the check of a field complains about stands.** -/
theorem breaks_of_check : Faults (f.Breaks table) (f.check table) := by
  refine (Faults.refuseIf fun bad => ?_).bind fun _ => ?_
  · exact .name (Text.not_isFieldName_iff.mp bad)
  refine (Faults.refuseIf fun bad => ?_).bind fun _ => ?_
  · exact .reserved (misnumbered_iff.mp bad)
  refine Faults.bind ?_ fun _ => ?_
  · unfold checkDerived
    by_cases derived : f.isDerived = true
    · rw [if_pos derived]
      refine (Faults.refuseIf fun bad => ?_).bind fun _ => ?_
      · exact .derivedType derived (by simpa using bad)
      refine (Faults.refuseIf fun bad => ?_).bind fun _ => ?_
      · exact .derivedPresence derived (by simpa using bad)
      refine (Faults.refuseIf fun bad => ?_).bind fun _ => ?_
      · exact .derivedUnsorted derived bad
      exact Faults.refuseIf fun bad => .derivedRarelyUsed derived bad
    · rw [if_neg derived]
      exact Faults.ok ()
  refine (Faults.refuseIf fun bad => ?_).bind fun _ => ?_
  · rw [Bool.and_eq_true, Bool.not_eq_true'] at bad
    exact .sortKey bad.1 bad.2
  refine (Faults.refuseIf fun bad => ?_).bind fun _ => ?_
  · rw [Bool.and_eq_true, Bool.not_eq_true'] at bad
    exact .largeList bad.1 bad.2
  refine (Faults.refuseIf fun bad => ?_).bind fun _ => ?_
  · exact .type (hasUnsupportedType_iff.mp bad)
  exact breaks_of_checkDefault

theorem default_of_checkDefault {u : Unit} (h : f.checkDefault table = .ok u) {p : Primitive}
    (optional : f.IsOptional p) :
    (∃ s, f.default = some s ∧ p.Admits s) ∨ (f.default = none ∧ p = .binary) := by
  have allowed : ¬ f.forbidsDefault = true :=
    mt forbidsDefault_iff.mp (exists_isOptional_iff.mp ⟨p, optional⟩)
  rw [checkDefault, if_neg allowed, optional.type] at h
  cases given : f.default with
  | some s =>
      rw [given] at h
      have fits := refuseIf_eq_ok_iff.mp h
      rw [Bool.not_eq_true', Bool.not_eq_false] at fits
      exact .inl ⟨s, rfl, Primitive.admits_iff.mpr fits⟩
  | none =>
      rw [given] at h
      have free := refuseIf_eq_ok_iff.mp h
      rw [requiresDefault, optional.type, optional.stored, optional.optional] at free
      exact .inr ⟨rfl, by simpa using free⟩

theorem lawful_of_check {u : Unit} (h : f.check table = .ok u) : f.Lawful := by
  unfold check at h
  simp only [bind_eq_ok_iff, refuseIf_eq_ok_iff] at h
  obtain ⟨_, name, _, number, _, derived, _, sorted, _, large, _, supported, default⟩ := h
  have computed : f.isDerived = true → f.type.isPrimitive = true ∧ f.isOptional = true ∧
      f.isSortKey = false ∧ f.constraints.frequentlyUsed = false := by
    intro own
    rw [checkDerived, if_pos own] at derived
    simpa only [bind_eq_ok_iff, refuseIf_eq_ok_iff, exists_const, Bool.not_eq_true',
      Bool.not_eq_false, Bool.not_eq_true] using derived
  exact {
    name := not_not.mp (mt Text.not_isFieldName_iff.mpr name)
    reserved := not_not.mp (mt misnumbered_iff.mpr number)
    derivedType := fun own => (computed own).1
    derivedPresence := fun own => (computed own).2.1
    derivedUnsorted := fun own => (computed own).2.2.1
    derivedRarelyUsed := fun own => (computed own).2.2.2
    sortKey := by simpa using sorted
    largeList := by simpa using large
    type := not_not.mp (mt hasUnsupportedType_iff.mpr supported)
    noDefault := by
      intro takesNone
      rw [checkDefault, if_pos (forbidsDefault_iff.mpr takesNone), refuseIf_eq_ok_iff] at default
      simpa using default
    default := fun p optional => default_of_checkDefault default optional }

theorem Breaks.not_lawful (h : f.Breaks table v) : ¬ f.Lawful := by
  intro lawful
  cases h with
  | name bad => exact bad lawful.name
  | reserved bad => exact bad lawful.reserved
  | derivedType own bad => simp [lawful.derivedType own] at bad
  | derivedPresence own bad => simp [lawful.derivedPresence own] at bad
  | derivedUnsorted own bad => simp [lawful.derivedUnsorted own] at bad
  | derivedRarelyUsed own bad => simp [lawful.derivedRarelyUsed own] at bad
  | sortKey sorted bad => simp [lawful.sortKey sorted] at bad
  | largeList large bad => simp [lawful.largeList large] at bad
  | type bad => exact bad lawful.type
  | noDefault takesNone given => exact given (lawful.noDefault takesNone)
  | @missingDefault p optional kind none =>
      rcases lawful.default p optional with ⟨s, given, -⟩ | ⟨-, binary⟩
      · cases none.symm.trans given
      · exact kind binary
  | @wrongDefault p s optional given unfit =>
      rcases lawful.default p optional with ⟨s', given', fits⟩ | ⟨none, -⟩
      · cases given.symm.trans given'
        exact unfit fits
      · cases none.symm.trans given

/-- **The check of a field accepts exactly the lawful ones.** -/
theorem check_eq_ok_iff : f.check table = .ok () ↔ f.Lawful := by
  refine ⟨lawful_of_check, ?_⟩
  intro lawful
  obtain ⟨_, checked⟩ := breaks_of_check.exists_ok fun _ breaks => breaks.not_lawful lawful
  exact checked

end Field

/-! ## Tables -/

namespace Table

variable {t : Table} {f : Field} {v : Violation}

/-- Every field of a checked table was checked. -/
theorem check_of_checkEach {table : String} : ∀ {fields : List Field} {key : Option String}
    {u : Unit}, checkEach table key fields = .ok u → ∀ f ∈ fields, f.check table = .ok ()
  | g :: rest, key, u, h, f, hf => by
      unfold checkEach at h
      rcases bind_eq_ok_iff.mp h with ⟨_, here, h⟩
      rcases List.mem_cons.mp hf with rfl | hf
      · exact here
      · by_cases sorted : g.isSortKey = true
        · rw [if_pos sorted] at h
          cases key with
          | some first => exact absurd h throw_ne_ok
          | none => exact check_of_checkEach h f hf
        · rw [if_neg sorted] at h
          exact check_of_checkEach h f hf

/-- Together with the one met before, checked fields have at most one sort key. -/
theorem length_sortKeys_le {table : String} : ∀ {fields : List Field} {key : Option String}
    {v : Unit}, checkEach table key fields = .ok v →
      (fields.filter Field.isSortKey).length + key.toList.length ≤ 1
  | [], none, _, _ => by simp
  | [], some _, _, _ => by simp
  | f :: rest, key, v, h => by
      unfold checkEach at h
      obtain ⟨_, -, h⟩ := bind_eq_ok_iff.mp h
      by_cases sorted : f.isSortKey = true
      · rw [if_pos sorted] at h
        cases key with
        | some first => exact absurd h throw_ne_ok
        | none =>
            have others := length_sortKeys_le h
            rw [List.filter_cons_of_pos sorted]
            exact others
      · rw [if_neg sorted] at h
        rw [List.filter_cons_of_neg sorted]
        exact length_sortKeys_le h

theorem checkField (h : t.check = .ok ()) (hf : f ∈ t.fields) : f.check t.name = .ok () := by
  unfold check at h
  simp only [bind_eq_ok_iff] at h
  obtain ⟨_, -, _, -, each⟩ := h
  exact check_of_checkEach each f hf

/-- Where the fields in front are lawful and `key` is their sort key, what the checks of the rest
complain about stands. -/
theorem breaks_of_checkEach : ∀ (fields seen : List Field) (key : Option Field),
    t.fields = seen ++ fields → (∀ f ∈ seen, f.Lawful) →
      seen.filter Field.isSortKey = key.toList →
      Faults t.Breaks (checkEach t.name (key.map Field.name) fields)
  | [], _, _, _, _, _ => Faults.ok ()
  | f :: rest, seen, key, split, lawful, keys => by
      unfold checkEach
      refine Faults.andThen ?_ fun _ passed => ?_
      · intro v failed
        exact .field split lawful (Field.breaks_of_check v failed)
      have here : f.Lawful := Field.lawful_of_check passed
      have further : ∀ g ∈ seen ++ [f], g.Lawful := by
        intro g hg
        rcases List.mem_append.mp hg with hg | hg
        · exact lawful g hg
        · rw [List.mem_singleton.mp hg]
          exact here
      have split' : t.fields = (seen ++ [f]) ++ rest := by rw [split, List.append_cons]
      by_cases sorted : f.isSortKey = true
      · rw [if_pos sorted]
        cases key with
        | some first => exact Faults.error (.sortKeys split further keys sorted)
        | none =>
            apply breaks_of_checkEach rest (seen ++ [f]) (some f) split' further
            rw [List.filter_append, keys, List.filter_cons_of_pos sorted]
            rfl
      · rw [if_neg sorted]
        apply breaks_of_checkEach rest (seen ++ [f]) key split' further
        rw [List.filter_append, keys, List.filter_cons_of_neg sorted]
        exact List.append_nil _

/-- **What the check of a table complains about stands.** -/
theorem breaks_of_check : Faults t.Breaks t.check := by
  refine (Faults.refuseIf fun bad => ?_).bind fun _ => ?_
  · exact .name (Text.not_isTableName_iff.mp bad)
  refine (Faults.refuseIf fun bad => ?_).bind fun _ => ?_
  · exact .version bad
  exact breaks_of_checkEach t.fields [] none rfl (by simp) rfl

theorem lawful_of_check (h : t.check = .ok ()) : t.Lawful := by
  have fields := fun f (hf : f ∈ t.fields) => Field.lawful_of_check (checkField h hf)
  unfold check at h
  simp only [bind_eq_ok_iff, refuseIf_eq_ok_iff] at h
  obtain ⟨_, name, _, version, each⟩ := h
  exact {
    name := not_not.mp (mt Text.not_isTableName_iff.mpr name)
    version := Int16.not_lt.mp version
    fields := fields
    oneSortKey := length_sortKeys_le each }

theorem Breaks.not_lawful (h : t.Breaks v) : ¬ t.Lawful := by
  intro lawful
  cases h with
  | name bad => exact bad lawful.name
  | version bad => exact Int16.not_lt.mpr lawful.version bad
  | @field before after f v split _ breaks =>
      refine breaks.not_lawful (lawful.fields f ?_)
      rw [split]
      exact List.mem_append_right _ (List.mem_cons_self ..)
  | @sortKeys before after f g split _ keys sorted =>
      have few := lawful.oneSortKey
      rw [split, List.filter_append, keys, List.filter_cons_of_pos sorted] at few
      simp at few

end Table

/-! ## Schemas -/

namespace FieldType

variable {type : FieldType} {group : String}

/-- Of a supported type, the group that it only names is its own or that of its elements. -/
theorem Supported.onlyNames_iff (h : type.Supported) :
    type.OnlyNames group ↔ type.group? = some (group, none) := by
  cases type with
  | primitive | unbound | bound => simp [OnlyNames, group?]
  | list element =>
      cases element with
      | primitive | unbound | bound => simp [OnlyNames, group?]
      | list inner => exact h.elim

end FieldType

namespace Schema

variable {s : Schema} {t : Table} {v : Violation}

theorem table?_eq_none_iff {name : String} :
    s.table? name = none ↔ ∀ u ∈ s.tables, u.name ≠ name := by
  unfold table?
  rw [List.find?_eq_none]
  simp

theorem mem_groupReferences {f : Field} {group : String}
    (h : (t, f, group) ∈ s.groupReferences) :
    t ∈ s.tables ∧ f ∈ t.fields ∧ ∃ bound, f.type.group? = some (group, bound) := by
  obtain ⟨⟨u, g⟩, field, found⟩ := List.mem_filterMap.mp h
  obtain ⟨⟨_, bound⟩, refers, same⟩ := Option.map_eq_some_iff.mp found
  cases same
  obtain ⟨_, ht, inside⟩ := List.mem_flatMap.mp field
  obtain ⟨_, hf, same⟩ := List.mem_map.mp inside
  cases same
  exact ⟨ht, hf, bound, refers⟩

/-- Every table of a checked schema was checked. -/
theorem checkTable (checked : s.check = .ok ()) (ht : t ∈ s.tables) : t.check = .ok () := by
  rcases bind_eq_ok_iff.mp checked with ⟨_, -, checked⟩
  obtain ⟨_, each, -⟩ := bind_eq_ok_iff.mp checked
  exact forM_eq_ok_iff.mp each t ht

/-- In a checked schema a group that is not bound names a table. -/
theorem isSome_table?_of_check (checked : s.check = .ok ()) {f : Field} {group : String}
    (ht : t ∈ s.tables) (hf : f ∈ t.fields)
    (unbound : f.type.group? = some (group, none)) : (s.table? group).isSome = true := by
  rcases bind_eq_ok_iff.mp checked with ⟨_, -, checked⟩
  obtain ⟨_, -, each⟩ := bind_eq_ok_iff.mp checked
  have refers : (t, f, group) ∈ s.groupReferences := by
    have field : (t, f) ∈ s.allFields :=
      List.mem_flatMap.mpr ⟨t, ht, List.mem_map.mpr ⟨f, hf, rfl⟩⟩
    exact List.mem_filterMap.mpr ⟨(t, f), field, congrArg (Option.map _) unbound⟩
  have here := refuseIf_eq_ok_iff.mp (forM_eq_ok_iff.mp each _ refers)
  rw [dangles, unbound, Option.isNone_iff_eq_none] at here
  exact Option.isSome_iff_ne_none.mpr here

/-- **What the check of a schema complains about stands.** -/
theorem breaks_of_check : Faults s.Breaks s.check := by
  refine (Faults.refuseIf fun bad => ?_).bind fun _ => ?_
  · exact .name (Text.not_isTableName_iff.mp bad)
  refine Faults.andThen ?_ fun _ passed => ?_
  · refine Faults.forM fun before t after split earlier v failed => ?_
    exact .table split (fun u hu => Table.lawful_of_check (earlier u hu))
      (Table.breaks_of_check v failed)
  have lawful : ∀ t ∈ s.tables, t.Lawful :=
    fun t ht => Table.lawful_of_check (forM_eq_ok_iff.mp passed t ht)
  refine Faults.forM fun before (t, f, group) after split _ => Faults.refuseIf fun bad => ?_
  have mem : (t, f, group) ∈ s.groupReferences := by
    rw [split]
    exact List.mem_append_right _ (List.mem_cons_self ..)
  obtain ⟨ht, hf, bound, refers⟩ := mem_groupReferences mem
  rw [dangles, refers] at bad
  cases bound with
  | some u => cases bad
  | none =>
      have onlyNames := ((lawful t ht).fields f hf).type.onlyNames_iff.mpr refers
      exact .reference lawful ht hf onlyNames
        (table?_eq_none_iff.mp (Option.isNone_iff_eq_none.mp bad))

theorem lawful_of_check (h : s.check = .ok ()) : s.Lawful := by
  have tables := fun t (ht : t ∈ s.tables) => Table.lawful_of_check (checkTable h ht)
  obtain ⟨_, name, -⟩ := bind_eq_ok_iff.mp h
  exact {
    name := not_not.mp (mt Text.not_isTableName_iff.mpr (refuseIf_eq_ok_iff.mp name))
    tables := tables
    references := by
      intro t ht f hf group onlyNames
      have unbound := ((tables t ht).fields f hf).type.onlyNames_iff.mp onlyNames
      by_contra missing
      push Not at missing
      have found := isSome_table?_of_check h ht hf unbound
      rw [table?_eq_none_iff.mpr missing] at found
      cases found }

theorem Breaks.not_lawful (h : s.Breaks v) : ¬ s.Lawful := by
  intro lawful
  cases h with
  | name bad => exact bad lawful.name
  | @table before after t v split _ breaks =>
      refine breaks.not_lawful (lawful.tables t ?_)
      rw [split]
      exact List.mem_append_right _ (List.mem_cons_self ..)
  | @reference t f group _ ht hf onlyNames missing =>
      obtain ⟨u, hu, named⟩ := lawful.references t ht f hf group onlyNames
      exact missing u hu named

/-- **The structural rules are decided.** The check accepts exactly the lawful schemas. What it
complains about otherwise is a violation that stands: the table and the field that it names are
there, the tables and fields in front of them are lawful, and it is they that break the rule. -/
theorem check_decides (s : Schema) :
    (s.check = .ok () ↔ s.Lawful) ∧ ∀ v, s.check = .error v → s.Breaks v := by
  refine ⟨⟨lawful_of_check, ?_⟩, breaks_of_check⟩
  intro lawful
  obtain ⟨_, checked⟩ := breaks_of_check.exists_ok fun _ breaks => breaks.not_lawful lawful
  exact checked

end Schema

namespace Household

/-- People have a height where none is given. -/
def measured : Table := ⟨"Person", 1, [
  ⟨1, "age", .primitive .int32, { presence := .required, sort := some .ascending }, none⟩,
  ⟨2, "height", .primitive .int32, .optional, some (.int32 170)⟩]⟩

/-- Pets are sorted by age and by height. -/
def rivals : Table := ⟨"Pet", 1, [
  ⟨1, "age", .primitive .int32, { presence := .required, sort := some .ascending }, none⟩,
  ⟨2, "height", .primitive .int32, { presence := .required, sort := some .ascending }, none⟩]⟩

/-- The second sort key is the culprit, behind a lawful table. -/
theorem check_decides_rivals : Schema.Lawful ⟨"Household", [measured]⟩ ∧
    Schema.Breaks ⟨"Household", [measured, rivals]⟩ (.multipleSortKeys "Pet" "age" "height") :=
  ⟨(Schema.check_decides ⟨"Household", [measured]⟩).1.mp (by decide +kernel),
    (Schema.check_decides ⟨"Household", [measured, rivals]⟩).2 _ (by rfl)⟩

end Household

end RecordFormat
