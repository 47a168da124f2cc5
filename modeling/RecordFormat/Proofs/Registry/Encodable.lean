import Mathlib
import RecordFormat.Proofs.Registry.Unshared
import RecordFormat.Proofs.Schema.Modes

/-!
# Tables that have codecs

A codec is made from the tables that groups carry, while the check of schemas also lets a group pass
that only names a table. So a table of a checked schema has a codec when its groups carry tables
down to the last one, and only when each of them carries one (`Schema.codec_of_check`). Groups of
schemas that are built do, in either mode; groups of schemas that are put together need not
(`Household.not_codec_of_named`).
-/

namespace RecordFormat

open Outcome
open Steps (Ends Succeeds)

mutual

/-- The type has values, and a group carries a table that has a codec. -/
inductive FieldType.Encodable : FieldType → Prop
  | primitive {p : Primitive} : p.isSentinel = false → FieldType.Encodable (.primitive p)
  | bound {t : Table} : t.Encodable → FieldType.Encodable (.bound t)
  | list {element : FieldType} : element.Encodable → FieldType.Encodable (.list element)

/-- The types of the stored fields are encodable. -/
inductive Table.Encodable : Table → Prop
  | intro {t : Table} : (∀ f ∈ t.storedFields, f.type.Encodable) → Table.Encodable t

end

/-! ## Encodable tables -/

section

open Registry

variable {limits : Limits} {r : Registry}

theorem Operator.exists_ofPrimitive {p : Primitive} (valued : p.isSentinel = false)
    (limit : Binary64) : ∃ op, Operator.ofPrimitive limit p = .ok op := by
  cases p with
  | null | unknown => cases valued
  | bool | byte | int16 | int32 | int64 | float | double | string | binary => exact ⟨_, rfl⟩

theorem Registry.keepOperator_succeeds (key : OperatorKey) (op : Operator) (r : Registry) :
    Succeeds (fun _ => True) (fun _ => True) (keepOperator key op) r := by
  refine Succeeds.look (a := (r.operators.find? _).map Prod.snd) rfl ?_
  cases (r.operators.find? fun e => e.1.same key).map Prod.snd with
  | some kept => exact Succeeds.pure trivial trivial
  | none => exact ⟨op, _, rfl, trivial, trivial⟩

theorem Registry.keepCodec_succeeds (key : String × Int16) (c : TableCodec) (r : Registry) :
    Succeeds (fun _ => True) (fun _ => True) (keepCodec key c) r := by
  refine Succeeds.look (a := (r.codecs.find? _).map Prod.snd) rfl ?_
  cases (r.codecs.find? fun e => e.1 = key).map Prod.snd with
  | some kept => exact Succeeds.pure trivial trivial
  | none => exact ⟨c, _, rfl, trivial, trivial⟩

mutual

/-- **An encodable type has an operator**, whatever the registry holds. -/
theorem FieldType.operator_succeeds (t : FieldType) (encodable : t.Encodable) (r : Registry) :
    Succeeds (fun _ => True) (fun _ => True) t.operator r := by
  rw [FieldType.operator]
  refine Succeeds.look (a := (r.operators.find? _).map Prod.snd) rfl ?_
  cases (r.operators.find? fun e => e.1.same t.operatorKey).map Prod.snd with
  | some op => exact Succeeds.pure trivial trivial
  | none =>
      cases encodable with
      | primitive valued =>
          obtain ⟨op, made⟩ := Operator.exists_ofPrimitive valued r.limits.floatMagnitude
          refine Succeeds.look (a := r) rfl ?_
          refine Succeeds.bind (Succeeds.liftExcept trivial made trivial) ?_ (Q := fun _ => True)
          intro op s _ _
          exact keepOperator_succeeds _ op s
      | @bound table inside =>
          refine (Table.codec_succeeds table inside r).bind ?_
          intro c s _ _
          exact keepOperator_succeeds _ _ s
      | @list element inside =>
          refine (FieldType.operator_succeeds element inside r).bind ?_
          intro op s _ _
          exact Succeeds.look (a := s) rfl (keepOperator_succeeds _ _ s)
termination_by (sizeOf t, 0)

/-- **An encodable table has a codec**, whatever the registry holds. -/
theorem Table.codec_succeeds (t : Table) (encodable : t.Encodable) (r : Registry) :
    Succeeds (fun _ => True) (fun _ => True) t.codec r := by
  rw [Table.codec_eq]
  refine Succeeds.look (a := (r.codecs.find? _).map Prod.snd) rfl ?_
  cases (r.codecs.find? fun e => e.1 = t.codecKey).map Prod.snd with
  | some c => exact Succeeds.pure trivial trivial
  | none =>
      obtain ⟨stored⟩ := encodable
      refine (Succeeds.mapM (T := fun _ _ => True) t.layoutFields trivial ?_).bind ?_
      · refine List.forall₂_same.mpr fun f hf s _ => ?_
        have smaller := Table.sizeOf_type_lt hf
        have inside := stored f (List.mem_filter.mpr (Table.mem_layoutFields.mp hf))
        exact (FieldType.operator_succeeds f.type inside s).bind fun _ _ _ _ =>
          Succeeds.pure trivial trivial
      · intro slots s _ _
        exact Succeeds.look (a := s) rfl (keepCodec_succeeds _ _ s)
termination_by (sizeOf t, 1)

end

/-! ## Groups that carry no table -/

/-- The group that the field refers to, if it does, carries a table in `T`. -/
def Field.Carries (T : Table → Prop) (f : Field) : Prop :=
  ∀ group bound, f.type.group? = some (group, bound) → ∃ u, bound = some u ∧ T u

/-- No operator is of a type with a group that carries no table. -/
theorem Operator.exists_of_key {t : FieldType} {group : String} {bound : Option Table}
    (op : Operator) (key : op.type.operatorKey = t.operatorKey)
    (refers : t.group? = some (group, bound)) : ∃ u, bound = some u := by
  have kin := FieldType.kin_of_key key
  generalize type : op.type = a at kin
  cases kin with
  | primitive p => cases refers
  | unbound group => cases op <;> cases type
  | bound _ =>
      cases refers
      exact ⟨_, rfl⟩
  | list elements =>
      cases op with
      | list element _ =>
          cases type
          exact exists_of_key element elements refers
      | fixed | string | binary | group => cases type

theorem Field.carries_ends {f : Field}
    (sound : Sound limits (fun _ => True) r) (within : f.type.Within fun _ => True) :
    Ends Extends (Sound limits fun _ => True) (fun _ _ => f.Carries fun _ => True)
      (do return Slot.mk f (← f.type.operator)) r :=
  (f.type.operator_ends nestedIn_true within sound).bind fun op _ sound _ compiled =>
    Ends.pure sound fun _ _ refers =>
      (op.exists_of_key compiled.type refers).imp fun _ same => ⟨same, trivial⟩

/-- A table has a codec only when the groups of its stored fields carry tables. -/
theorem Table.carries_of_codec {t : Table} {c : TableCodec}
    (given : (t.codec.run { limits }).1 = .ok c) :
    ∀ f ∈ t.storedFields, f.Carries fun _ => True := by
  rcases run : t.codec.run { limits } with ⟨outcome, r⟩
  rw [run] at given
  obtain rfl : outcome = .ok c := given
  rw [Table.codec_eq] at run
  obtain ⟨_, _, ⟨⟩, rest⟩ := Steps.run_bind_eq_ok_iff.mp run
  obtain ⟨slots, r', made, -⟩ := Steps.run_bind_eq_ok_iff.mp rest
  have ends : Ends Extends (Sound limits fun _ => True)
      (fun slots _ => List.Forall₂ (fun f (_ : Slot) => f.Carries fun _ => True) t.layoutFields slots)
      (t.layoutFields.mapM fun f => do return Slot.mk f (← f.type.operator)) { limits } :=
    Ends.mapM (fun _ _ _ _ _ h => h) sound_fresh fun f hf r sound _ =>
      Field.carries_ends sound (nestedIn_true t trivial f (Table.mem_layoutFields.mp hf).1)
  have each := ends.returns slots (congrArg Prod.fst made)
  intro f hf
  have mem : f ∈ t.layoutFields := Table.mem_layoutFields.mpr (List.mem_filter.mp hf)
  obtain ⟨_, -, carries⟩ := exists_right_of_mem each mem
  exact carries

end

/-! ## Checked schemas -/

/-- Nothing in the type is without values. -/
def FieldType.Valued : FieldType → Prop
  | .primitive p => p.isSentinel = false
  | .list element => element.Valued
  | _ => True

theorem FieldType.encodable_of (type : FieldType) (valued : type.Valued)
    (carries : ∀ group bound, type.group? = some (group, bound) →
      ∃ u, bound = some u ∧ u.Encodable) : type.Encodable := by
  match type with
  | .primitive p => exact .primitive valued
  | .unbound group =>
      obtain ⟨_, none, -⟩ := carries group none rfl
      cases none
  | .bound t =>
      obtain ⟨u, same, encodable⟩ := carries t.name (some t) rfl
      cases same
      exact .bound encodable
  | .list element => exact .list (FieldType.encodable_of element valued carries)

theorem FieldType.sizeOf_group?_lt {group : String} {u : Table} (type : FieldType)
    (refers : type.group? = some (group, some u)) : sizeOf u < sizeOf type := by
  match type with
  | .bound t =>
      cases refers
      simp
  | .list element =>
      have inside := FieldType.sizeOf_group?_lt element refers
      simp
      omega

theorem FieldType.valued_of_elementary : ∀ type : FieldType, type.Elementary → type.Valued
  | .primitive p, h => by
      show p.isSentinel = false
      rw [← Bool.not_eq_true, Primitive.isSentinel_iff, not_not]
      exact h
  | .unbound _, _ | .bound _, _ => trivial

theorem FieldType.valued_of_supported : ∀ type : FieldType, type.Supported → type.Valued
  | .primitive p, h => valued_of_elementary (.primitive p) h
  | .unbound _, _ | .bound _, _ => trivial
  | .list element, h => valued_of_elementary element h

namespace Schema

variable {s : Schema} {t : Table}

/-- A table of a checked schema is encodable when its groups carry encodable tables. -/
theorem encodable_of_check (checked : s.check = .ok ()) (ht : t ∈ s.tables)
    (carries : ∀ f ∈ t.storedFields, f.Carries Table.Encodable) : t.Encodable := by
  refine .intro fun f hf => f.type.encodable_of ?_ (carries f hf)
  have lawful := Table.lawful_of_check (checkTable checked ht)
  exact f.type.valued_of_supported (lawful.fields f (List.mem_of_mem_filter hf)).type

/-- Where all groups carry tables of the checked schema, these are encodable. -/
theorem encodable_of_carries (checked : s.check = .ok ())
    (carries : ∀ t ∈ s.tables, ∀ f ∈ t.fields, f.Carries (· ∈ s.tables)) (t : Table)
    (ht : t ∈ s.tables) : t.Encodable := by
  refine encodable_of_check checked ht fun f hf group bound refers => ?_
  have hf := List.mem_of_mem_filter hf
  obtain ⟨u, rfl, hu⟩ := carries t ht f hf group bound refers
  have inner := f.type.sizeOf_group?_lt refers
  have outer := Table.sizeOf_fieldType_lt hf
  exact ⟨u, rfl, encodable_of_carries checked carries u hu⟩
termination_by sizeOf t

end Schema

/-- In a schema that is built strictly every group carries a table of the schema. -/
theorem Definition.Declares.carries {d : Definition} {s : Schema} (h : d.Declares .strict s) :
    ∀ t ∈ s.tables, ∀ f ∈ t.fields, f.Carries (· ∈ s.tables) := by
  intro t ht f hf group bound refers
  obtain ⟨_, field⟩ := h.exists_field ht hf
  obtain ⟨table, rfl⟩ := FieldType.exists_of_resolved f.type field.resolved refers
  exact ⟨table, rfl, (FieldType.within_group? f.type (h.nested t ht f hf) refers).1⟩

/-- **Tables of a checked schema have codecs when their groups carry tables**, and these do down to
the last one; each group of a table that has a codec does carry one. In a schema that is built, in
either mode, all do. -/
theorem Schema.codec_of_check (s : Schema) (checked : s.check = .ok ()) (t : Table)
    (ht : t ∈ s.tables) (limits : Limits) :
    ((∀ f ∈ t.storedFields, f.Carries Table.Encodable) →
      ∃ c, (t.codec.run { limits }).1 = .ok c) ∧
    ((∃ c, (t.codec.run { limits }).1 = .ok c) → ∀ f ∈ t.storedFields, f.Carries fun _ => True) ∧
    ∀ (mode : BuildMode) (d : Definition) (before : List Interner.Request),
      ((d.build mode).run (Interner.afterAll before)).1 = .ok s →
        ∃ c, (t.codec.run { limits }).1 = .ok c := by
  have given : t.Encodable → ∃ c, (t.codec.run { limits }).1 = .ok c := by
    intro encodable
    obtain ⟨c, r, run, -⟩ := t.codec_succeeds encodable { limits }
    exact ⟨c, congrArg Prod.fst run⟩
  refine ⟨fun carries => given (encodable_of_check checked ht carries), ?_, ?_⟩
  · rintro ⟨c, has⟩
    exact Table.carries_of_codec has
  · intro mode d before built
    have declares := Definition.declares_of_build (Interner.plain_afterAll before) built
    have strict : d.Declares .strict s := by
      cases mode with
      | strict => exact declares
      | lenient => exact declares.strict_of_check checked
    exact given (encodable_of_carries checked strict.carries t ht)

namespace Household

/-- The persons alone, their homes attached: the addresses are no table of the schema. -/
def persons : Schema := ⟨"Household", [person]⟩

theorem codec_of_check_household : (∃ c, (person.codec.run { limits }).1 = .ok c) ∧
    ∃ c, (nextPerson.codec.run { limits }).1 = .ok c := by
  have alone := persons.codec_of_check rfl person (List.mem_cons_self ..) limits
  have together := nextSchema.codec_of_check rfl nextPerson
    (List.mem_cons_of_mem _ (List.mem_cons_self ..)) limits
  refine ⟨alone.1 ?_, together.2.2 .strict nextDefinition [] built_nextSchema⟩
  have encodable : address.Encodable := by
    refine .intro fun f hf => ?_
    rw [List.mem_singleton.mp hf]
    exact .primitive rfl
  intro f hf group bound refers
  have mem := List.mem_of_mem_filter hf
  simp only [person, List.mem_cons, List.not_mem_nil, or_false] at mem
  rcases mem with rfl | rfl | rfl
  · cases refers
    exact ⟨address, rfl, encodable⟩
  · cases refers
  · cases refers

/-- A person whose home is a name. -/
def tenant : Table := ⟨"Person", 1, [{ home with type := .unbound "Address" }]⟩

def tenants : Schema := ⟨"Household", [address, tenant]⟩

/-- A schema may be put together of tables that only name each other. It passes the check, for the
name is that of a table, and the codec fails, for nothing is attached. -/
theorem not_codec_of_named : Schema.create "Household" [address, tenant] = .ok tenants ∧
    tenants.check = .ok () ∧ tenant ∈ tenants.tables ∧
    (tenant.codec.run { limits }).1 = .error (.unresolvedGroup "Address") := by
  refine ⟨rfl, rfl, List.mem_cons_of_mem _ (List.mem_cons_self ..), ?_⟩
  cbv

end Household

end RecordFormat
