import Mathlib
import RecordFormat.Proofs.Evolution.Compatibility
import RecordFormat.Proofs.Record.JsonProjection
import RecordFormat.Proofs.Schema.ScalarForms

/-!
# Which JSON is a record

Shapes and ranges are checked while JSON is read, limits and nested records once a value is there.
`Operator.Form` and `TableCodec.Form` say both at once, of the JSON alone: what a value of an
operator is written as, and which values an object gives a record. Reading takes the forms and
nothing else, at every depth (`Operator.readsForms`), so that it is known of every JSON value
whether it is read and as what (`Record.ofJson_exact`).
-/

namespace RecordFormat

open Outcome

/-! ## Forms -/

mutual

/-- The JSON value is a form of the value: of a scalar of the operator's kind, of a list that is not
too long, item by item, or of a new record that has all its required fields. -/
inductive Operator.Form (limits : Limits) : Operator → Json → Value → Prop
  | scalar {op : Operator} {j : Json} {s : Scalar} : op.type = .primitive s.kind →
      s.Form limits.floatMagnitude j → Operator.Form limits op j (.scalar s)
  | list {element : Operator} {maxElements : Nat} {items : List Json} {vs : List Value} :
      items.length ≤ limits.maxListElements → vs.length = items.length →
        (∀ (i : Nat) (x : Json) (v : Value), items[i]? = some x → vs[i]? = some v →
          Operator.Form limits element x v) →
          Operator.Form limits (.list element maxElements) (.array items) (.list vs)
  | group {c : TableCodec} {j : Json} {m : IdMap Value} : TableCodec.Form limits c j m →
      (∀ f ∈ c.table.fields, f.isRequired = true → f.id ∈ m.ids) →
        Operator.Form limits (.group c) j (.group (.holding c m))

/-- The JSON value is an object of members that name stored fields. The map has the numbers of
those that are not null, and under each of them a value that the member is a form of. -/
inductive TableCodec.Form (limits : Limits) : TableCodec → Json → IdMap Value → Prop
  | object {c : TableCodec} {members : List (String × Json)} {m : IdMap Value} : IdMap.Sorted m →
      (∀ member ∈ members, ∃ f ∈ c.table.storedFields, f.name = member.1) →
      (∀ i, i ∈ m.ids ↔ ∃ f ∈ c.table.storedFields, f.id = i ∧
        ∃ x, (f.name, x) ∈ members ∧ x.isNull = false) →
      (∀ f ∈ c.table.storedFields, ∀ x op v, (f.name, x) ∈ members → x.isNull = false →
        c.operator? f.id = some op → m.find? f.id = some v → Operator.Form limits op x v) →
          TableCodec.Form limits c (.object members) m

end

/-- The member names a stored field, and is null or a form of some value of the field's type. -/
def TableCodec.Takes (c : TableCodec) (limits : Limits) (member : String × Json) : Prop :=
  ∃ f ∈ c.table.storedFields, f.name = member.1 ∧ (member.2.isNull = false →
    ∃ op v, c.operator? f.id = some op ∧ op.type.detach = f.type.detach ∧
      op.Form limits member.2 v)

/-! ## Codecs that read forms -/

theorem Field.isDerived_of_required {f : Field} {table : String} {u : Unit}
    (checked : f.check table = .ok u) (required : f.isRequired = true) : f.isDerived = false := by
  by_contra derived
  rw [Bool.not_eq_false] at derived
  unfold check at checked
  simp only [bind_eq_ok_iff] at checked
  obtain ⟨_, -, _, -, _, computed, -⟩ := checked
  rw [checkDerived, if_pos derived] at computed
  simp only [bind_eq_ok_iff, refuseIf_eq_ok_iff] at computed
  obtain ⟨_, -, _, optional, -⟩ := computed
  simp only [isRequired, isOptional, Constraints.isRequired, Constraints.isOptional,
    decide_eq_true_eq] at required optional
  rw [required] at optional
  exact optional rfl

/-- The codec serves its table, which requires stored fields only, by operators under the limits. -/
structure TableCodec.Interprets (limits : Limits) (c : TableCodec) : Prop extends c.Serves where
  required : ∀ f ∈ c.table.fields, f.isRequired = true → f ∈ c.table.storedFields
  configured : ∀ s ∈ c.slots, s.operator.Configured limits

theorem TableCodec.Compiled.interprets {limits : Limits} {T : Table → Prop} {c : TableCodec}
    (h : c.Compiled limits T) (valid : c.table.Valid) : c.Interprets limits where
  toServes := h.serves valid
  required _ hf required := Table.mem_storedFields.mpr
    ⟨hf, Field.isDerived_of_required (Table.checkField valid.checked hf) required⟩
  configured := h.configured

namespace TableCodec

variable {c : TableCodec} {f g : Field} {limits : Limits}

/-- Fields are found by their names. -/
theorem Serves.fieldByName?_eq (serves : c.Serves) (hf : f ∈ c.table.fields) :
    c.table.fieldByName? f.name = some f :=
  Table.resolve?_eq_self_iff.mp (serves.resolves f hf)

theorem Serves.eq_of_name (serves : c.Serves) (hf : f ∈ c.table.storedFields)
    (hg : g ∈ c.table.storedFields) (same : f.name = g.name) : f = g := by
  have found := serves.fieldByName?_eq (List.mem_of_mem_filter hf)
  rw [same, serves.fieldByName?_eq (List.mem_of_mem_filter hg), Option.some.injEq] at found
  exact found.symm

/-- A stored field has an operator of its type, which is that of its slot. -/
theorem Interprets.exists_operator (interprets : c.Interprets limits)
    (hf : f ∈ c.table.storedFields) :
    ∃ s ∈ c.slots, c.operator? f.id = some s.operator ∧
      s.operator.type.detach = f.type.detach ∧ s.operator.Configured limits := by
  obtain ⟨s, slot, -, type⟩ := interprets.slot f hf
  have mem := mem_of_slot? slot
  exact ⟨s, mem, by rw [operator?, slot]; rfl, type, interprets.configured s mem⟩

end TableCodec

/-! ## Scalars -/

namespace Operator

variable {op : Operator} {limits : Limits} {name : String} {j : Json} {v : Value} {p : Primitive}

theorem ofJson_of_primitive (type : op.type = .primitive p) :
    op.ofJson name j = .scalar <$> (Scalar.ofJson p j).mapError (.json name) := by
  cases op with
  | fixed | string | binary =>
      cases type
      rw [ofJson]
  | group | list => cases type

theorem form_scalar_iff (configured : op.Configured limits) (type : op.type = .primitive p)
    (wellFormed : j.WellFormed) :
    op.Form limits j v ↔ op.ofJson name j = .ok v ∧ op.accepts v = true := by
  rw [ofJson_of_primitive type, map_eq_ok_iff]
  simp only [mapError_eq_ok_iff]
  constructor
  · intro form
    cases form with
    | scalar kind form =>
        rw [type, FieldType.primitive.injEq] at kind
        subst kind
        obtain ⟨read, fits⟩ := form.read
        exact ⟨⟨_, read, rfl⟩, (accepts_scalar_iff configured type).mpr fits⟩
    | list | group => cases type
  · rintro ⟨⟨s, read, rfl⟩, accepted⟩
    obtain ⟨rfl, form⟩ := (Scalar.form_iff wellFormed).mp
      ⟨read, (accepts_scalar_iff configured type).mp accepted⟩
    exact .scalar type form

end Operator

/-! ## Objects -/

/-- The operator reads just the forms of the JSON value, for every field of its type. -/
def Operator.ReadsForms (limits : Limits) (op : Operator) (j : Json) : Prop :=
  ∀ name v, op.Form limits j v ↔ op.ofJson name j = .ok v ∧ op.accepts v = true

namespace TableCodec

variable {c : TableCodec} {limits : Limits} {members : List (String × Json)} {m : IdMap Value}
  {member : String × Json}

/-- What a member stages, by forms. -/
theorem Interprets.stages_iff {o : Option (Int16 × Value)} (interprets : c.Interprets limits)
    (reads : ∀ s ∈ c.slots, s.operator.ReadsForms limits member.2) :
    c.Stages member o ↔ ∃ f ∈ c.table.storedFields, f.name = member.1 ∧
      (member.2.isNull = true ∧ o = none ∨ member.2.isNull = false ∧
        ∃ op v, c.operator? f.id = some op ∧ op.Form limits member.2 v ∧ o = some (f.id, v)) := by
  have known : ∀ {f : Field} {op : Operator}, f ∈ c.table.storedFields →
      c.operator? f.id = some op → op.ReadsForms limits member.2 := by
    intro f op hf known
    obtain ⟨s, hs, own, -⟩ := interprets.exists_operator hf
    rw [known, Option.some.injEq] at own
    exact own ▸ reads s hs
  constructor
  · intro stages
    cases stages with
    | null found stored null =>
        have mem := Table.mem_storedFields.mpr ⟨List.mem_of_find?_eq_some found, stored⟩
        exact ⟨_, mem, rfl, .inl ⟨null, rfl⟩⟩
    | value found stored null own read accepted =>
        have mem := Table.mem_storedFields.mpr ⟨List.mem_of_find?_eq_some found, stored⟩
        exact ⟨_, mem, rfl, .inr ⟨null, _, _, own, (known mem own _ _).mpr ⟨read, accepted⟩, rfl⟩⟩
  · obtain ⟨name, x⟩ := member
    rintro ⟨f, mem, rfl, ⟨null, rfl⟩ | ⟨null, op, v, own, form, rfl⟩⟩
    all_goals
      have found := interprets.fieldByName?_eq (List.mem_of_mem_filter mem)
      have stored := isDerived_of_mem_storedFields mem
    · exact .null found stored null
    · obtain ⟨read, accepted⟩ := (known mem own f.name v).mp form
      exact .value found stored null own read accepted

/-- A member stages something when it is taken. -/
theorem Interprets.takes_iff (interprets : c.Interprets limits)
    (reads : ∀ s ∈ c.slots, s.operator.ReadsForms limits member.2) :
    c.Takes limits member ↔ ∃ o, c.Stages member o := by
  simp only [interprets.stages_iff reads]
  constructor
  · rintro ⟨f, mem, name, form⟩
    by_cases null : member.2.isNull = true
    · exact ⟨none, f, mem, name, .inl ⟨null, rfl⟩⟩
    · rw [Bool.not_eq_true] at null
      obtain ⟨op, v, own, -, here⟩ := form null
      exact ⟨_, f, mem, name, .inr ⟨null, op, v, own, here, rfl⟩⟩
  · rintro ⟨o, f, mem, name, ⟨null, -⟩ | ⟨-, op, v, own, here, -⟩⟩
    · exact ⟨f, mem, name, fun value => absurd null (by simp [value])⟩
    · obtain ⟨s, -, own', type, -⟩ := interprets.exists_operator mem
      rw [own, Option.some.injEq] at own'
      exact ⟨f, mem, name, fun _ => ⟨op, v, own, own' ▸ type, here⟩⟩

section
variable (interprets : c.Interprets limits)
  (reads : ∀ member ∈ members, ∀ s ∈ c.slots, s.operator.ReadsForms limits member.2)
include interprets reads

/-- What is staged by members with keys of their own is what they are forms of. -/
theorem Interprets.form_of_stages (distinct : (members.map Prod.fst).Nodup)
    {os : List (Option (Int16 × Value))} (stages : List.Forall₂ c.Stages members os) :
    c.Form limits (.object members) (IdMap.ofList (os.filterMap id)) := by
  refine .object IdMap.sorted_nil.insertAll ?_ ?_ ?_
  · intro member mem
    obtain ⟨o, -, here⟩ := exists_right_of_mem stages mem
    obtain ⟨f, hf, name, -⟩ := (interprets.stages_iff (reads member mem)).mp here
    exact ⟨f, hf, name⟩
  · intro i
    constructor
    · intro present
      obtain ⟨v, found⟩ := IdMap.exists_of_mem_ids present
      obtain ⟨member, mem, here⟩ := Record.exists_stages_of_find? stages found
      obtain ⟨f, hf, name, ⟨-, ⟨⟩⟩ | ⟨null, _, _, -, -, same⟩⟩ :=
        (interprets.stages_iff (reads member mem)).mp here
      cases same
      exact ⟨f, hf, rfl, member.2, name ▸ mem, null⟩
    · rintro ⟨f, hf, rfl, x, mem, null⟩
      obtain ⟨o, staged, here⟩ := exists_right_of_mem stages mem
      obtain ⟨g, hg, name, ⟨null', -⟩ | ⟨-, _, v, -, -, rfl⟩⟩ :=
        (interprets.stages_iff (reads _ mem)).mp here
      · rw [null] at null'
        cases null'
      · obtain rfl := interprets.eq_of_name hg hf name
        have mem : (g.id, v) ∈ os.filterMap id := List.mem_filterMap.mpr ⟨_, staged, rfl⟩
        exact IdMap.mem_ids_insertAll.mpr (.inr (List.mem_map_of_mem mem))
  · intro f hf x op v mem null own found
    obtain ⟨member, mem', here⟩ := Record.exists_stages_of_find? stages found
    obtain ⟨g, hg, name, ⟨-, ⟨⟩⟩ | ⟨-, op', _, own', form, same⟩⟩ :=
      (interprets.stages_iff (reads member mem')).mp here
    injection same with same
    injection same with number value
    subst value
    obtain rfl := interprets.eq_of_id hg hf number.symm
    -- No other member has the key.
    obtain rfl : member = (g.name, x) := List.inj_on_of_nodup_map distinct mem' mem name.symm
    rw [own, Option.some.injEq] at own'
    exact own' ▸ form

/-- The members of a form all stage something. -/
theorem Interprets.exists_stages (form : c.Form limits (.object members) m) :
    ∃ os, List.Forall₂ c.Stages members os := by
  cases form with
  | object _ named ids forms =>
      refine exists_forall₂ fun member mem => ?_
      obtain ⟨f, hf, name⟩ := named member mem
      cases null : member.2.isNull with
      | true =>
          exact ⟨none, (interprets.stages_iff (reads member mem)).mpr
            ⟨f, hf, name, .inl ⟨null, rfl⟩⟩⟩
      | false =>
          have here : (f.name, member.2) ∈ members := name ▸ mem
          obtain ⟨s, -, own, -⟩ := interprets.exists_operator hf
          obtain ⟨v, found⟩ :=
            IdMap.exists_of_mem_ids ((ids f.id).mpr ⟨f, hf, rfl, member.2, here, null⟩)
          have form := forms f hf _ _ v here null own found
          exact ⟨_, (interprets.stages_iff (reads member mem)).mpr
            ⟨f, hf, name, .inr ⟨null, _, v, own, form, rfl⟩⟩⟩

/-- An object is a form of one map at most. -/
theorem Interprets.form_unique {m' : IdMap Value} (form : c.Form limits (.object members) m)
    (form' : c.Form limits (.object members) m') : m = m' := by
  cases form with
  | object sorted _ ids forms =>
      cases form' with
      | object sorted' _ ids' forms' =>
          refine sorted.eq_of_find? sorted' (funext fun i => ?_)
          by_cases present : i ∈ m.ids
          · obtain ⟨f, hf, rfl, x, mem, null⟩ := (ids i).mp present
            obtain ⟨s, hs, own, -⟩ := interprets.exists_operator hf
            obtain ⟨v, found⟩ := IdMap.exists_of_mem_ids present
            obtain ⟨v', found'⟩ :=
              IdMap.exists_of_mem_ids ((ids' f.id).mpr ⟨f, hf, rfl, x, mem, null⟩)
            have read := (reads _ mem s hs f.name v).mp (forms f hf x _ v mem null own found)
            have read' := (reads _ mem s hs f.name v').mp (forms' f hf x _ v' mem null own found')
            rw [found, found', ← Except.ok.inj (read.1.symm.trans read'.1)]
          · have absent : i ∉ m'.ids := by rwa [ids', ← ids]
            rw [IdMap.find?_eq_none_iff.mpr present, IdMap.find?_eq_none_iff.mpr absent]

/-- **An object is read as a record that holds what the object is a form of.** -/
theorem Interprets.ofJson_object_iff (distinct : (members.map Prod.fst).Nodup) {r : Record} :
    Record.ofJson c (.object members) = .ok r ↔
      ∃ m, c.Form limits (.object members) m ∧ r = .holding c m := by
  rw [Record.ofJson_object_eq_ok_iff]
  constructor
  · rintro ⟨os, stages, rfl⟩
    exact ⟨_, interprets.form_of_stages reads distinct stages, rfl⟩
  · rintro ⟨m, form, rfl⟩
    obtain ⟨os, stages⟩ := interprets.exists_stages reads form
    have same := interprets.form_unique reads form
      (interprets.form_of_stages reads distinct stages)
    exact ⟨os, stages, by rw [same]⟩

end

/-- What is not an object is read as no record and is no form of one. -/
theorem Interprets.ofJson_iff {j : Json} {r : Record} (interprets : c.Interprets limits)
    (wellFormed : j.WellFormed) (reads : ∀ members, j = .object members → ∀ member ∈ members,
      ∀ s ∈ c.slots, s.operator.ReadsForms limits member.2) :
    Record.ofJson c j = .ok r ↔ ∃ m, c.Form limits j m ∧ r = .holding c m := by
  cases j with
  | object members =>
      cases wellFormed with
      | object distinct _ => exact interprets.ofJson_object_iff (reads members rfl) distinct
  | null | bool | integer | number | string | array =>
      constructor
      · intro read
        obtain ⟨members, _, object, -⟩ := Record.exists_of_ofJson read
        cases object
      · rintro ⟨m, form, -⟩
        cases form

end TableCodec

/-! ## All operators -/

namespace Operator

variable {limits : Limits} {c : TableCodec} {j : Json}

theorem readsForms_list {element : Operator} {maxElements : Nat} {items : List Json}
    (configured : (list element maxElements).Configured limits)
    (reads : ∀ x ∈ items, element.ReadsForms limits x) :
    (list element maxElements).ReadsForms limits (.array items) := by
  obtain ⟨rfl, -⟩ := configured
  intro name v
  constructor
  · intro form
    cases form with
    | scalar type => cases type
    | @list _ _ _ vs short length each =>
        have pairs : List.Forall₂ (fun x w => element.ofJson name x = .ok w ∧
            element.accepts w = true) items vs := by
          refine List.forall₂_iff_get.mpr ⟨length.symm, fun i hx hw => ?_⟩
          exact (reads _ (List.getElem_mem hx) name _).mp
            (each i _ _ (List.getElem?_eq_getElem hx) (List.getElem?_eq_getElem hw))
        refine ⟨ofJson_list_eq_ok_iff.mpr ⟨items, vs, rfl, pairs.imp fun _ _ h => h.1, rfl⟩, ?_⟩
        rw [accepts, Bool.and_eq_true, decide_eq_true_eq, List.all_eq_true, length]
        refine ⟨short, fun w hw => ?_⟩
        obtain ⟨x, -, -, accepted⟩ := exists_left_of_mem pairs hw
        exact accepted
  · rintro ⟨read, accepted⟩
    obtain ⟨_, vs, ⟨⟩, each, rfl⟩ := ofJson_list_eq_ok_iff.mp read
    rw [accepts, Bool.and_eq_true, decide_eq_true_eq, List.all_eq_true] at accepted
    refine .list (each.length_eq ▸ accepted.1) each.length_eq.symm fun i x w hx hw => ?_
    obtain ⟨inside, rfl⟩ := List.getElem?_eq_some_iff.mp hx
    obtain ⟨inside', rfl⟩ := List.getElem?_eq_some_iff.mp hw
    exact (reads _ (List.getElem_mem inside) name _).mpr
      ⟨each.get inside inside', accepted.2 _ (List.getElem_mem inside')⟩

theorem readsForms_group (interprets : c.Interprets limits)
    (reads : ∀ r, Record.ofJson c j = .ok r ↔ ∃ m, c.Form limits j m ∧ r = .holding c m) :
    (group c).ReadsForms limits j := by
  intro name v
  rw [ofJson_group_eq_ok_iff]
  simp only [reads]
  -- Complete is what has all required fields.
  have complete : ∀ {m : IdMap Value}, IdMap.Sorted m →
      ((group c).accepts (.group (.holding c m)) = true ↔
        ∀ f ∈ c.table.fields, f.isRequired = true → f.id ∈ m.ids) := by
    intro m sorted
    have name : (Record.holding c m).codec.table.name = c.table.name := rfl
    rw [accepts, decide_eq_true name, Bool.true_and,
      Record.isComplete_holding interprets.toServes sorted]
    simp only [IdMap.isSome_find?_iff]
    constructor
    · intro all f hf required
      exact all f (interprets.required f hf required) required
    · intro all f hf required
      exact all f (List.mem_of_mem_filter hf) required
  constructor
  · intro form
    cases form with
    | scalar type => cases type
    | @group _ _ m object required =>
        cases object with
        | object sorted named ids forms =>
            exact ⟨⟨_, ⟨m, .object sorted named ids forms, rfl⟩, rfl⟩,
              (complete sorted).mpr required⟩
  · rintro ⟨⟨_, ⟨m, form, rfl⟩, rfl⟩, accepted⟩
    cases form with
    | object sorted named ids forms =>
        exact .group (.object sorted named ids forms) ((complete sorted).mp accepted)

/-- **Reading takes just the forms**, at every depth. -/
theorem readsForms {op : Operator} {j : Json}
    (interprets : op.Everywhere (TableCodec.Interprets limits)) (configured : op.Configured limits)
    (wellFormed : j.WellFormed) : op.ReadsForms limits j := by
  match op with
  | .fixed kind limit => exact fun _ _ => form_scalar_iff configured rfl wellFormed
  | .string | .binary => exact fun _ _ => form_scalar_iff configured rfl wellFormed
  | .list element maxElements =>
      match wellFormed with
      | .array inside =>
          refine readsForms_list configured fun x hx => ?_
          have smaller := Json.sizeOf_item_lt hx
          exact readsForms interprets.element configured.2 (inside x hx)
      | .null | .bool _ | .integer _ | .number _ | .string _ | .object .. =>
          intro name v
          rw [ofJson_list_eq_ok_iff]
          constructor
          · intro form
            cases form with
            | scalar type => cases type
          · rintro ⟨⟨_, _, ⟨⟩, -⟩, -⟩
  | .group c =>
      have here : c.Everywhere (TableCodec.Interprets limits) := interprets
      refine readsForms_group here.here fun r => here.here.ofJson_iff wellFormed ?_
      rintro members rfl member mem s hs
      have smaller := Json.sizeOf_member_lt mem
      cases wellFormed with
      | object _ inside =>
          exact readsForms (here.slot hs) (here.here.configured s hs) (inside member mem)
termination_by sizeOf j

end Operator

/-! ## Records -/

namespace Record

variable {limits : Limits} {t : Table} {c : TableCodec} {j : Json}

/-- **What is read as a record.** The codec is one that a registry gives, and the tables inside are
valid. Objects are read whose members each name a stored field and are null or a form of its type,
and nothing else is. The record is not backed by a buffer, and it has a value for each member that
is not null, which that member is a form of, and no other values. -/
theorem ofJson_exact (given : Registry.GivesCodec limits (fun _ => True) t c)
    (valid : c.Everywhere fun d => d.table.Valid) (wellFormed : j.WellFormed) :
    ((∃ r, ofJson c j = .ok r) ↔
      ∃ members, j = .object members ∧ ∀ member ∈ members, c.Takes limits member) ∧
    ∀ r, ofJson c j = .ok r → r.buffer = none ∧ ∃ m, r.values = .ok m ∧ c.Form limits j m := by
  have compiled := (given.compiled nestedIn_true).inside
  have interprets : c.Everywhere (TableCodec.Interprets limits) :=
    (compiled.and valid).imp fun _ both => both.1.interprets both.2
  have reads : ∀ members, j = .object members → ∀ member ∈ members, ∀ s ∈ c.slots,
      s.operator.ReadsForms limits member.2 := by
    rintro members rfl member mem s hs
    cases wellFormed with
    | object _ inside =>
        exact Operator.readsForms (interprets.slot hs) (interprets.here.configured s hs)
          (inside member mem)
  constructor
  · constructor
    · rintro ⟨r, read⟩
      obtain ⟨members, os, rfl, stages, -⟩ := exists_of_ofJson read
      refine ⟨members, rfl, fun member mem => ?_⟩
      obtain ⟨o, -, here⟩ := exists_right_of_mem stages mem
      exact (interprets.here.takes_iff (reads members rfl member mem)).mpr ⟨o, here⟩
    · rintro ⟨members, rfl, takes⟩
      obtain ⟨os, stages⟩ := exists_forall₂ fun member mem =>
        (interprets.here.takes_iff (reads members rfl member mem)).mp (takes member mem)
      exact ⟨_, ofJson_object_eq_ok_iff.mpr ⟨os, stages, rfl⟩⟩
  · intro r read
    obtain ⟨m, form, rfl⟩ := (interprets.here.ofJson_iff wellFormed reads).mp read
    refine ⟨rfl, m, ?_, form⟩
    cases form with
    | object sorted => exact values_holding sorted

end Record

namespace Household

theorem valid_personUnder (limits : Limits) :
    (personUnder limits).Everywhere fun d => d.table.Valid := by
  have made : nextSchema.Made :=
    Schema.made_of_build Interner.Reachable.empty.plain built_nextSchema
  have valid : ∀ t ∈ nextSchema.tables, t.Valid := fun t ht => made.valid rfl ht
  have address : (addressUnder limits).Everywhere fun d => d.table.Valid := by
    refine .group (valid nextAddress (List.mem_cons_self ..)) ?_
    refine List.forall_mem_cons.mpr ⟨.fixed .., List.forall_mem_cons.mpr ⟨.string, ?_⟩⟩
    simp
  refine .group (valid nextPerson (List.mem_cons_of_mem _ (List.mem_cons_self ..))) ?_
  refine List.forall_mem_cons.mpr ⟨address, List.forall_mem_cons.mpr ⟨.fixed .., ?_⟩⟩
  refine List.forall_mem_cons.mpr ⟨.list .string, List.forall_mem_cons.mpr ⟨address, ?_⟩⟩
  simp

/-- A guest of some age with one nickname, who does not tell where they work. -/
def guestJson : Json :=
  .object [("age", .integer 7), ("home", .object [("zip", .integer 75011)]),
    ("nicknames", .array [.string "Jo"]), ("work", .null)]

theorem wellFormed_guestJson : guestJson.WellFormed := by
  refine .object (by decide) ?_
  simp only [List.forall_mem_cons, List.not_mem_nil, false_implies, implies_true, and_true]
  refine ⟨.integer rfl, .object (by decide) ?_, .array ?_, .null⟩
  · simpa using Json.WellFormed.integer rfl
  · simpa using Json.WellFormed.string "Jo"

/-- The home is a form of an address with its required code. -/
theorem form_home (limits : Limits) : (Operator.group (addressUnder limits)).Form limits
    (.object [("zip", .integer 75011)]) (.group (lodging limits)) := by
  have stored : (addressUnder limits).table.storedFields = [zip, city] := rfl
  refine .group (.object (by decide +kernel) ?_ ?_ ?_) ?_
  · simp [stored, zip]
  · intro i
    show i ∈ [1] ↔ _
    rw [List.mem_singleton, eq_comm]
    simp [stored, zip, city, Json.isNull]
  · rw [stored]
    intro f hf x op v mem _ own found
    simp only [List.mem_cons, List.not_mem_nil, or_false] at hf mem
    rcases hf with rfl | rfl
    · cases mem
      cases own
      cases found
      exact .scalar rfl (.int32 75011)
    · have other : city.name ≠ "zip" := by decide
      exact absurd (congrArg Prod.fst mem) other
  · intro f hf required
    change f ∈ [zip, city] at hf
    simp only [List.mem_cons, List.not_mem_nil, or_false] at hf
    rcases hf with rfl | rfl
    · exact List.mem_cons_self ..
    · cases required

theorem takes_guestJson (limits : Limits) (room : 1 ≤ limits.maxListElements) :
    ∃ members, guestJson = .object members ∧
      ∀ member ∈ members, (personUnder limits).Takes limits member := by
  have stored : (personUnder limits).table.storedFields = [nextHome, age, nicknames, work] := rfl
  have short : "Jo".utf8ByteSize ≤ 65535 := by decide +kernel
  refine ⟨_, rfl, ?_⟩
  simp only [List.forall_mem_cons, List.not_mem_nil, false_implies, implies_true, and_true]
  refine ⟨⟨age, by simp [stored], rfl, ?_⟩, ⟨nextHome, by simp [stored], rfl, ?_⟩,
    ⟨nicknames, by simp [stored], rfl, ?_⟩, ⟨work, by simp [stored], rfl, ?_⟩⟩
  · exact fun _ => ⟨_, _, rfl, rfl, .scalar rfl (.int32 7)⟩
  · exact fun _ => ⟨_, _, rfl, rfl, form_home limits⟩
  · refine fun _ => ⟨.list .string limits.maxListElements, .list [.scalar (.string "Jo")], rfl, rfl,
      .list room rfl ?_⟩
    intro i x v hx hv
    cases i with
    | zero =>
        cases hx
        cases hv
        exact .scalar rfl (.string short)
    | succ i => cases hx
  · intro value
    cases value

theorem givesCodec_true_personUnder (limits : Limits) :
    Registry.GivesCodec limits (fun _ => True) nextPerson (personUnder limits) :=
  ⟨trivial, { limits }, .fresh, by cbv⟩

/-- The guest is read as a record that holds what is told. -/
theorem ofJson_guest : ∃ r m, Record.ofJson (personUnder .standard) guestJson = .ok r ∧
    r.buffer = none ∧ r.values = .ok m ∧
      (personUnder .standard).Form .standard guestJson m := by
  obtain ⟨accepted, holds⟩ := Record.ofJson_exact (givesCodec_true_personUnder .standard)
    (valid_personUnder .standard) wellFormed_guestJson
  obtain ⟨r, read⟩ := accepted.mpr (takes_guestJson .standard (by decide))
  obtain ⟨unbacked, m, values, form⟩ := holds r read
  exact ⟨r, m, read, unbacked, values, form⟩

end Household

end RecordFormat
