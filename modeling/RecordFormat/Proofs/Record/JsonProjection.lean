import Mathlib
import RecordFormat.Proofs.Evolution.Forward
import RecordFormat.Proofs.Record.JsonReading
import RecordFormat.Proofs.Schema.Reflection

/-!
# Conversion to JSON is a projection

Written as JSON, a record shows what it holds and the defaults of what it does not. Read back it
holds all of that, and is written as the same JSON again, also after its octets were written and
read. That takes values that their operators accept at every depth, and defaults that they accept
too, which the rules of schemas see to under the standard limits (`Record.toJson_stable`).
-/

namespace RecordFormat

open Outcome

/-- The operator accepts the value and everything inside: items, and what the records of groups
hold, which are of the group's own codec and have no computation bound. -/
inductive Operator.Proper : Operator → Value → Prop
  | scalar {op : Operator} {s : Scalar} : op.accepts (.scalar s) = true → Proper op (.scalar s)
  | list {element : Operator} {maxElements : Nat} {items : List Value} :
      (Operator.list element maxElements).accepts (.list items) = true →
        (∀ v ∈ items, Proper element v) → Proper (.list element maxElements) (.list items)
  | group {r : Record} : (Operator.group r.codec).accepts (.group r) = true → r.derived = [] →
      (∀ s ∈ r.codec.slots, ∀ v, r.storedValue s.field = .ok (some v) → Proper s.operator v) →
        Proper (.group r.codec) (.group r)

/-- Every value that the record holds is accepted at every depth, and no computation is bound. -/
structure Record.Proper (r : Record) : Prop where
  unbound : r.derived = []
  values : ∀ s ∈ r.codec.slots, ∀ v, r.storedValue s.field = .ok (some v) → s.operator.Proper v

/-- The operator reads the JSON as an accepted value that is written as that JSON. -/
def Operator.Rereads (op : Operator) (name : String) (j : Json) : Prop :=
  ∃ w, op.ofJson name j = .ok w ∧ op.accepts w = true ∧ w.toJson = .ok j

/-! ## Defaults -/

/-- The codec serves its table, whose fields have names of their own, and accepts what stands for
an absent field. -/
structure TableCodec.Converts (c : TableCodec) : Prop extends c.Serves where
  names : (c.table.fields.map Field.name).Nodup
  accepted : ∀ s ∈ c.slots, ∀ v, s.field.effectiveDefault? = some v → s.operator.accepts v = true

namespace Operator

theorem type_eq_of_detach {op : Operator} {p : Primitive}
    (same : op.type.detach = FieldType.detach (.primitive p)) : op.type = .primitive p := by
  cases op with
  | fixed | string | binary => exact same
  | group | list => cases same

/-- The operator accepts just the scalars that a field of its type may hold. -/
theorem accepts_scalar_iff {limits : Limits} {op : Operator} {p : Primitive} {s : Scalar}
    (configured : op.Configured limits) (type : op.type = .primitive p) :
    op.accepts (.scalar s) = true ↔ s.fits p limits.floatMagnitude = true := by
  cases op with
  | fixed kind limit =>
      cases type
      cases configured
      exact .rfl
  -- The limit only matters for floating point numbers.
  | string | binary =>
      cases type
      cases s <;> simp [accepts, Scalar.fits, Scalar.kind]
  | group | list => cases type

end Operator

/-- **Under the standard limits operators accept the defaults of valid tables.** -/
theorem TableCodec.Compiled.converts {T : Table → Prop} {c : TableCodec}
    (h : c.Compiled Limits.standard T) (valid : c.table.Valid) : c.Converts where
  toServes := h.serves valid
  names := valid.names
  accepted s hs v default := by
    have mem := (List.mem_filter.mp (h.field_mem hs)).1
    have type : s.operator.type.detach = s.field.type.detach :=
      congrArg OperatorKey.type (h.types s hs)
    unfold Field.effectiveDefault? at default
    split at default
    · next given =>
      cases default
      obtain ⟨p, primitive, fits⟩ :=
        Field.fits_of_check (Table.checkField valid.checked mem) given
      rw [primitive] at type
      exact (Operator.accepts_scalar_iff (h.configured s hs)
        (Operator.type_eq_of_detach type)).mpr fits
    · next binary =>
      cases default
      rw [binary] at type
      exact (Operator.accepts_scalar_iff (h.configured s hs)
        (Operator.type_eq_of_detach type)).mpr rfl
    · next list =>
      cases default
      obtain ⟨element, maxElements, op⟩ :=
        TableCodec.exists_list_of_type type (by rw [list]; rfl)
      rw [op, Operator.accepts]
      simp
    · cases default

theorem Operator.proper_of_default {op : Operator} {f : Field} {v : Value}
    (default : f.effectiveDefault? = some v) (accepted : op.accepts v = true) : op.Proper v := by
  have shape : (∃ s, v = .scalar s) ∨ v = .list [] := by
    unfold Field.effectiveDefault? at default
    split at default <;> cases default
    · exact .inl ⟨_, rfl⟩
    · exact .inl ⟨_, rfl⟩
    · exact .inr rfl
  rcases shape with ⟨s, rfl⟩ | rfl
  · exact .scalar accepted
  · cases op with
    | list element maxElements => exact .list accepted (by simp)
    | fixed | string | binary | group => simp [accepts] at accepted

/-! ## What a record shows -/

namespace Record

variable {r : Record} {c : TableCodec} {f : Field} {s : Slot} {v : Value} {m : IdMap Value}
  {o : Option (String × Json)}

/-- **What a record answers is accepted at every depth**, be it held or a default. -/
theorem Proper.get (proper : r.Proper) (converts : r.codec.Converts) (hs : s ∈ r.codec.slots)
    (got : r.get s.field = .ok v) : s.operator.Proper v := by
  rw [get_eq_storedValue converts.toServes (converts.stored s hs)] at got
  obtain ⟨o, stored, got⟩ := bind_eq_ok_iff.mp got
  cases o with
  | some w =>
      cases got
      exact proper.values s hs v stored
  | none =>
      rw [Option.elim_none, Field.absent] at got
      split at got
      · cases got
      · split at got
        · next default =>
          cases got
          exact Operator.proper_of_default default (converts.accepted s hs v default)
        · cases got

/-- The map has a value for each stored field that the record shows, and for no other, which is
written as what the record shows. -/
def ShownBy (r : Record) (m : IdMap Value) : Prop :=
  ∀ f ∈ r.table.storedFields, ∀ o, r.jsonMember f = .ok o →
    Option.Rel (fun member w => w.toJson = .ok member.2) o (m.find? f.id)

/-- A record of these values shows the same. -/
theorem ShownBy.jsonMember_eq (shown : r.ShownBy m) (serves : r.codec.Serves)
    (unbound : r.derived = []) (sorted : IdMap.Sorted m) (hf : f ∈ r.table.fields)
    (member : r.jsonMember f = .ok o) : (holding r.codec m).jsonMember f = r.jsonMember f := by
  by_cases derived : f.isDerived = true
  · rw [jsonMember, jsonMember, get_of_derived serves unbound hf derived,
      get_of_derived (r := holding r.codec m) serves rfl hf derived]
  · have stored := Table.mem_storedFields.mpr ⟨hf, Bool.not_eq_true _ ▸ derived⟩
    have got := get_holding serves sorted stored
    have rel := shown f stored o member
    rw [Field.valueIn] at got
    generalize m.find? f.id = x at got rel
    cases rel with
    | none =>
        rw [jsonMember, jsonMember, (absent_of_jsonMember serves stored member).1, got]
        rfl
    | @some member' w written =>
        obtain ⟨name, -⟩ := exists_get_of_jsonMember member
        rw [jsonMember_of_get got, written, member]
        exact congrArg (fun name => Except.ok (some (name, member'.2))) name.symm

/-- **A record of what is shown** is complete and shows the same. -/
theorem ShownBy.stable {j : Json} (shown : r.ShownBy m) (serves : r.codec.Serves)
    (unbound : r.derived = []) (sorted : IdMap.Sorted m) (written : r.toJson = .ok j) :
    (holding r.codec m).isComplete = true ∧ (holding r.codec m).toJson = .ok j := by
  obtain ⟨members, each, -⟩ := toJson_eq_ok_iff.mp written
  have member : ∀ f ∈ r.table.fields, ∃ o, r.jsonMember f = .ok o := by
    intro f hf
    obtain ⟨o, -, here⟩ := exists_right_of_mem each hf
    exact ⟨o, here⟩
  constructor
  · refine (isComplete_holding serves sorted).mpr fun f hf required => ?_
    obtain ⟨o, here⟩ := member f (List.mem_of_mem_filter hf)
    have rel := shown f hf o here
    cases o with
    | none =>
        rw [(absent_of_jsonMember serves hf here).2] at required
        cases required
    | some shown =>
        generalize m.find? f.id = x at rel
        cases rel
        rfl
  · rw [← written]
    refine toJson_congr rfl fun f hf => ?_
    obtain ⟨o, here⟩ := member f hf
    exact shown.jsonMember_eq serves unbound sorted hf here

/-- The operators of the record's slots read back what is written of values less deep than the
record. -/
def RereadsInside (r : Record) : Prop :=
  ∀ s ∈ r.codec.slots, ∀ v k, v.depth < r.depth → s.operator.Proper v → v.toJson = .ok k →
    s.operator.Rereads s.field.name k

/-- The member is one that the record shows, and stages a value that is written as the member's. -/
structure Restages (r : Record) (member : String × Json) (e : Int16 × Value) : Prop where
  stages : r.codec.Stages member (some e)
  written : e.2.toJson = .ok member.2
  shown : ∃ f ∈ r.table.storedFields, f.id = e.1 ∧ r.jsonMember f = .ok (some member)

/-- A member that the record shows is read. -/
theorem Proper.exists_restages {member : String × Json} (proper : r.Proper)
    (converts : r.codec.Converts) (hf : f ∈ r.table.fields)
    (shown : r.jsonMember f = .ok (some member)) (inside : r.RereadsInside) :
    ∃ e, r.Restages member e := by
  obtain ⟨name, v, got, written⟩ := exists_get_of_jsonMember shown
  have stored : f.isDerived = false := by
    by_contra derived
    rw [Bool.not_eq_false] at derived
    rw [get_of_derived converts.toServes proper.unbound hf derived] at got
    cases got
  have hf' : f ∈ r.table.storedFields := Table.mem_storedFields.mpr ⟨hf, stored⟩
  obtain ⟨s, slot, rfl, -⟩ := converts.slot f hf'
  have hs := TableCodec.mem_of_slot? slot
  obtain ⟨w, read, accepted, again⟩ :=
    inside s hs v member.2 (depth_of_get got) (proper.get converts hs got) written
  have found := Table.resolve?_eq_self_iff.mp (converts.resolves s.field hf)
  have known : r.codec.operator? s.field.id = some s.operator := congrArg _ slot
  obtain ⟨key, value⟩ := member
  obtain rfl : key = s.field.name := name
  exact ⟨(s.field.id, w),
    .value found stored (Value.isNull_of_toJson written) known read accepted, again,
    s.field, hf', rfl, shown⟩

/-- What is staged for all members that the record shows. -/
theorem shownBy_of_restages {members : List (String × Json)} {entries : List (Int16 × Value)}
    (converts : r.codec.Converts) (pairs : List.Forall₂ r.Restages members entries)
    (all : ∀ f ∈ r.table.storedFields, ∀ member, r.jsonMember f = .ok (some member) →
      member ∈ members) : r.ShownBy (IdMap.ofList entries) := by
  intro f hf o here
  cases value : IdMap.find? (IdMap.ofList entries) f.id with
  | some w =>
      rcases IdMap.mem_insertAll (IdMap.mem_of_find? value) with mem | mem
      · cases mem
      · obtain ⟨member, -, -, written, g, hg, number, shown⟩ := exists_left_of_mem pairs mem
        rw [converts.eq_of_id hg hf number, here, Except.ok.injEq] at shown
        exact shown ▸ .some written
  | none =>
      cases o with
      | none => exact .none
      | some member =>
          obtain ⟨e, mem, -, -, g, hg, number, shown⟩ :=
            exists_right_of_mem pairs (all f hf member here)
          have name := (exists_get_of_jsonMember here).1.symm.trans (exists_get_of_jsonMember shown).1
          obtain rfl := List.inj_on_of_nodup_map converts.names (List.mem_of_mem_filter hf)
            (List.mem_of_mem_filter hg) name
          have staged : f.id ∈ IdMap.ids entries := number ▸ List.mem_map_of_mem mem
          exact absurd (IdMap.mem_ids_insertAll.mpr (.inr staged))
            (IdMap.find?_eq_none_iff.mp value)

/-- **What a record shows is read**, if what is inside is read back. -/
theorem Proper.exists_shown {j : Json} (proper : r.Proper) (converts : r.codec.Converts)
    (written : r.toJson = .ok j) (inside : r.RereadsInside) :
    ∃ m, IdMap.Sorted m ∧ Record.ofJson r.codec j = .ok (holding r.codec m) ∧ r.ShownBy m := by
  obtain ⟨shown, each, rfl⟩ := toJson_eq_ok_iff.mp written
  obtain ⟨members, object, perm⟩ :=
    Json.exists_ofMembers ((sublist_names each).nodup converts.names)
  have mem_iff : ∀ member, member ∈ members ↔ some member ∈ shown := by
    intro member
    rw [perm.mem_iff, List.mem_filterMap]
    simp
  have stages : ∀ member ∈ members, ∃ e, r.Restages member e := by
    intro member mem
    obtain ⟨f, hf, here⟩ := exists_left_of_mem each ((mem_iff member).mp mem)
    exact proper.exists_restages converts hf here inside
  obtain ⟨entries, pairs⟩ := exists_forall₂ stages
  refine ⟨IdMap.ofList entries, IdMap.sorted_nil.insertAll, ?_,
    shownBy_of_restages converts pairs ?_⟩
  · have all : (entries.map some).filterMap id = entries := by
      rw [List.filterMap_map]
      exact List.filterMap_some
    rw [object, ofJson_object_eq_ok_iff]
    exact ⟨entries.map some,
      List.forall₂_map_right_iff.mpr (pairs.imp fun _ _ h => h.stages), by rw [all]⟩
  · intro f hf member here
    obtain ⟨o, mem, here'⟩ := exists_right_of_mem each (List.mem_of_mem_filter hf)
    rw [here, Except.ok.injEq] at here'
    exact (mem_iff member).mpr (here' ▸ mem)

end Record

/-! ## Reading back what was written -/

namespace Operator

theorem rereads_scalar {op : Operator} {j : Json} {s : Scalar}
    (accepted : op.accepts (.scalar s) = true)
    (written : (Value.scalar s).toJson = .ok j) (name : String) : op.Rereads name j := by
  refine ⟨.scalar s, ?_, accepted, written⟩
  rw [Value.toJson, mapError_eq_ok_iff] at written
  have literal : ∀ {p : Primitive} {limit : Binary64}, s.fits p limit = true →
      Scalar.ofJson p j = .ok s := by
    intro p limit fits
    obtain ⟨k, here, read⟩ := Scalar.exists_literal fits
    rw [written, Except.ok.injEq] at here
    rwa [here]
  cases op with
  | fixed kind limit => rw [ofJson, literal accepted]; rfl
  | string => rw [ofJson, literal accepted]; rfl
  | binary => rw [ofJson, literal accepted]; rfl
  | group | list => simp [accepts] at accepted

/-- **What is written of a value is read back**, and then written as the same JSON. -/
theorem rereads {op : Operator} {v : Value} {j : Json}
    (converts : op.Everywhere TableCodec.Converts) (proper : op.Proper v)
    (written : v.toJson = .ok j) (name : String) : op.Rereads name j := by
  match proper with
  | .scalar accepted => exact rereads_scalar accepted written name
  | @Proper.list element maxElements items accepted inside =>
      rw [Value.toJson_list, map_eq_ok_iff] at written
      obtain ⟨forms, each, rfl⟩ := written
      rw [mapM_eq_ok_iff] at each
      have forms_reread : ∀ k ∈ forms, element.Rereads name k := by
        intro k hk
        obtain ⟨x, hx, here⟩ := exists_left_of_mem each hk
        have depth : x.depth < (Value.list items).depth :=
          Nat.lt_succ_of_le (Value.depth_le_depthOfItems hx)
        exact rereads converts.element (inside x hx) here name
      obtain ⟨ws, pairs⟩ := exists_forall₂ forms_reread
      rw [accepts, Bool.and_eq_true, decide_eq_true_eq] at accepted
      refine ⟨.list ws, ofJson_list_eq_ok_iff.mpr ⟨forms, ws, rfl, ?_, rfl⟩, ?_, ?_⟩
      · exact pairs.imp fun _ _ h => h.1
      · rw [accepts, Bool.and_eq_true, decide_eq_true_eq, List.all_eq_true, ← pairs.length_eq,
          ← each.length_eq]
        refine ⟨accepted.1, fun w hw => ?_⟩
        obtain ⟨k, -, -, here, -⟩ := exists_left_of_mem pairs hw
        exact here
      · rw [Value.toJson_list, map_eq_ok_iff]
        exact ⟨forms, mapM_eq_ok_iff.mpr (pairs.flip.imp fun _ _ h => h.2.2), rfl⟩
  | @Proper.group r accepted unbound values =>
      rw [Value.toJson_group] at written
      have codec : TableCodec.Everywhere TableCodec.Converts r.codec := converts
      obtain ⟨m, sorted, read, shown⟩ := Record.Proper.exists_shown ⟨unbound, values⟩ codec.here
        written fun s hs v k depth proper written =>
          rereads (codec.slot hs) proper written s.field.name
      obtain ⟨complete, again⟩ := shown.stable codec.here.toServes unbound sorted written
      refine ⟨_, ofJson_group_eq_ok_iff.mpr ⟨_, read, rfl⟩, ?_, ?_⟩
      · rw [accepts, complete]
        simp [Record.holding, Record.empty]
      · rwa [Value.toJson_group]
termination_by v.depth

end Operator

namespace Record

variable {r : Record} {c : TableCodec} {m : IdMap Value} {M : PartialMap} {bytes : Bytes}

/-- A new record with staged values is followed by these. -/
theorem Tracks.holding {P : Record → Prop} (sorted : IdMap.Sorted m)
    (holds : (Operator.group c).Holds P (.group (holding c m))) :
    Tracks P c (Record.holding c m) m.find? := by
  obtain ⟨_, m', ⟨⟩, -, -, read, readable, fitting⟩ := holds.exists_record
  rw [values_holding sorted, Except.ok.injEq] at read
  subst read
  refine ⟨rfl, sorted, by rintro _ ⟨⟩, m, values_holding sorted, fitting, fun i => ?_⟩
  cases found : m.find? i with
  | none => exact .none
  | some v => exact .some (.refl (readable i v found))

/-- **Octets show what was written**: a plain record whose octets are read is written as the same
JSON. -/
theorem Tracks.exists_ofBytes (tracks : Tracks Plain c r M) (plain : r.Plain)
    (sound : c.Everywhere (TableCodec.Sound c.limits.maxRecordSize))
    (serves : c.Everywhere TableCodec.Serves) (written : r.toBytes = .ok bytes) :
    ∃ s, Record.ofBytes c bytes = .ok s ∧ s.toJson = r.toJson := by
  obtain ⟨b, rfl, reads⟩ := tracks.written lasting_plain sound written
  have owns := reads.owns b rfl
  have same := Value.toJson_eq_of_equal (tracks.equal reads) serves (tracks.holds plain)
    (reads.holds ⟨reads.settled, rfl⟩)
  rw [Value.toJson_group, Value.toJson_group] at same
  exact ⟨_, ofBytes_eq_ok_iff.mpr ⟨b, rfl, owns.small, owns.complete, rfl⟩, same.symm⟩

variable {mode : BuildMode} {d : Definition} {i : Interner} {s : Schema} {t : Table} {j : Json}

/-- **Conversion to JSON is a stable projection.** The record is of a codec that a registry gives
under the standard limits for a table of a schema that was built and checked; what it holds is
accepted at every depth, by operators whose codecs its nested records have, and no computation is
bound. What it is written as can be read as a complete record that is written as the same, and so
is any record that is read from the octets of that one. -/
theorem toJson_stable (interner : i.Reachable) (built : ((d.build mode).run i).1 = .ok s)
    (checked : s.check = .ok ())
    (given : Registry.GivesCodec Limits.standard (· ∈ s.tables) t c) (codec : r.codec = c)
    (proper : r.Proper) (written : r.toJson = .ok j) :
    ∃ r', Record.ofJson c j = .ok r' ∧ r'.isComplete = true ∧ r'.toJson = .ok j ∧
      ∀ bytes, r'.toBytes = .ok bytes →
        ∃ r'', Record.ofBytes c bytes = .ok r'' ∧ r''.toJson = .ok j := by
  have sound := Definition.build_sound interner.plain built
  have family : TableCodec.Family Limits.standard.maxRecordSize (s.Compiles Limits.standard) :=
    sound.family checked
  obtain ⟨here, -⟩ := sound.compiles_of_gives given
  subst codec
  have converts : r.codec.Everywhere TableCodec.Converts :=
    here.imp fun c compiled => compiled.converts (sound.valid checked compiled.asked)
  have serves : r.codec.Everywhere TableCodec.Serves :=
    converts.imp fun c converts => converts.toServes
  obtain ⟨m, sorted, read, shown⟩ := proper.exists_shown converts.here written
    fun s hs v k _ proper written => Operator.rereads (converts.slot hs) proper written s.field.name
  obtain ⟨complete, again⟩ := shown.stable serves.here proper.unbound sorted written
  refine ⟨_, read, complete, again, fun bytes written => ?_⟩
  have plain : ∀ c m, IdMap.Sorted m → (holding c m).Plain := fun c m sorted =>
    ⟨⟨sorted, by rintro _ ⟨⟩⟩, rfl⟩
  have holds := Operator.holds_of_ofJson plain (.group r.codec) "" j _
    (Operator.ofJson_group_eq_ok_iff.mpr ⟨_, read, rfl⟩)
  rw [← again]
  exact (Tracks.holding sorted holds).exists_ofBytes (plain _ m sorted)
    (family.everywhere_sound here) serves written

end Record

namespace Household

/-- The codecs of the evolved household under any limits. -/
def addressUnder (limits : Limits) : TableCodec :=
  ⟨nextAddress, limits, [⟨zip, .fixed .int32 limits.floatMagnitude⟩, ⟨city, .string⟩]⟩

def personUnder (limits : Limits) : TableCodec :=
  ⟨nextPerson, limits, [⟨nextHome, .group (addressUnder limits)⟩,
    ⟨age, .fixed .int32 limits.floatMagnitude⟩,
    ⟨nicknames, .list .string limits.maxListElements⟩, ⟨work, .group (addressUnder limits)⟩]⟩

theorem givesCodec_personUnder (limits : Limits) :
    Registry.GivesCodec limits (· ∈ nextSchema.tables) nextPerson (personUnder limits) :=
  ⟨List.mem_cons_of_mem _ (List.mem_cons_self ..), { limits }, .fresh, by cbv⟩

/-- An address without a city, and a person there without nicknames and work. -/
def lodging (limits : Limits) : Record :=
  .holding (addressUnder limits) [(1, .scalar (.int32 75011))]

def lodger (limits : Limits) : Record :=
  .holding (personUnder limits) [(1, .group (lodging limits)), (2, .scalar (.int32 7))]

/-- The city is shown by its default. -/
def lodgingJson : Json := .object [("city", .string "Paris"), ("zip", .integer 75011)]

def lodgerJson : Json :=
  .object [("age", .integer 7), ("home", lodgingJson), ("nicknames", .array [])]

theorem toJson_lodging (limits : Limits) : (lodging limits).toJson = .ok lodgingJson :=
  Record.toJson_eq_ok_iff.mpr ⟨[some ("zip", .integer 75011), some ("city", .string "Paris")],
    .cons (by cbv) (.cons (by cbv) .nil), by cbv⟩

theorem toJson_lodger (limits : Limits) : (lodger limits).toJson = .ok lodgerJson := by
  have home : (lodger limits).jsonMember nextHome = .ok (some ("home", lodgingJson)) := by
    have got : (lodger limits).get nextHome = .ok (.group (lodging limits)) := by cbv
    rw [Record.jsonMember_of_get got, Value.toJson_group, toJson_lodging]
    rfl
  exact Record.toJson_eq_ok_iff.mpr ⟨[some ("home", lodgingJson), some ("age", .integer 7),
    some ("nicknames", .array []), none],
    .cons home (.cons (by cbv) (.cons (by cbv) (.cons (by cbv) .nil))), by cbv⟩

theorem proper_lodging (limits : Limits) :
    (Operator.group (addressUnder limits)).Proper (.group (lodging limits)) := by
  refine .group (r := lodging limits) (by cbv) rfl fun s hs v stored => ?_
  change s ∈ [_, _] at hs
  simp only [List.mem_cons, List.not_mem_nil, or_false] at hs
  rcases hs with rfl | rfl <;> cases stored
  exact .scalar rfl

theorem proper_lodger (limits : Limits) : (lodger limits).Proper where
  unbound := rfl
  values s hs v stored := by
    change s ∈ [_, _, _, _] at hs
    simp only [List.mem_cons, List.not_mem_nil, or_false] at hs
    rcases hs with rfl | rfl | rfl | rfl <;> cases stored
    · exact proper_lodging limits
    · exact .scalar rfl

/-- A lodger shows an empty list of nicknames and the city of an address, and still does so when
read back. -/
theorem toJson_stable_lodger : ∃ r', Record.ofJson (personUnder .standard) lodgerJson = .ok r' ∧
    r'.isComplete = true ∧ r'.toJson = .ok lodgerJson ∧
      ∀ bytes, r'.toBytes = .ok bytes →
        ∃ r'', Record.ofBytes (personUnder .standard) bytes = .ok r'' ∧
          r''.toJson = .ok lodgerJson :=
  Record.toJson_stable .empty built_nextSchema (by decide +kernel)
    (givesCodec_personUnder .standard) rfl (proper_lodger .standard) (toJson_lodger .standard)

end Household

end RecordFormat
