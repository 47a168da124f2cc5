import RecordFormat.Proofs.Codec.Twins
import RecordFormat.Proofs.Registry.Uniqueness

/-!
# Compiling without a registry

`FieldType.compile` and `Table.compile` keep nothing, so what they give has the tables that the
type or table itself refers to, at every depth (`FieldType.ownedBy_of_compile`). A registry may
give what was compiled from other tables under the same key. Where tables of one name and version
match, the two cannot be told apart (`Operator.CompiledAs.interchangeable`), and either of them
can be compiled when the other can (`FieldType.compile_alike`).
-/

namespace RecordFormat

open Outcome

mutual

/-- The operator of a type, with the tables that the type itself refers to, at every depth. -/
def FieldType.compile (limits : Limits) (t : FieldType) : Except CodecError Operator :=
  match t with
  | .primitive p => Operator.ofPrimitive limits.floatMagnitude p
  | .unbound group => throw (.unresolvedGroup group)
  | .bound table => do return .group (← table.compile limits)
  | .list element => do return .list (← element.compile limits) limits.maxListElements
termination_by (sizeOf t, 0)

/-- The codec of a table, with the tables that the table itself refers to, at every depth. -/
def Table.compile (limits : Limits) (t : Table) : Except CodecError TableCodec := do
  let slots ← t.layoutFields.attach.mapM fun ⟨f, _h⟩ => do
    return Slot.mk f (← f.type.compile limits)
  return ⟨t, limits, slots⟩
termination_by (sizeOf t, 1)
decreasing_by
  exact Prod.Lex.left _ _ (Table.sizeOf_type_lt _h)

end

section

variable {limits : Limits} {T : Table → Prop}

/-- The slot of a field. -/
def Field.compile (limits : Limits) (f : Field) : Except CodecError Slot := do
  return ⟨f, ← f.type.compile limits⟩

theorem Table.compile_eq (t : Table) : t.compile limits = (do
    let slots ← t.layoutFields.mapM (Field.compile limits)
    return ⟨t, limits, slots⟩) := by
  have slots : (t.layoutFields.attach.mapM fun f => Field.compile limits f.1) =
      t.layoutFields.mapM (Field.compile limits) := mapM_attach _ _
  rw [Table.compile]
  exact congrArg (fun slots : Except CodecError (List Slot) => slots >>= fun slots =>
    pure (TableCodec.mk t limits slots)) slots

/-- The operator of each slot is of its field's type, with the very tables that it refers to. -/
def TableCodec.Own (c : TableCodec) : Prop := ∀ s ∈ c.slots, s.operator.type = s.field.type

theorem Operator.own_ofPrimitive {limit : Binary64} {p : Primitive} {op : Operator}
    (h : Operator.ofPrimitive limit p = .ok op) :
    op.type = .primitive p ∧ op.Everywhere TableCodec.Own := by
  cases p <;> cases h
  case string => exact ⟨rfl, .string⟩
  case binary => exact ⟨rfl, .binary⟩
  all_goals exact ⟨rfl, .fixed _ _⟩

/-- What a type compiles to. -/
structure Operator.OwnedBy (limits : Limits) (T : Table → Prop) (t : FieldType) (op : Operator) :
    Prop where
  compiledAs : op.CompiledAs limits T t.operatorKey
  type : op.type = t
  own : op.Everywhere TableCodec.Own

/-- What a table compiles to. -/
structure TableCodec.OwnedBy (limits : Limits) (T : Table → Prop) (t : Table) (c : TableCodec) :
    Prop where
  compiledAs : c.CompiledAs limits T t.codecKey
  table : c.table = t
  own : c.Everywhere TableCodec.Own

mutual

/-- **A type compiles to its own**, the tables inside included. -/
theorem FieldType.ownedBy_of_compile (nested : NestedIn T) (t : FieldType) (within : t.Within T)
    {op : Operator} (h : t.compile limits = .ok op) : op.OwnedBy limits T t := by
  match t, within with
  | .primitive p, _ =>
      rw [FieldType.compile] at h
      obtain ⟨type, own⟩ := Operator.own_ofPrimitive h
      exact ⟨Operator.compiledAs_ofPrimitive h, type, own⟩
  | .unbound group, _ =>
      rw [FieldType.compile] at h
      exact absurd h throw_ne_ok
  | .bound table, within =>
      rw [FieldType.compile] at h
      obtain ⟨c, compiled, eq⟩ := bind_eq_ok_iff.mp h
      obtain rfl := pure_eq_ok_iff.mp eq
      obtain ⟨compiledAs, table, own⟩ := Table.ownedBy_of_compile nested table within compiled
      exact ⟨Operator.compiledAs_group compiledAs, congrArg FieldType.bound table, own⟩
  | .list element, within =>
      rw [FieldType.compile] at h
      obtain ⟨op, compiled, eq⟩ := bind_eq_ok_iff.mp h
      obtain rfl := pure_eq_ok_iff.mp eq
      obtain ⟨compiledAs, type, own⟩ := FieldType.ownedBy_of_compile nested element within compiled
      exact ⟨Operator.compiledAs_list compiledAs, congrArg FieldType.list type, .list own⟩
termination_by (sizeOf t, 0)

/-- **A table compiles to its own**, the tables inside included. -/
theorem Table.ownedBy_of_compile (nested : NestedIn T) (t : Table) (asked : T t)
    {c : TableCodec} (h : t.compile limits = .ok c) : c.OwnedBy limits T t := by
  rw [Table.compile_eq] at h
  obtain ⟨slots, made, eq⟩ := bind_eq_ok_iff.mp h
  obtain rfl := pure_eq_ok_iff.mp eq
  have each : List.Forall₂ (fun f s => s.field = f ∧ s.operator.OwnedBy limits T f.type)
      t.layoutFields slots := by
    apply forall₂_imp_of_mem (mapM_eq_ok_iff.mp made)
    intro f hf s _ made
    obtain ⟨op, compiled, eq⟩ := bind_eq_ok_iff.mp made
    obtain rfl := pure_eq_ok_iff.mp eq
    have smaller := Table.sizeOf_type_lt hf
    have within := nested t asked f (Table.mem_layoutFields.mp hf).1
    exact ⟨rfl, FieldType.ownedBy_of_compile nested f.type within compiled⟩
  have owned : ∀ s ∈ slots, s.operator.OwnedBy limits T s.field.type := by
    intro s hs
    obtain ⟨f, -, rfl, owned⟩ := exists_left_of_mem each hs
    exact owned
  exact ⟨TableCodec.compiledAs_of_slots asked (each.imp fun _ _ h => ⟨h.1, h.2.compiledAs⟩), rfl,
    .intro (fun s hs => (owned s hs).type) fun s hs => (owned s hs).own⟩
termination_by (sizeOf t, 1)

end

/-! ## Keys -/

/-- Types under one key: how they begin. -/
inductive FieldType.Kin : FieldType → FieldType → Prop
  | primitive (p : Primitive) : Kin (.primitive p) (.primitive p)
  | unbound (group : String) : Kin (.unbound group) (.unbound group)
  | bound {t u : Table} : t.codecKey = u.codecKey → Kin (.bound t) (.bound u)
  | list {a b : FieldType} : a.operatorKey = b.operatorKey → Kin (.list a) (.list b)

theorem FieldType.kin_of_key {a b : FieldType} (key : a.operatorKey = b.operatorKey) : a.Kin b := by
  obtain ⟨type, version⟩ := OperatorKey.mk.inj key
  cases a with
  | primitive p =>
      cases b with
      | primitive q =>
          rw [detach, detach, FieldType.primitive.injEq] at type
          exact type ▸ .primitive p
      | unbound | bound | list => simp [detach] at type
  | unbound group =>
      cases b with
      | unbound group' =>
          rw [detach, detach, FieldType.unbound.injEq] at type
          exact type ▸ .unbound group
      -- A group that is bound has a version, and one that is not has none.
      | bound u => simp [group?] at version
      | primitive | list => simp [detach] at type
  | bound t =>
      cases b with
      | bound u => exact .bound (operatorKey_bound_inj.mp key)
      | unbound group => simp [group?] at version
      | primitive | list => simp [detach] at type
  | list element =>
      cases b with
      | list element' => exact .list (operatorKey_list_inj.mp key)
      | primitive | unbound | bound => simp [detach] at type

/-! ## Tables under one key -/

/-- Tables in `T` of one name and version are the same, groups taken by name. -/
def SameIn (T : Table → Prop) : Prop :=
  ∀ t u, T t → T u → t.codecKey = u.codecKey → t = u ∨ t.same u = true

/-- Tables in `T` of one name and version refer to the same versions of tables. -/
def VersionedIn (T : Table → Prop) : Prop :=
  ∀ t u, T t → T u → t.codecKey = u.codecKey → t.references = u.references

/-- Tables in `T` of one name and version match. -/
def MatchingIn (T : Table → Prop) : Prop :=
  ∀ t u, T t → T u → t.codecKey = u.codecKey → t.Matches u

theorem SameIn.matching (same : SameIn T) (versioned : VersionedIn T) : MatchingIn T :=
  fun t u asked asked' key =>
    (same t u asked asked' key).imp_right fun same => ⟨same, versioned t u asked asked' key⟩

/-- **What is compiled under one key are twins.** -/
theorem Operator.twin_of_key (matching : MatchingIn T) {op op' : Operator}
    (compiled : op.Everywhere (TableCodec.Compiled limits T))
    (compiled' : op'.Everywhere (TableCodec.Compiled limits T))
    (configured : op.Configured limits) (configured' : op'.Configured limits)
    (key : op.type.operatorKey = op'.type.operatorKey) : op.Twin op' := by
  have akin := akin_of_type (congrArg OperatorKey.type key)
  induction compiled generalizing op' with
  | fixed kind limit =>
      cases akin with
      | fixed _ _ limit' =>
          rw [show limit = _ from configured, show limit' = _ from configured']
          exact .fixed kind _
  | string =>
      cases akin
      exact .string
  | binary =>
      cases akin
      exact .binary
  | @group c here slots ih =>
      cases akin with
      | @group _ d =>
          have inside : d.Everywhere (TableCodec.Compiled limits T) := compiled'
          have table := matching _ _ here.asked inside.here.asked
            (FieldType.operatorKey_bound_inj.mp key)
          have fields : List.Forall₂ (fun s s' => s.field.Matches s'.field) c.slots d.slots := by
            have layout := table.layoutFields
            rwa [← here.fields, ← inside.here.fields, List.forall₂_map_left_iff,
              List.forall₂_map_right_iff] at layout
          refine .group table (here.limits_eq.trans inside.here.limits_eq.symm) fields ?_
          intro i s s' hs hs'
          obtain ⟨bound, rfl⟩ := List.getElem?_eq_some_iff.mp hs
          obtain ⟨bound', rfl⟩ := List.getElem?_eq_some_iff.mp hs'
          have mem := List.getElem_mem bound
          have mem' := List.getElem_mem bound'
          have key : c.slots[i].operator.type.operatorKey = d.slots[i].operator.type.operatorKey :=
            calc c.slots[i].operator.type.operatorKey
              _ = c.slots[i].field.type.operatorKey := here.types _ mem
              _ = d.slots[i].field.type.operatorKey := (fields.get bound bound').key
              _ = d.slots[i].operator.type.operatorKey := (inside.here.types _ mem').symm
          exact ih _ mem (inside.slot mem') (here.configured _ mem) (inside.here.configured _ mem')
            key (akin_of_type (congrArg OperatorKey.type key))
  | @list element _ _ ih =>
      cases akin with
      | @list _ element' _ _ type =>
          rw [configured.1, configured'.1]
          exact .list (ih compiled'.element configured.2 configured'.2
            (FieldType.operatorKey_list_inj.mp key) (akin_of_type type))

/-! ## Twins in use -/

/-- Operators that cannot be told apart by the values they take, write and read. -/
structure Operator.Interchangeable (op op' : Operator) : Prop where
  twin : op.Twin op'
  accepts : ∀ v, op.accepts v = op'.accepts v
  size : ∀ v, op.size v = op'.size v
  encode : ∀ v, op.encode v = op'.encode v
  decode : ∀ bytes offset length, Alike (fun v w => v.Twin w ∧ (v.Readable → v.Equal w))
    (op.decode bytes offset length) (op'.decode bytes offset length)

/-- Codecs that cannot be told apart by the records they write and read. -/
structure TableCodec.Interchangeable (c d : TableCodec) : Prop where
  twin : c.Twin d
  encode : ∀ values, c.encode values = d.encode values
  encodedLength : ∀ values, c.encodedLength values = d.encodedLength values
  ofBytes : ∀ bytes, Alike (fun r s => Value.Twin (.group r) (.group s)) (Record.ofBytes c bytes)
    (Record.ofBytes d bytes)
  decodeAll : ∀ b, Alike (IdMap.Agree fun v w => v.Twin w ∧ (v.Readable → v.Equal w))
    (c.decodeAll b) (d.decodeAll b)

theorem Operator.Twin.interchangeable {op op' : Operator} (h : op.Twin op') :
    op.Interchangeable op' where
  twin := h
  accepts := h.accepts_eq
  size := h.size_eq
  encode := h.encode_eq
  decode bytes offset length :=
    (h.decode bytes offset length).imp fun _ _ _ _ twins => ⟨twins, twins.equal⟩

theorem TableCodec.Twin.interchangeable {c d : TableCodec} (h : c.Twin d) :
    c.Interchangeable d where
  twin := h
  encode := h.encode_eq
  encodedLength := h.encodedLength_eq
  ofBytes := h.ofBytes
  decodeAll b := (h.decodeAll b).imp fun _ _ _ _ maps =>
    ⟨maps.ids, fun i v w hv hw => ⟨maps.values i v w hv hw, (maps.values i v w hv hw).equal⟩⟩

/-- What is kept under the key of a type may be replaced. -/
theorem Operator.CompiledAs.interchangeable (matching : MatchingIn T) {key : OperatorKey}
    {op op' : Operator} (h : op.CompiledAs limits T key) (h' : op'.CompiledAs limits T key) :
    op.Interchangeable op' :=
  (twin_of_key matching h.inside h'.inside h.configured h'.configured
    (h.type.trans h'.type.symm)).interchangeable

/-- What is kept under the key of a table may be replaced. -/
theorem TableCodec.CompiledAs.interchangeable (matching : MatchingIn T) {t : Table}
    {c d : TableCodec} (h : c.CompiledAs limits T t.codecKey)
    (h' : d.CompiledAs limits T t.codecKey) : c.Interchangeable d := by
  have twin := ((Operator.compiledAs_group h).interchangeable matching
    (Operator.compiledAs_group h')).twin
  exact twin.codecs.interchangeable

/-! ## Failing alike -/

mutual

/-- Types under one key fail alike. -/
theorem FieldType.compile_alike (nested : NestedIn T) (matching : MatchingIn T) (a : FieldType)
    {b : FieldType} (within : a.Within T) (within' : b.Within T)
    (key : a.operatorKey = b.operatorKey) :
    Alike (fun _ _ => True) (a.compile limits) (b.compile limits) := by
  have kin := FieldType.kin_of_key key
  match a, b, kin, within, within' with
  | .primitive p, _, .primitive _, _, _ => exact .refl (fun _ => trivial) _
  | .unbound group, _, .unbound _, _, _ => exact .refl (fun _ => trivial) _
  | .bound t, .bound u, .bound tables, within, within' =>
      rw [FieldType.compile, FieldType.compile]
      exact (Table.compile_alike nested matching t within within' tables).bind
        fun _ _ _ => .ok trivial
  | .list a, .list b, .list elements, within, within' =>
      rw [FieldType.compile, FieldType.compile]
      exact (FieldType.compile_alike (b := b) nested matching a within within' elements).bind
        fun _ _ _ => .ok trivial
termination_by (sizeOf a, 0)

/-- Tables of one name and version fail alike. -/
theorem Table.compile_alike (nested : NestedIn T) (matching : MatchingIn T) (t : Table)
    {u : Table} (asked : T t) (asked' : T u) (key : t.codecKey = u.codecKey) :
    Alike (fun _ _ => True) (t.compile limits) (u.compile limits) := by
  rw [Table.compile_eq, Table.compile_eq]
  have slots : Alike (List.Forall₂ fun _ _ => True) (t.layoutFields.mapM (Field.compile limits))
      (u.layoutFields.mapM (Field.compile limits)) := by
    apply Alike.mapM
    apply forall₂_imp_of_mem (matching t u asked asked' key).layoutFields
    intro f hf g hg matched
    have smaller := Table.sizeOf_type_lt hf
    have within := nested t asked f (Table.mem_layoutFields.mp hf).1
    have within' := nested u asked' g (Table.mem_layoutFields.mp hg).1
    exact (FieldType.compile_alike nested matching f.type within within' matched.key).bind
      fun _ _ _ => .ok trivial
  exact slots.bind fun _ _ _ => .ok trivial
termination_by (sizeOf t, 1)

end

end

end RecordFormat
