import RecordFormat.Proofs.Codec.Contents
import RecordFormat.Proofs.Schema.Tables
import RecordFormat.Proofs.Steps
import RecordFormat.Wire.Registry

/-!
# What a registry compiles

Whatever is asked of a registry, in whatever order, everything it keeps and gives out is
compiled: at every depth a codec has its registry's limits and one slot for each stored field
of its table, in layout order, with an operator of the field's type. What was kept first under
a key stays, so the tables inside are among those that were asked for, by name and version.
-/

namespace RecordFormat

open Steps (Ends)

/-! ## Keys -/

namespace FieldType

theorem operatorKey_bound_inj {t u : Table} :
    (bound t).operatorKey = (bound u).operatorKey ↔ t.codecKey = u.codecKey := by
  simp [operatorKey, detach, group?, Table.codecKey]

theorem operatorKey_list_inj {a b : FieldType} :
    (list a).operatorKey = (list b).operatorKey ↔ a.operatorKey = b.operatorKey := by
  simp [operatorKey, detach, group?]

end FieldType

/-! ## What is compiled -/

/-- An operator with the limits of a configuration. -/
def Operator.Configured (limits : Limits) : Operator → Prop
  | .fixed _ limit => limit = limits.floatMagnitude
  | .list element maxElements => maxElements = limits.maxListElements ∧ element.Configured limits
  | _ => True

/-- The codec is the compiled form of its table, which is in `T`. -/
structure TableCodec.Compiled (limits : Limits) (T : Table → Prop) (c : TableCodec) : Prop where
  asked : T c.table
  limits_eq : c.limits = limits
  fields : c.slots.map Slot.field = c.table.layoutFields
  types : ∀ s ∈ c.slots, s.operator.type.operatorKey = s.field.type.operatorKey
  configured : ∀ s ∈ c.slots, s.operator.Configured limits

/-- What is kept under the key of a type. -/
structure Operator.CompiledAs (limits : Limits) (T : Table → Prop) (key : OperatorKey)
    (op : Operator) : Prop where
  inside : op.Everywhere (TableCodec.Compiled limits T)
  type : op.type.operatorKey = key
  configured : op.Configured limits

/-- What is kept under the key of a table. -/
structure TableCodec.CompiledAs (limits : Limits) (T : Table → Prop) (key : String × Int16)
    (c : TableCodec) : Prop where
  inside : c.Everywhere (TableCodec.Compiled limits T)
  table : c.table.codecKey = key

namespace Registry

/-- Everything kept is compiled. -/
structure Sound (limits : Limits) (T : Table → Prop) (r : Registry) : Prop where
  limits_eq : r.limits = limits
  operators : ∀ e ∈ r.operators, e.2.CompiledAs limits T e.1
  codecs : ∀ e ∈ r.codecs, e.2.CompiledAs limits T e.1

/-- What is kept stays, under the same limits. -/
structure Extends (r r' : Registry) : Prop where
  limits_eq : r'.limits = r.limits
  operators : r.operators <+: r'.operators
  codecs : r.codecs <+: r'.codecs

instance : Std.Refl Extends := ⟨fun _ => ⟨rfl, List.prefix_rfl, List.prefix_rfl⟩⟩

instance : IsTrans Registry Extends :=
  ⟨fun _ _ _ h h' => ⟨h'.limits_eq.trans h.limits_eq, h.operators.trans h'.operators,
    h.codecs.trans h'.codecs⟩⟩

variable {limits : Limits} {T : Table → Prop} {r : Registry}

theorem sound_fresh : Sound limits T { limits } := ⟨rfl, nofun, nofun⟩

/-! ## Looking up and keeping -/

/-- Keys are the same only when they are equal. -/
theorem key_eq_of_same {t : FieldType} {a b : OperatorKey} (ha : t.operatorKey = a)
    {u : FieldType} (hb : u.operatorKey = b) (same : a.same b = true) : a = b := by
  subst ha hb
  rw [OperatorKey.same, Bool.and_eq_true, decide_eq_true_eq, FieldType.same_iff] at same
  simp only [FieldType.operatorKey, FieldType.detach_detach] at same ⊢
  rw [same.1, same.2]

theorem operator?_ends (t : FieldType) (sound : Sound limits T r) :
    Ends Extends (Sound limits T)
      (fun o _ => ∀ op, o = some op → op.CompiledAs limits T t.operatorKey)
      (operator? t.operatorKey) r := by
  refine (Ends.get sound).bind fun s s' sound' _ here => Ends.pure sound' ?_
  rintro op found
  obtain ⟨rfl, -⟩ := here
  obtain ⟨⟨key, kept⟩, look, rfl⟩ := Option.map_eq_some_iff.mp found
  have compiled := sound'.operators _ (List.mem_of_find?_eq_some look)
  have same := List.find?_some look
  rwa [key_eq_of_same compiled.type rfl same] at compiled

theorem keepOperator_ends {t : FieldType} {op : Operator} (sound : Sound limits T r)
    (compiled : op.CompiledAs limits T t.operatorKey) :
    Ends Extends (Sound limits T) (fun kept _ => kept.CompiledAs limits T t.operatorKey)
      (keepOperator t.operatorKey op) r := by
  apply (operator?_ends t sound).bind
  intro o s sound' _ kept
  cases o with
  | some other => exact Ends.pure sound' (kept other rfl)
  | none =>
      refine (Ends.modify ?_ ?_).bind fun _ _ sound'' _ _ => Ends.pure sound'' compiled
      · refine ⟨sound'.limits_eq, fun e he => ?_, sound'.codecs⟩
        rcases List.mem_append.mp he with he | he
        · exact sound'.operators e he
        · rw [List.mem_singleton.mp he]
          exact compiled
      · exact ⟨rfl, List.prefix_append _ _, List.prefix_rfl⟩

theorem codec?_ends (key : String × Int16) (sound : Sound limits T r) :
    Ends Extends (Sound limits T) (fun o _ => ∀ c, o = some c → c.CompiledAs limits T key)
      (codec? key) r := by
  refine (Ends.get sound).bind fun s s' sound' _ here => Ends.pure sound' ?_
  rintro c found
  obtain ⟨rfl, -⟩ := here
  obtain ⟨⟨other, kept⟩, look, rfl⟩ := Option.map_eq_some_iff.mp found
  have compiled := sound'.codecs _ (List.mem_of_find?_eq_some look)
  have same := List.find?_some look
  rw [decide_eq_true_eq] at same
  rwa [same] at compiled

theorem keepCodec_ends {key : String × Int16} {c : TableCodec} (sound : Sound limits T r)
    (compiled : c.CompiledAs limits T key) :
    Ends Extends (Sound limits T) (fun kept _ => kept.CompiledAs limits T key)
      (keepCodec key c) r := by
  apply (codec?_ends key sound).bind
  intro o s sound' _ kept
  cases o with
  | some other => exact Ends.pure sound' (kept other rfl)
  | none =>
      refine (Ends.modify ?_ ?_).bind fun _ _ sound'' _ _ => Ends.pure sound'' compiled
      · refine ⟨sound'.limits_eq, sound'.operators, ?_⟩
        intro e he
        rcases List.mem_append.mp he with he | he
        · exact sound'.codecs e he
        · rw [List.mem_singleton.mp he]
          exact compiled
      · exact ⟨rfl, List.prefix_rfl, List.prefix_append _ _⟩

end Registry

/-! ## Compiling -/

/-- Membership proofs carried along for termination do not change a codec. -/
theorem Table.codec_eq (t : Table) : t.codec = (do
    match ← Registry.codec? t.codecKey with
    | some codec => return codec
    | none =>
      let slots ← t.layoutFields.mapM fun f => do return Slot.mk f (← f.type.operator)
      Registry.keepCodec t.codecKey ⟨t, (← get).limits, slots⟩) := by
  let step (f : Field) : RegistryM Slot := do return Slot.mk f (← f.type.operator)
  have slots : (t.layoutFields.attach.mapM fun f => step f.1) = t.layoutFields.mapM step := by
    rw [List.mapM_subtype (g := step) (fun _ _ => rfl), List.unattach_attach]
  rw [Table.codec]
  exact congrArg (fun slots => Registry.codec? t.codecKey >>= fun
    | some codec => pure codec
    | none => slots >>= fun slots => do Registry.keepCodec t.codecKey ⟨t, (← get).limits, slots⟩)
    slots

section

open Registry

variable {limits : Limits} {T : Table → Prop} {r : Registry}

theorem Operator.compiledAs_ofPrimitive {p : Primitive} {op : Operator}
    (h : Operator.ofPrimitive limits.floatMagnitude p = .ok op) :
    op.CompiledAs limits T (FieldType.primitive p).operatorKey := by
  cases p <;> cases h
  case string => exact ⟨.string, rfl, trivial⟩
  case binary => exact ⟨.binary, rfl, trivial⟩
  all_goals exact ⟨.fixed _ _, rfl, rfl⟩

theorem Operator.compiledAs_group {t : Table} {c : TableCodec}
    (h : c.CompiledAs limits T t.codecKey) :
    (Operator.group c).CompiledAs limits T (FieldType.bound t).operatorKey where
  inside := h.inside
  type := FieldType.operatorKey_bound_inj.mpr h.table
  configured := trivial

theorem Operator.compiledAs_list {t : FieldType} {op : Operator}
    (h : op.CompiledAs limits T t.operatorKey) :
    (Operator.list op limits.maxListElements).CompiledAs limits T
      (FieldType.list t).operatorKey where
  inside := .list h.inside
  type := FieldType.operatorKey_list_inj.mpr h.type
  configured := ⟨rfl, h.configured⟩

/-- The slots that are compiled for a table make its codec. -/
theorem TableCodec.compiledAs_of_slots {t : Table} {slots : List Slot} (asked : T t)
    (compiled : List.Forall₂ (fun f s => s.field = f ∧
      s.operator.CompiledAs limits T f.type.operatorKey) t.layoutFields slots) :
    (TableCodec.mk t limits slots).CompiledAs limits T t.codecKey where
  inside := by
    have each : ∀ s ∈ slots, s.operator.CompiledAs limits T s.field.type.operatorKey := by
        intro s hs
        obtain ⟨f, -, rfl, compiled⟩ := Outcome.exists_left_of_mem compiled hs
        exact compiled
    refine .intro ⟨asked, rfl, ?_, fun s hs => (each s hs).type, fun s hs => (each s hs).configured⟩
      fun s hs => (each s hs).inside
    have fields := Outcome.map_eq_map_of_forall₂ (f := id) (compiled.imp fun _ _ h => h.1.symm)
    rw [List.map_id] at fields
    exact fields.symm
  table := rfl

mutual

/-- **Operators are compiled** in every state that the registry can be in. -/
theorem FieldType.operator_ends (nested : NestedIn T) (t : FieldType) (within : t.Within T)
    {r : Registry} (sound : Sound limits T r) :
    Ends Extends (Sound limits T) (fun op _ => op.CompiledAs limits T t.operatorKey)
      t.operator r := by
  rw [FieldType.operator]
  apply (operator?_ends t sound).bind
  intro o s sound _ kept
  cases o with
  | some op => exact Ends.pure sound (kept op rfl)
  | none =>
      match t, within with
      | .primitive p, _ =>
          apply (Ends.get sound).bind
          intro s s' sound' _ here
          obtain ⟨rfl, -⟩ := here
          rw [sound'.limits_eq]
          refine (Ends.liftExcept sound' fun op => Operator.compiledAs_ofPrimitive).bind
            fun op s sound _ compiled => keepOperator_ends sound compiled
      | .unbound group, _ =>
          -- Names alone are not compiled.
          exact Ends.bind (Q := fun _ _ => False) (Ends.throw sound) fun _ _ _ _ none => none.elim
      | .bound table, within =>
          apply (Table.codec_ends nested table within sound).bind
          intro c s sound _ compiled
          exact keepOperator_ends sound (Operator.compiledAs_group compiled)
      | .list element, within =>
          refine (FieldType.operator_ends nested element within sound).bind
            fun op s sound _ compiled => ?_
          apply (Ends.get sound).bind
          intro s s' sound' _ here
          obtain ⟨rfl, -⟩ := here
          rw [sound'.limits_eq]
          exact keepOperator_ends sound' (Operator.compiledAs_list compiled)
termination_by (sizeOf t, 0)

/-- **Codecs are compiled** in every state that the registry can be in. -/
theorem Table.codec_ends (nested : NestedIn T) (t : Table) (asked : T t) {r : Registry}
    (sound : Sound limits T r) :
    Ends Extends (Sound limits T) (fun c _ => c.CompiledAs limits T t.codecKey) t.codec r := by
  rw [Table.codec_eq]
  apply (codec?_ends t.codecKey sound).bind
  intro o s sound _ kept
  cases o with
  | some c => exact Ends.pure sound (kept c rfl)
  | none =>
      refine Ends.bind (Q := fun slots _ => List.Forall₂ (fun f s => s.field = f ∧
        s.operator.CompiledAs limits T f.type.operatorKey) t.layoutFields slots) ?_
        fun slots s sound _ compiled => ?_
      · refine Ends.mapM (fun _ _ _ _ _ h => h) sound ?_
        intro f hf s sound _
        have known := Table.mem_layoutFields.mp hf
        -- Fields are parts of their table, so the types inside are smaller.
        have smaller := Table.sizeOf_type_lt hf
        refine (FieldType.operator_ends nested f.type (nested t asked f known.1) sound).bind
          fun op s sound _ compiled => Ends.pure sound ⟨rfl, compiled⟩
      · apply (Ends.get sound).bind
        intro s s' sound' _ here
        obtain ⟨rfl, -⟩ := here
        rw [sound'.limits_eq]
        exact keepCodec_ends sound' (TableCodec.compiledAs_of_slots asked compiled)
termination_by (sizeOf t, 1)

end

end

/-! ## Whatever is asked -/

namespace Registry

/-- The states of a registry that is asked for codecs and operators over tables in `T`. -/
inductive Reachable (limits : Limits) (T : Table → Prop) : Registry → Prop
  | fresh : Reachable limits T { limits }
  | codec {r : Registry} (t : Table) : Reachable limits T r → T t →
      Reachable limits T (t.codec.run r).2
  | operator {r : Registry} (t : FieldType) : Reachable limits T r → t.Within T →
      Reachable limits T (t.operator.run r).2

/-- A registry gives this codec for a table in `T`. -/
def GivesCodec (limits : Limits) (T : Table → Prop) (t : Table) (c : TableCodec) : Prop :=
  T t ∧ ∃ r, Reachable limits T r ∧ (t.codec.run r).1 = .ok c

/-- A registry gives this operator for a type over tables in `T`. -/
def GivesOperator (limits : Limits) (T : Table → Prop) (t : FieldType) (op : Operator) : Prop :=
  t.Within T ∧ ∃ r, Reachable limits T r ∧ (t.operator.run r).1 = .ok op

variable {limits : Limits} {T : Table → Prop} {r : Registry}

theorem Reachable.sound (nested : NestedIn T) (h : Reachable limits T r) : Sound limits T r := by
  induction h with
  | fresh => exact sound_fresh
  | codec t _ asked ih => exact (t.codec_ends nested asked ih).keeps
  | operator t _ within ih => exact (t.operator_ends nested within ih).keeps

/-- **A codec that is given out is compiled**, whatever was asked before. -/
theorem GivesCodec.compiled {t : Table} {c : TableCodec} (nested : NestedIn T)
    (h : GivesCodec limits T t c) : c.CompiledAs limits T t.codecKey := by
  obtain ⟨asked, r, reachable, given⟩ := h
  exact (t.codec_ends nested asked (reachable.sound nested)).returns c given

/-- **An operator that is given out is compiled**, whatever was asked before. -/
theorem GivesOperator.compiled {t : FieldType} {op : Operator} (nested : NestedIn T)
    (h : GivesOperator limits T t op) : op.CompiledAs limits T t.operatorKey := by
  obtain ⟨within, r, reachable, given⟩ := h
  exact (t.operator_ends nested within (reachable.sound nested)).returns op given

end Registry

theorem nestedIn_true : NestedIn fun _ => True := by
  have within : ∀ t : FieldType, t.Within fun _ => True := by
    intro t
    induction t using FieldType.Within.induct with
    | case1 table => trivial
    | case2 element ih => exact ih
    | case3 t _ _ => cases t <;> first | trivial | simp_all
  exact fun _ _ f _ => within f.type

/-! ## Sound codecs -/

namespace TableCodec.Compiled

variable {limits : Limits} {T : Table → Prop} {c : TableCodec}

/-- Each stored field of the table has a slot. -/
theorem exists_slot (h : c.Compiled limits T) {f : Field} (hf : f ∈ c.table.storedFields) :
    ∃ s ∈ c.slots, s.field = f := by
  have field : f ∈ c.slots.map Slot.field := by
    rw [h.fields]
    exact Table.mem_layoutFields.mpr (List.mem_filter.mp hf)
  exact List.mem_map.mp field

/-- Nothing but the stored fields has a slot. -/
theorem field_mem (h : c.Compiled limits T) {s : Slot} (hs : s ∈ c.slots) :
    s.field ∈ c.table.storedFields := by
  have field : s.field ∈ c.table.layoutFields := by
    rw [← h.fields]
    exact List.mem_map_of_mem hs
  exact List.mem_filter.mpr (Table.mem_layoutFields.mp field)

/-- The slots stand in the order of their numbers. -/
theorem ascending (h : c.Compiled limits T)
    (distinct : (c.table.storedFields.map Field.id).Nodup) :
    (c.slots.map fun s => s.field.id).Pairwise (· < ·) := by
  have ids : c.slots.map (fun s => s.field.id) = c.table.layoutFields.map Field.id := by
    rw [← h.fields, List.map_map]
    rfl
  rw [ids]
  exact RecordBuffer.ascending_mergeSort Field.id distinct

/-- The slots are numbered as the stored fields of the table are. -/
theorem distinctIds (h : c.Compiled limits T)
    (distinct : (c.table.storedFields.map Field.id).Nodup) : c.DistinctIds :=
  (h.ascending distinct).imp Int16.ne_of_lt

/-- The compiled form of a table whose stored fields have numbers of their own. -/
theorem sound (h : c.Compiled limits T) (numbered : c.table.Numbered) :
    c.Sound limits.maxRecordSize where
  distinct := h.distinctIds numbered.distinct
  natural s hs := (numbered.made _ (List.mem_filter.mp (h.field_mem hs)).1).natural
  required f hf := by
    rw [Table.filter_isStored_requiredFields] at hf
    exact h.exists_slot (List.mem_of_mem_filter hf)
  limit_le := h.limits_eq ▸ Nat.le_refl _

end TableCodec.Compiled

end RecordFormat
