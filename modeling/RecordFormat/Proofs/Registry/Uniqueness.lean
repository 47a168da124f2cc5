import RecordFormat.Proofs.Registry.Compilation

/-!
# One codec for each table

What is compiled depends on nothing but the limits and the tables: where no two tables share name
and version, any two codecs of a table are the same, whichever registries gave them.
-/

namespace RecordFormat

open Outcome

namespace FixedKind

theorem primitive_injective {k k' : FixedKind} (h : k.primitive = k'.primitive) : k = k' := by
  cases k <;> cases k' <;> first | rfl | cases h

@[simp] theorem primitive_ne_string (k : FixedKind) : k.primitive ≠ .string := by
  cases k <;> exact nofun

@[simp] theorem primitive_ne_binary (k : FixedKind) : k.primitive ≠ .binary := by
  cases k <;> exact nofun

end FixedKind

/-- Operators of one type, groups taken by name: how they begin. -/
inductive Operator.Akin : Operator → Operator → Prop
  | fixed (kind : FixedKind) (limit limit' : Binary64) :
      Akin (.fixed kind limit) (.fixed kind limit')
  | string : Akin .string .string
  | binary : Akin .binary .binary
  | group {c d : TableCodec} : c.table.name = d.table.name → Akin (.group c) (.group d)
  | list {element element' : Operator} {maxElements maxElements' : Nat} :
      element.type.detach = element'.type.detach →
      Akin (.list element maxElements) (.list element' maxElements')

theorem Operator.akin_of_type {op op' : Operator} (h : op.type.detach = op'.type.detach) :
    op.Akin op' := by
  cases op with
  | fixed kind limit =>
      cases op' with
      | fixed kind' limit' =>
          have same : kind.primitive = kind'.primitive := by
            simpa [type, FieldType.detach] using h
          rw [FixedKind.primitive_injective same]
          exact .fixed kind' limit limit'
      | string | binary | group | list => simp [type, FieldType.detach] at h
  | string =>
      cases op' with
      | string => exact .string
      | fixed | binary | group | list =>
          have h := h.symm
          simp [type, FieldType.detach] at h
  | binary =>
      cases op' with
      | binary => exact .binary
      | fixed | string | group | list =>
          have h := h.symm
          simp [type, FieldType.detach] at h
  | group c =>
      cases op' with
      | group d => exact .group (by simpa [type, FieldType.detach] using h)
      | fixed | string | binary | list => simp [type, FieldType.detach] at h
  | list element maxElements =>
      cases op' with
      | list element' maxElements' => exact .list (by simpa [type, FieldType.detach] using h)
      | fixed | string | binary | group => simp [type, FieldType.detach] at h

/-- A table is known by its name and version. -/
def KeyedIn (T : Table → Prop) : Prop := ∀ t u, T t → T u → t.codecKey = u.codecKey → t = u

variable {limits : Limits} {T : Table → Prop}

/-- Compiled codecs of one table are the same if the operators of their fields are. -/
theorem TableCodec.Compiled.eq_of_slots {c d : TableCodec} (hc : c.Compiled limits T)
    (hd : d.Compiled limits T) (table : c.table = d.table)
    (each : ∀ s ∈ c.slots, ∀ s' ∈ d.slots, s.field = s'.field → s.operator = s'.operator) :
    c = d := by
  have fields : List.Forall₂ (fun s s' : Slot => s.field = s'.field) c.slots d.slots := by
    have listed : c.slots.map Slot.field = d.slots.map Slot.field := by
      rw [hc.fields, hd.fields, table]
    rwa [← List.forall₂_eq_eq_eq, List.forall₂_map_left_iff, List.forall₂_map_right_iff] at listed
  have slots : List.Forall₂ (· = ·) c.slots d.slots := by
    apply forall₂_imp_of_mem fields
    rintro ⟨f, op⟩ hs ⟨g, op'⟩ hs' field
    cases field
    cases each _ hs _ hs' rfl
    rfl
  have limits := hc.limits_eq.trans hd.limits_eq.symm
  rw [List.forall₂_eq_eq_eq] at slots
  cases c
  cases d
  cases table
  cases limits
  cases slots
  rfl

/-- **Compiled operators are known by their key.** -/
theorem Operator.eq_of_key (keyed : KeyedIn T) {op op' : Operator}
    (compiled : op.Everywhere (TableCodec.Compiled limits T))
    (compiled' : op'.Everywhere (TableCodec.Compiled limits T))
    (configured : op.Configured limits) (configured' : op'.Configured limits)
    (key : op.type.operatorKey = op'.type.operatorKey) : op = op' := by
  have akin := akin_of_type (congrArg OperatorKey.type key)
  induction compiled generalizing op' with
  | fixed kind limit =>
      cases akin with
      | fixed _ _ limit' =>
          rw [show limit = _ from configured, show limit' = _ from configured']
  | string =>
      cases akin
      rfl
  | binary =>
      cases akin
      rfl
  | @group c here slots ih =>
      cases akin with
      | @group _ d =>
          have inside : d.Everywhere (TableCodec.Compiled limits T) := compiled'
          have table := keyed _ _ here.asked inside.here.asked
            (FieldType.operatorKey_bound_inj.mp key)
          rw [here.eq_of_slots inside.here table]
          intro s hs s' hs' field
          have key : s.operator.type.operatorKey = s'.operator.type.operatorKey := by
            rw [here.types s hs, inside.here.types s' hs', field]
          exact ih s hs (inside.slot hs') (here.configured s hs) (inside.here.configured s' hs') key
            (akin_of_type (congrArg OperatorKey.type key))
  | @list element _ _ ih =>
      cases akin with
      | @list _ element' _ _ type =>
          rw [ih compiled'.element configured.2 configured'.2
            (FieldType.operatorKey_list_inj.mp key) (akin_of_type type), configured.1,
            configured'.1]

/-- **Compiled codecs are known by their table.** -/
theorem TableCodec.eq_of_table (keyed : KeyedIn T) {c d : TableCodec}
    (hc : c.Everywhere (Compiled limits T)) (hd : d.Everywhere (Compiled limits T))
    (table : c.table = d.table) : c = d := by
  have same : Operator.group c = Operator.group d := by
    apply Operator.eq_of_key keyed hc hd trivial trivial
    rw [Operator.type, Operator.type, table]
  exact Operator.group.inj same

end RecordFormat
