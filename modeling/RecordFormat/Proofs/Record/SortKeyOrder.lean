import Mathlib
import RecordFormat.Proofs.Evolution.SortKeys
import RecordFormat.Proofs.Record.JsonReading
import RecordFormat.Proofs.Record.Required
import RecordFormat.Proofs.Schema.ScalarOrder
import RecordFormat.Record.Comparison

/-!
# Records in the order of their sort keys

What a record holds under a number is of the kind of the field's type, however it got there
(`Record.Orderly.kind?_of_storedValue`). So the keys of two records are either scalars of one kind,
which have an order, or both no scalars, which all count as equal: the records of a codec are in a
total order, and it is that of their keys where the key is a scalar (`Record.sortedBy_sortKey`).
Nothing keeps lists and groups from being sort keys, and then all records are equal
(`Household.compareByKey_families`).
-/

namespace RecordFormat

open Outcome

/-! ## The order of values -/

namespace Value

variable {x y z : Value} {p : Primitive}

/-- The kind of a scalar; lists and groups have none. -/
def kind? (v : Value) : Option Primitive := v.asScalar?.map Scalar.kind

theorem kind?_eq_some_iff : x.kind? = some p ↔ ∃ s, x = .scalar s ∧ s.kind = p := by
  cases x <;> simp [kind?, asScalar?]

/-- The order of two values, which are equal if they are not scalars of one kind. -/
def order (x y : Value) : Ordering := (x.order? y).getD .eq

theorem order_eq (h : x.kind? = none) : x.order y = .eq := by
  cases x with
  | scalar s => cases h
  | list | group => rfl

theorem order_scalar {s t : Scalar} {o : Ordering} (h : s.order? t = some o) :
    order (.scalar s) (.scalar t) = o := by
  have ordered : (Value.scalar s).order? (.scalar t) = some o := h
  rw [order, ordered, Option.getD_some]

theorem order_swap (same : x.kind? = y.kind?) : y.order x = (x.order y).swap := by
  cases kind : x.kind? with
  | none => rw [order_eq kind, order_eq (same.symm.trans kind), Ordering.swap]
  | some p =>
      obtain ⟨s, rfl, own⟩ := kind?_eq_some_iff.mp kind
      obtain ⟨t, rfl, own'⟩ := kind?_eq_some_iff.mp (same.symm.trans kind)
      obtain ⟨o, h⟩ := Scalar.exists_order? (own.trans own'.symm)
      rw [order_scalar h, order_scalar (Scalar.order?_swap h)]

theorem order_trans (same : x.kind? = y.kind?) (same' : y.kind? = z.kind?)
    (le : (x.order y).isLE = true) (le' : (y.order z).isLE = true) :
    (x.order z).isLE = true := by
  cases kind : x.kind? with
  | none =>
      rw [order_eq kind]
      rfl
  | some p =>
      have kind' := same.symm.trans kind
      obtain ⟨s, rfl, own⟩ := kind?_eq_some_iff.mp kind
      obtain ⟨t, rfl, own'⟩ := kind?_eq_some_iff.mp kind'
      obtain ⟨u, rfl, own''⟩ := kind?_eq_some_iff.mp (same'.symm.trans kind')
      obtain ⟨o, h⟩ := Scalar.exists_order? (own.trans own'.symm)
      obtain ⟨o', h'⟩ := Scalar.exists_order? (own'.trans own''.symm)
      rw [order_scalar h] at le
      rw [order_scalar h'] at le'
      obtain ⟨o'', h'', le''⟩ := Scalar.order?_trans h h' le le'
      rw [order_scalar h'']
      exact le''

end Value

/-! ## The kind of what a field holds -/

theorem FieldType.asPrimitive?_detach (t : FieldType) : t.detach.asPrimitive? = t.asPrimitive? := by
  cases t <;> rfl

theorem Scalar.kind_of_fits {s : Scalar} {p : Primitive} {limit : Binary64}
    (fits : s.fits p limit = true) : s.kind = p := by
  unfold Scalar.fits at fits
  exact of_decide_eq_true (Bool.and_eq_true_iff.mp fits).1

theorem FixedKind.kind_read (k : FixedKind) (payload : Bytes) :
    (k.read payload).kind = k.primitive := by
  cases k <;> rfl

namespace Operator

variable {op : Operator} {v : Value}

theorem kind?_of_accepts (accepted : op.accepts v = true) : v.kind? = op.type.asPrimitive? := by
  cases op with
  | fixed | string | binary =>
      cases v with
      | scalar s => exact congrArg some (Scalar.kind_of_fits accepted)
      | list | group => cases accepted
  | group =>
      cases v with
      | group => rfl
      | scalar | list => cases accepted
  | list =>
      cases v with
      | list => rfl
      | scalar | group => cases accepted

theorem kind?_of_decode {bytes : Bytes} {offset length : Nat}
    (read : op.decode bytes offset length = .ok v) : v.kind? = op.type.asPrimitive? := by
  cases op with
  | fixed kind limit =>
      rw [decode] at read
      obtain ⟨_, -, read⟩ := bind_eq_ok_iff.mp read
      obtain ⟨payload, -, eq⟩ := bind_eq_ok_iff.mp read
      obtain rfl := pure_eq_ok_iff.mp eq
      exact congrArg some (kind.kind_read payload)
  | string =>
      rw [decode] at read
      obtain ⟨_, -, read⟩ := bind_eq_ok_iff.mp read
      split at read
      · obtain rfl := pure_eq_ok_iff.mp read
        rfl
      · exact absurd read throw_ne_ok
  | binary =>
      rw [decode] at read
      obtain ⟨_, -, eq⟩ := bind_eq_ok_iff.mp read
      obtain rfl := pure_eq_ok_iff.mp eq
      rfl
  | group codec =>
      obtain ⟨_, -, -, -, rfl⟩ := decode_group_eq_ok_iff.mp read
      rfl
  | list element maxElements =>
      obtain ⟨_, rfl, -⟩ := decode_list_eq_ok_iff.mp read
      rfl

end Operator

namespace Record

variable {limit : Nat} {c : TableCodec} {r r' : Record} {f : Field} {v : Value}

/-! ## How records are obtained -/

/-- Members of an object are changes. -/
theorem Arises.readMember {member : String × Json} (h : Arises c r)
    (read : readMember c r member = .ok r') : Arises c r' := by
  unfold Record.readMember at read
  split at read
  · exact absurd read throw_ne_ok
  · next f _ =>
    obtain ⟨_, -, read⟩ := bind_eq_ok_iff.mp read
    split at read
    · obtain rfl := pure_eq_ok_iff.mp read
      exact h
    · split at read
      · exact absurd read throw_ne_ok
      · obtain ⟨v, -, set⟩ := bind_eq_ok_iff.mp read
        have after : (Edit.set f v).after r = r' := by
          rw [Edit.after, Edit.apply, set]
        exact after ▸ h.change (.set f v)

theorem Arises.foldlM_readMember : ∀ {members : List (String × Json)} {r : Record}, Arises c r →
    members.foldlM (Record.readMember c) r = .ok r' → Arises c r'
  | [], r, h, read => by
      rw [List.foldlM_nil, pure_eq_ok_iff] at read
      exact read ▸ h
  | member :: rest, r, h, read => by
      rw [List.foldlM_cons] at read
      obtain ⟨next, here, later⟩ := bind_eq_ok_iff.mp read
      exact (h.readMember here).foldlM_readMember later

/-- Records are read from JSON by changes to a new one. -/
theorem arises_of_ofJson {j : Json} (read : Record.ofJson c j = .ok r) : Arises c r := by
  obtain ⟨members, _, rfl, -⟩ := exists_of_ofJson read
  rw [ofJson_object] at read
  exact Arises.empty.foldlM_readMember read

/-- The records of a codec: those that are new, read from octets or a buffer, or from JSON, and what
changes and computations for derived fields leave of them. -/
inductive Obtained (c : TableCodec) : Record → Prop
  | arises {r : Record} : Arises c r → Obtained c r
  | ofJson {j : Json} {r : Record} : Record.ofJson c j = .ok r → Obtained c r
  | change {r : Record} (e : Edit) : Obtained c r → Obtained c (e.after r)
  | bind {r r' : Record} {f : Field} {d : Derivation} :
      Obtained c r → r.bind f d = .ok r' → Obtained c r'

theorem Obtained.orderly (h : Obtained c r) (sound : c.Sound limit) : Orderly c r := by
  induction h with
  | arises h => exact h.orderly sound
  | ofJson read => exact (arises_of_ofJson read).orderly sound
  | change e _ ih => exact ih.after sound e
  | bind _ bound ih =>
      obtain ⟨own, -, bound⟩ := bind_eq_ok_iff.mp bound
      obtain ⟨_, -, eq⟩ := bind_eq_ok_iff.mp bound
      obtain rfl := pure_eq_ok_iff.mp eq
      obtain ⟨codec, staged, apart, optional, accepted, complete⟩ := ih
      exact ⟨codec, staged, apart, optional, accepted, complete⟩

/-! ## The kind of a field's value -/

/-- **What a record holds is of the kind of its field**, whether staged or in the buffer. -/
theorem Orderly.kind?_of_storedValue (h : Orderly c r) (serves : c.Serves)
    (hf : f ∈ c.table.storedFields) (read : r.storedValue f = .ok (some v)) :
    v.kind? = f.type.asPrimitive? := by
  obtain ⟨s, slot, -, same⟩ := serves.slot f hf
  have kind : s.operator.type.asPrimitive? = f.type.asPrimitive? := by
    rw [← FieldType.asPrimitive?_detach, same, FieldType.asPrimitive?_detach]
  rw [← kind]
  unfold storedValue at read
  split at read
  · -- What is staged was accepted by the operator; what is in the buffer is read by it.
    next w found =>
    cases read
    obtain ⟨op, known, accepted⟩ := h.accepted f.id v (IdMap.mem_of_find? found)
    rw [TableCodec.operator?, slot, Option.map_some, Option.some.injEq] at known
    exact known ▸ Operator.kind?_of_accepts accepted
  · split at read
    · cases read
    · split at read
      · rw [h.codec, TableCodec.readField_eq_some_iff serves.covers hf] at read
        obtain ⟨t, offset, slot', -, read⟩ := read
        obtain rfl : s = t := Option.some.inj (slot.symm.trans slot')
        obtain ⟨_, -, decoded⟩ := bind_eq_ok_iff.mp read
        exact Operator.kind?_of_decode decoded
      · cases read

/-- Where a required field can be read, it is of its kind: there is no default. -/
theorem Orderly.kind?_of_get (h : Orderly c r) (serves : c.Serves) (hf : f ∈ c.table.storedFields)
    (required : f.isRequired = true) (read : r.get f = .ok v) : v.kind? = f.type.asPrimitive? := by
  obtain rfl := h.codec
  rw [get_eq_storedValue serves hf] at read
  obtain ⟨o, stored, read⟩ := bind_eq_ok_iff.mp read
  cases o with
  | some w =>
      cases read
      exact h.kind?_of_storedValue serves hf stored
  | none =>
      rw [Option.elim_none, Field.absent, if_pos required] at read
      cases read

end Record

/-! ## The order of keys -/

namespace Field

variable {key : Field} {x y z : Value}

/-- The order of two values of a sort key. -/
def keyOrder (key : Field) (x y : Value) : Ordering :=
  if key.constraints.sort = some .descending then (x.order y).swap else x.order y

/-- Only the direction of a key matters for the order of its values. -/
theorem keyOrder_congr {key' : Field} (direction : key.constraints.sort = key'.constraints.sort) :
    key.keyOrder x y = key'.keyOrder x y := by
  rw [keyOrder, keyOrder, direction]

theorem keyOrder_eq (h : x.kind? = none) : key.keyOrder x y = .eq := by
  rw [keyOrder, Value.order_eq h, Ordering.swap, ite_self]

/-- Taken back where the key is descending, the order of two values is their own. -/
theorem swap_keyOrder_eq_order : (if key.constraints.sort = some .descending then
    (key.keyOrder x y).swap else key.keyOrder x y) = x.order y := by
  unfold keyOrder
  split
  · rw [Ordering.swap_swap]
  · rfl

theorem keyOrder_swap (same : x.kind? = y.kind?) : key.keyOrder y x = (key.keyOrder x y).swap := by
  unfold keyOrder
  split <;> rw [Value.order_swap same]

theorem keyOrder_trans (same : x.kind? = y.kind?) (same' : y.kind? = z.kind?)
    (le : (key.keyOrder x y).isLE = true) (le' : (key.keyOrder y z).isLE = true) :
    (key.keyOrder x z).isLE = true := by
  unfold keyOrder at le le' ⊢
  split at le
  · -- Descending keys go from `z` down to `x`.
    rw [← Value.order_swap same] at le
    rw [if_pos ‹_›, ← Value.order_swap same'] at le'
    rw [if_pos ‹_›, ← Value.order_swap (same.trans same')]
    exact Value.order_trans same'.symm same.symm le' le
  · rw [if_neg ‹_›] at le' ⊢
    exact Value.order_trans same same' le le'

end Field

namespace Record

variable {limits : Limits} {t : Table} {c : TableCodec} {key : Field}

theorem compareByKey_eq {a b : Record} {x y : Value} (name : a.table.name = b.table.name)
    (sorted : a.table.sortKey? = some key) (ours : a.get key = .ok x) (theirs : b.get key = .ok y) :
    a.compareByKey b = .ok (key.keyOrder x y) := by
  rw [compareByKey, refuseIf, if_neg (not_not_intro name)]
  simp only [ok_bind, sorted, ours, theirs]
  rfl

/-- The records that have a property are in a total order by a key: that of their values of the key,
or the reverse if it is descending, where these are scalars, and otherwise the one in which all are
equal. -/
structure SortedBy (key : Field) (P : Record → Prop) : Prop where
  compares : ∀ a b, P a → P b → ∃ o, a.compareByKey b = .ok o
  swap : ∀ a b o, P a → P b → a.compareByKey b = .ok o → b.compareByKey a = .ok o.swap
  trans : ∀ a b d o o' o'', P a → P b → P d → a.compareByKey b = .ok o → b.compareByKey d = .ok o' →
    a.compareByKey d = .ok o'' → o.isLE = true → o'.isLE = true → o''.isLE = true
  natural : key.type.isPrimitive = true → ∀ a b o, P a → P b → a.compareByKey b = .ok o →
    ∃ s t, a.get key = .ok (.scalar s) ∧ b.get key = .ok (.scalar t) ∧ s.kind = t.kind ∧
      Tells (if key.constraints.sort = some .descending then o.swap else o)
        (s.Precedes t) (s = t) (t.Precedes s)
  otherwise : key.type.isPrimitive = false → ∀ a b, P a → P b → a.compareByKey b = .ok .eq

/-- Records are in order by a key that can be read and is of its kind, if each of their tables has
it as its own sort key, as far as all of them can tell. -/
theorem sortedBy_of_keys {P : Record → Prop} (name : ∀ a b, P a → P b → a.table.name = b.table.name)
    (keys : ∀ a, P a → ∃ own, a.table.sortKey? = some own ∧
      own.constraints.sort = key.constraints.sort ∧ ∀ b, P b → b.get own = b.get key)
    (kinds : ∀ r, P r → ∃ v, r.get key = .ok v ∧ v.kind? = key.type.asPrimitive?) :
    SortedBy key P := by
  have order {a b : Record} {x y : Value} (ha : P a) (hb : P b) (ours : a.get key = .ok x)
      (theirs : b.get key = .ok y) : a.compareByKey b = .ok (key.keyOrder x y) := by
    obtain ⟨own, sorted, direction, same⟩ := keys a ha
    rw [← same a ha] at ours
    rw [← same b hb] at theirs
    rw [compareByKey_eq (name a b ha hb) sorted ours theirs, Field.keyOrder_congr direction]
  refine ⟨?_, ?_, ?_, ?_, ?_⟩
  · intro a b ha hb
    obtain ⟨x, ours, -⟩ := kinds a ha
    obtain ⟨y, theirs, -⟩ := kinds b hb
    exact ⟨_, order ha hb ours theirs⟩
  · intro a b o ha hb compared
    obtain ⟨x, ours, kind⟩ := kinds a ha
    obtain ⟨y, theirs, kind'⟩ := kinds b hb
    rw [order ha hb ours theirs] at compared
    cases compared
    rw [order hb ha theirs ours, Field.keyOrder_swap (kind.trans kind'.symm)]
  · intro a b d o o' o'' ha hb hd ab bd ad
    obtain ⟨x, first, kind⟩ := kinds a ha
    obtain ⟨y, second, kind'⟩ := kinds b hb
    obtain ⟨z, third, kind''⟩ := kinds d hd
    rw [order ha hb first second] at ab
    rw [order hb hd second third] at bd
    rw [order ha hd first third] at ad
    cases ab
    cases bd
    cases ad
    exact Field.keyOrder_trans (kind.trans kind'.symm) (kind'.trans kind''.symm)
  · intro isPrimitive a b o ha hb compared
    obtain ⟨p, type⟩ := Option.isSome_iff_exists.mp isPrimitive
    obtain ⟨x, ours, kind⟩ := kinds a ha
    obtain ⟨y, theirs, kind'⟩ := kinds b hb
    obtain ⟨s, rfl, rfl⟩ := Value.kind?_eq_some_iff.mp (kind.trans type)
    obtain ⟨t, rfl, same⟩ := Value.kind?_eq_some_iff.mp (kind'.trans type)
    rw [order ha hb ours theirs] at compared
    cases compared
    obtain ⟨o, ordered⟩ := Scalar.exists_order? same.symm
    refine ⟨s, t, ours, theirs, same.symm, ?_⟩
    rw [Field.swap_keyOrder_eq_order, Value.order_scalar ordered]
    exact Scalar.order?_tells ordered
  · intro other a b ha hb
    obtain ⟨x, ours, kind⟩ := kinds a ha
    obtain ⟨y, theirs, -⟩ := kinds b hb
    have none : key.type.asPrimitive? = none :=
      Option.isNone_iff_eq_none.mp (Option.isSome_eq_false_iff.mp other)
    rw [order ha hb ours theirs, Field.keyOrder_eq (kind.trans none)]

/-- Records of one table are in order by its sort key where that can be read and is of its kind. -/
theorem sortedBy_of_kind? {P : Record → Prop} (own : ∀ r, P r → r.table = t)
    (sorted : t.sortKey? = some key)
    (kinds : ∀ r, P r → ∃ v, r.get key = .ok v ∧ v.kind? = key.type.asPrimitive?) :
    SortedBy key P := by
  refine sortedBy_of_keys ?_ ?_ kinds
  · intro a b ha hb
    rw [own a ha, own b hb]
  · intro a ha
    refine ⟨key, ?_, rfl, fun _ _ => rfl⟩
    rw [own a ha, sorted]

/-- **Records are in a total order by their sort key**, provided that it can be read. -/
theorem sortedBy_sortKey (given : Registry.GivesCodec limits (fun _ => True) t c)
    (valid : c.table.Valid) (sorted : c.table.sortKey? = some key) :
    SortedBy key fun r => Obtained c r ∧ ∃ v, r.get key = .ok v := by
  have compiled := (given.compiled nestedIn_true).inside.here
  have orderly {r : Record} (h : Obtained c r) : Orderly c r :=
    h.orderly (compiled.sound valid.numbered)
  obtain ⟨hf, isSortKey⟩ := valid.sortKey?_eq_some_iff.mp sorted
  have checked := Table.checkField valid.checked (List.mem_filter.mp hf).1
  have required : key.isRequired = true := (Field.sortKey_of_check checked isSortKey).1
  refine sortedBy_of_kind? ?_ sorted ?_
  · rintro r ⟨h, -⟩
    exact congrArg TableCodec.table (orderly h).codec
  · rintro r ⟨h, v, read⟩
    exact ⟨v, read, (orderly h).kind?_of_get (compiled.serves valid) hf required read⟩

end Record

namespace Household

def sortedPersonCodec : TableCodec :=
  ⟨sortedPerson, limits, [⟨⟨1, "name", .primitive .string, .required, none⟩, .string⟩,
    ⟨sortedAge, .fixed .int32 ⟨0⟩⟩]⟩

theorem givesCodec_sortedPerson :
    Registry.GivesCodec limits (fun _ => True) sortedPerson sortedPersonCodec :=
  ⟨trivial, { limits }, .fresh, by cbv⟩

theorem valid_sortedPerson : sortedPerson.Valid :=
  (Schema.made_of_build Interner.Reachable.empty.plain built_sorted).valid rfl
    (List.mem_singleton.mpr rfl)

/-- A person of some age. -/
def aging (age : Int32) : Record :=
  .holding sortedPersonCodec [(1, .scalar (.string "Ann")), (2, .scalar (.int32 age))]

theorem obtained_aging (age : Int32) : Record.Obtained sortedPersonCodec (aging age) :=
  .change (.setName "age" (.scalar (.int32 age)))
    (.change (.setName "name" (.scalar (.string "Ann"))) (.arises .empty))

theorem get_aging (age : Int32) : (aging age).get sortedAge = .ok (.scalar (.int32 age)) := by cbv

/-- Who is older comes first. -/
theorem sortedBy_sortedAge : ∃ s t, (aging 8).get sortedAge = .ok (.scalar s) ∧
    (aging 7).get sortedAge = .ok (.scalar t) ∧ s.kind = t.kind ∧
      Tells .gt (s.Precedes t) (s = t) (t.Precedes s) :=
  (Record.sortedBy_sortKey givesCodec_sortedPerson valid_sortedPerson rfl).natural rfl
    (aging 8) (aging 7) .lt ⟨obtained_aging 8, _, get_aging 8⟩ ⟨obtained_aging 7, _, get_aging 7⟩
    (by cbv)

/-- Families are sorted by the ages of their members. -/
def familyDefinition : Definition := ⟨"Household", [
  ⟨"Family", 1, [⟨1, "ages", "list<int32>", ["required", "asc_sorted"], none⟩]⟩]⟩

def ages : Field :=
  ⟨1, "ages", .list (.primitive .int32), { presence := .required, sort := some .ascending }, none⟩

def family : Table := ⟨"Family", 1, [ages]⟩

theorem built_family :
    ((familyDefinition.build .strict).run {}).1 = .ok ⟨"Household", [family]⟩ := by cbv

def familyCodec : TableCodec := ⟨family, limits, [⟨ages, .list (.fixed .int32 ⟨0⟩) 10⟩]⟩

theorem givesCodec_family : Registry.GivesCodec limits (fun _ => True) family familyCodec :=
  ⟨trivial, { limits }, .fresh, by cbv⟩

theorem valid_family : family.Valid :=
  (Schema.made_of_build Interner.Reachable.empty.plain built_family).valid rfl
    (List.mem_singleton.mpr rfl)

/-- A family with one member. -/
def single (age : Int32) : Record :=
  .holding familyCodec [(1, .list [.scalar (.int32 age)])]

theorem obtained_single (age : Int32) : Record.Obtained familyCodec (single age) :=
  .change (.setName "ages" (.list [.scalar (.int32 age)])) (.arises .empty)

/-- Two families whose ages differ are equal in the order of their ages. -/
theorem compareByKey_families : Registry.GivesCodec limits (fun _ => True) family familyCodec ∧
    family.Valid ∧ family.sortKey? = some ages ∧
      ∃ a b x y, Record.Obtained familyCodec a ∧ a.isComplete = true ∧ a.get ages = .ok x ∧
        Record.Obtained familyCodec b ∧ b.isComplete = true ∧ b.get ages = .ok y ∧
          a.compareByKey b = .ok .eq ∧ x ≠ y := by
  refine ⟨givesCodec_family, valid_family, rfl, single 1, single 2,
    .list [.scalar (.int32 1)], .list [.scalar (.int32 2)],
    obtained_single 1, by cbv, by cbv, obtained_single 2, by cbv, by cbv, by cbv, ?_⟩
  intro same
  simp at same

end Household

end RecordFormat
