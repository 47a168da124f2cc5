import RecordFormat.Proofs.Record.Equality

/-!
# Codecs inside codecs, records inside values

An operator is a finite tree of codecs, and a value is one of records. `Everywhere` speaks of
the codecs of a tree, `Holds` of the values that fit it: every group value is a record of the
very codec that its operator has, and can be read.
-/

namespace RecordFormat

open Value (Readable)

/-- `P` holds of every codec inside. -/
inductive Operator.Everywhere (P : TableCodec → Prop) : Operator → Prop
  | fixed (kind : FixedKind) (limit : Binary64) : Everywhere P (.fixed kind limit)
  | string : Everywhere P .string
  | binary : Everywhere P .binary
  | group {codec : TableCodec} : P codec → (∀ s ∈ codec.slots, Everywhere P s.operator) →
      Everywhere P (.group codec)
  | list {element : Operator} {maxElements : Nat} : Everywhere P element →
      Everywhere P (.list element maxElements)

/-- `P` holds of a codec and every codec inside. -/
def TableCodec.Everywhere (P : TableCodec → Prop) (c : TableCodec) : Prop :=
  (Operator.group c).Everywhere P

namespace TableCodec.Everywhere

variable {P Q : TableCodec → Prop} {c : TableCodec}

theorem here (h : c.Everywhere P) : P c := by
  cases h
  assumption

theorem slot (h : c.Everywhere P) {s : Slot} (hs : s ∈ c.slots) : s.operator.Everywhere P := by
  cases h with
  | group _ slots => exact slots s hs

theorem intro (here : P c) (slots : ∀ s ∈ c.slots, s.operator.Everywhere P) :
    c.Everywhere P := .group here slots

end TableCodec.Everywhere

theorem Operator.Everywhere.element {P : TableCodec → Prop} {op : Operator} {maxElements : Nat}
    (h : (Operator.list op maxElements).Everywhere P) : op.Everywhere P := by
  cases h
  assumption

theorem Operator.Everywhere.imp {P Q : TableCodec → Prop} {op : Operator}
    (h : op.Everywhere P) (imp : ∀ c, P c → Q c) : op.Everywhere Q := by
  induction h with
  | fixed kind limit => exact .fixed kind limit
  | string => exact .string
  | binary => exact .binary
  | group here _ ih => exact .group (imp _ here) ih
  | list _ ih => exact .list ih

theorem Operator.Everywhere.and {P Q : TableCodec → Prop} {op : Operator}
    (h : op.Everywhere P) (h' : op.Everywhere Q) : op.Everywhere fun c => P c ∧ Q c := by
  induction h with
  | fixed kind limit => exact .fixed kind limit
  | string => exact .string
  | binary => exact .binary
  | group here _ ih =>
      cases h' with
      | group here' slots' => exact .group ⟨here, here'⟩ fun s hs => ih s hs (slots' s hs)
  | list _ ih => exact .list (ih h'.element)

/-- What holds of every codec inside holds inside each of them. -/
theorem Operator.Everywhere.nested {P : TableCodec → Prop} {op : Operator}
    (h : op.Everywhere P) : op.Everywhere fun c => c.Everywhere P := by
  induction h with
  | fixed kind limit => exact .fixed kind limit
  | string => exact .string
  | binary => exact .binary
  | group here slots ih => exact .group (.group here slots) ih
  | list _ ih => exact .list ih

/-! ## Values that fit -/

/-- Where the operator has a group, the value has a record of the group's own codec that can be
read at every depth and satisfies `P`; and so on inside. -/
inductive Operator.Holds (P : Record → Prop) : Operator → Value → Prop
  | fixed (kind : FixedKind) (limit : Binary64) (s : Scalar) :
      Holds P (.fixed kind limit) (.scalar s)
  | string (s : Scalar) : Holds P .string (.scalar s)
  | binary (s : Scalar) : Holds P .binary (.scalar s)
  | list {element : Operator} {maxElements : Nat} {items : List Value} :
      (∀ v ∈ items, Holds P element v) → Holds P (.list element maxElements) (.list items)
  | group {r : Record} {m : IdMap Value} : P r → r.values = .ok m →
      (∀ i v, m.find? i = some v → Readable v) →
      (∀ i v s, m.find? i = some v → r.codec.slot? i = some s → Holds P s.operator v) →
      Holds P (.group r.codec) (.group r)

/-- Every value of a map fits the slot of its number. -/
def TableCodec.HoldsAll (P : Record → Prop) (c : TableCodec) (m : IdMap Value) : Prop :=
  ∀ i v s, m.find? i = some v → c.slot? i = some s → s.operator.Holds P v

namespace Operator.Holds

variable {P : Record → Prop} {op : Operator} {v : Value}

theorem readable (h : op.Holds P v) : Readable v := by
  induction h with
  | fixed _ _ s | string s | binary s => exact .scalar s
  | list _ ih => exact .list ih
  | group _ read inside _ _ => exact .group read inside

end Operator.Holds

end RecordFormat
