import RecordFormat.Outcome
import RecordFormat.Record.IdMap
import RecordFormat.Record.Program

/-!
# Values and records

A value is a scalar, a list, or the record of a group. A record reads from the buffer it was
made from or last finished, if any; changes since then are staged beside it: `pending` values
and `cleared` numbers. Derived fields may be bound to a computation over the record.
-/

namespace RecordFormat

mutual

/-- What a field holds. -/
inductive Value where
  | scalar (s : Scalar)
  | list (items : List Value)
  | group (record : Record)

/-- A record of one table. -/
structure Record where
  codec : TableCodec
  buffer : Option RecordBuffer
  pending : List (Int16 × Value)
  cleared : List Int16
  derived : List (String × Derivation)

/-- The computation of a derived field: a value that it was given, or a program that runs on the
record. -/
inductive Derivation where
  | const (value : Value)
  | compute (program : PlainRecord → Program)

end

instance : Inhabited Value := ⟨.list []⟩

namespace Value

/-- The name of the type, as far as a value shows it. -/
def typeName : Value → String
  | .scalar s => s.kind.name
  | .list _ => "list"
  | .group _ => "group"

def asScalar? : Value → Option Scalar
  | .scalar s => some s
  | _ => none

def asList? : Value → Option (List Value)
  | .list items => some items
  | _ => none

def asRecord? : Value → Option Record
  | .group r => some r
  | _ => none

def isScalar (v : Value) : Bool := v.asScalar?.isSome

def asInt? (v : Value) : Option Int64 := v.asScalar?.bind Scalar.asInt?

def asString? (v : Value) : Option String := v.asScalar?.bind Scalar.asString?

/-- The order of two scalars of one kind. -/
def order? (a b : Value) : Option Ordering := do (← a.asScalar?).order? (← b.asScalar?)

end Value

/-! ## Computations -/

mutual

def Value.plain : Value → PlainValue
  | .scalar s => .scalar s
  | .list items => .list (plainItems items)
  | .group r => .group r.plain

def Record.plain : Record → PlainRecord
  | ⟨codec, buffer, pending, cleared, _⟩ => ⟨codec, buffer, plainPending pending, cleared⟩

def plainItems : List Value → List PlainValue
  | [] => []
  | v :: rest => v.plain :: plainItems rest

def plainPending : List (Int16 × Value) → List (Int16 × PlainValue)
  | [] => []
  | (id, v) :: rest => (id, v.plain) :: plainPending rest

end

/-- What a program comes to where `reader` gives the values of fields; nothing, when it asks for a
value that never comes. -/
def Program.run (reader : String → Option (Except RecordError Value)) :
    Program → Option (Except RecordError Value)
  | .answer result => some (.scalar <$> result)
  | .pass field => reader field
  | .ask field next =>
    match reader field with
    | some told => (next (Value.plain <$> told)).run reader
    | none => none

namespace Derivation

/-- What a computation comes to on a record. -/
def run (r : Record) (reader : String → Option (Except RecordError Value)) :
    Derivation → Option (Except RecordError Value)
  | .const v => some (.ok v)
  | .compute program => (program r.plain).run reader

/-- The sum of the integers among the fields, modulo 2 ^ 64. -/
def sum (fields : List String) : Derivation :=
  .compute fun _ => Program.askAll (fun values =>
    .answer (.ok (.int64 ((values.map fun v =>
      (v.asScalar?.bind Scalar.asInt?).getD 0).foldl (· + ·) 0)))) fields

/-- The strings among the fields, joined. -/
def concat (fields : List String) : Derivation :=
  .compute fun _ => Program.askAll (fun values =>
    .answer (.ok (.string (String.join (values.map fun v =>
      (v.asScalar?.bind Scalar.asString?).getD ""))))) fields

/-- The number of elements, or -1 if the field is no list. -/
def listLength (field : String) : Derivation :=
  .compute fun _ => .ask field fun
    | .ok (.list items) => .answer (.ok (.int64 (.ofNat items.length)))
    | .ok _ => .answer (.ok (.int64 (-1)))
    | .error e => .answer (.error e)

def get (field : String) : Derivation := .compute fun _ => .pass field

/-- Never a value: a missing field of the given name. -/
def fail (field : String) : Derivation :=
  .compute fun r => .answer (.error (.noValue r.codec.table.name field))

end Derivation

/-- Rejection of a value by an operator. -/
def Operator.reject (op : Operator) (v : Value) : CodecError :=
  .invalidValue op.typeText v.typeName

/-- Reading a field definition's default: only scalars are defaults, which is checked last. -/
def Field.createWith (id : Int16) (name : String) (type : FieldType) (constraints : Constraints)
    (default : Option Value) : Except ModelError Field := do
  let f ← Field.create id name type constraints (default.bind Value.asScalar?)
  match default with
  | some v => if v.isScalar then return f else throw (.nonScalarDefault name v.typeName)
  | none => return f

/-- What reading an absent optional field gives: its default, an empty binary or list, or
nothing for groups. -/
def Field.effectiveDefault? (f : Field) : Option Value :=
  match f.default, f.type with
  | some s, _ => some (.scalar s)
  | none, .primitive .binary => some (.scalar (.binary .empty))
  | none, .list _ => some (.list [])
  | none, _ => none

mutual

/-- How deep values nest, counting what the codec of a record may still hold. -/
def Value.depth : Value → Nat
  | .scalar _ => 0
  | .list items => depthOfItems items + 1
  | .group r => r.depth

def Record.depth : Record → Nat
  | ⟨codec, _, pending, _, derived⟩ =>
    max (codec.depth + 1) (max (depthOfPending pending) (depthOfDerived derived)) + 1

def depthOfItems : List Value → Nat
  | [] => 0
  | v :: rest => max v.depth (depthOfItems rest)

def depthOfPending : List (Int16 × Value) → Nat
  | [] => 0
  | (_, v) :: rest => max v.depth (depthOfPending rest)

def depthOfDerived : List (String × Derivation) → Nat
  | [] => 0
  | (_, d) :: rest => max d.depth (depthOfDerived rest)

def Derivation.depth : Derivation → Nat
  | .const v => v.depth
  | _ => 0

end

theorem Value.depth_le_depthOfItems {v : Value} {items : List Value} (h : v ∈ items) :
    v.depth ≤ depthOfItems items := by
  induction items with
  | nil => cases h
  | cons w rest ih =>
    rw [depthOfItems]
    rcases List.mem_cons.1 h with rfl | h
    · exact Nat.le_max_left ..
    · exact Nat.le_trans (ih h) (Nat.le_max_right ..)

theorem depthOfItems_le {items : List Value} {n : Nat} (h : ∀ v ∈ items, v.depth ≤ n) :
    depthOfItems items ≤ n := by
  induction items with
  | nil => exact Nat.zero_le n
  | cons w rest ih =>
    rw [depthOfItems]
    exact Nat.max_le.2 ⟨h w (List.mem_cons_self ..),
      ih fun v hv => h v (List.mem_cons_of_mem _ hv)⟩

theorem Value.depth_le_depthOfPending {e : Int16 × Value} {pending : List (Int16 × Value)}
    (h : e ∈ pending) : e.2.depth ≤ depthOfPending pending := by
  induction pending with
  | nil => cases h
  | cons f rest ih =>
    obtain ⟨i, v⟩ := f
    rw [depthOfPending]
    rcases List.mem_cons.1 h with rfl | h
    · exact Nat.le_max_left ..
    · exact Nat.le_trans (ih h) (Nat.le_max_right ..)

theorem Derivation.depth_le_depthOfDerived {e : String × Derivation}
    {derived : List (String × Derivation)} (h : e ∈ derived) :
    e.2.depth ≤ depthOfDerived derived := by
  induction derived with
  | nil => cases h
  | cons f rest ih =>
    obtain ⟨i, d⟩ := f
    rw [depthOfDerived]
    rcases List.mem_cons.1 h with rfl | h
    · exact Nat.le_max_left ..
    · exact Nat.le_trans (ih h) (Nat.le_max_right ..)

theorem Record.depth_eq (r : Record) :
    r.depth = max (r.codec.depth + 1) (max (depthOfPending r.pending) (depthOfDerived r.derived))
      + 1 := by
  cases r
  rfl

theorem Record.depth_pending_lt {r : Record} {e : Int16 × Value} (h : e ∈ r.pending) :
    e.2.depth < r.depth := by
  have := Value.depth_le_depthOfPending h
  have := r.depth_eq
  omega

/-- A program comes to nothing deeper than what it reads. -/
theorem Program.depth_of_run {reader : String → Option (Except RecordError Value)} {p : Program}
    {v : Value} {n : Nat} (pos : 0 < n)
    (shallow : ∀ field w, reader field = some (.ok w) → w.depth < n)
    (h : p.run reader = some (.ok v)) : v.depth < n := by
  induction p with
  | answer result =>
    obtain ⟨s, _, rfl⟩ := Outcome.map_eq_ok_iff.1 (Option.some.inj h)
    simpa [Value.depth] using pos
  | pass field => exact shallow field v h
  | ask field next ih =>
    rw [run] at h
    split at h
    · exact ih _ h
    · cases h

theorem Record.depth_derived_lt {r : Record} {e : String × Derivation} (h : e ∈ r.derived) :
    e.2.depth < r.depth := by
  have := Derivation.depth_le_depthOfDerived h
  have := r.depth_eq
  omega

end RecordFormat
