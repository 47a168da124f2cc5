import RecordFormat.Wire.Operator

/-!
# The registry

Operators and table codecs are compiled once and kept: an operator under its type, groups
taken by name, together with the version of the table it refers to; a codec under the name
and version of its table. The first one kept under a key stays.
-/

namespace RecordFormat

/-- What an operator is kept under. -/
structure OperatorKey where
  type : FieldType
  version : Option Int16

/-- The key of a type's operator. -/
def FieldType.operatorKey (t : FieldType) : OperatorKey :=
  ⟨t.detach, t.group?.bind fun (_, table) => table.map Table.version⟩

def OperatorKey.same (a b : OperatorKey) : Bool :=
  a.type.same b.type && a.version = b.version

/-- What the codec of a table is kept under. -/
def Table.codecKey (t : Table) : String × Int16 := (t.name, t.version)

/-- The limits for everything compiled, and what has been compiled. -/
structure Registry where
  limits : Limits
  operators : List (OperatorKey × Operator) := []
  codecs : List ((String × Int16) × TableCodec) := []

/-- A request to the registry. A failing request keeps what it has compiled. -/
abbrev RegistryM := ExceptT CodecError (StateM Registry)

namespace Registry

/-- The operator kept under a key. -/
def operator? (key : OperatorKey) : RegistryM (Option Operator) := do
  return ((← get).operators.find? fun e => e.1.same key).map Prod.snd

/-- Keeps an operator, unless there is one under the key; the one that is kept. -/
def keepOperator (key : OperatorKey) (op : Operator) : RegistryM Operator := do
  match ← operator? key with
  | some kept => return kept
  | none =>
    modify fun r => { r with operators := r.operators ++ [(key, op)] }
    return op

/-- The codec kept under a key. -/
def codec? (key : String × Int16) : RegistryM (Option TableCodec) := do
  return ((← get).codecs.find? fun e => e.1 = key).map Prod.snd

/-- Keeps a codec, unless there is one under the key; the one that is kept. -/
def keepCodec (key : String × Int16) (codec : TableCodec) : RegistryM TableCodec := do
  match ← codec? key with
  | some kept => return kept
  | none =>
    modify fun r => { r with codecs := r.codecs ++ [(key, codec)] }
    return codec

end Registry

/-- The stored fields of a table in the order of their numbers. -/
def Table.layoutFields (t : Table) : List Field :=
  t.storedFields.mergeSort fun f g => f.id ≤ g.id

theorem Table.mem_layoutFields {t : Table} {f : Field} :
    f ∈ t.layoutFields ↔ f ∈ t.fields ∧ f.isStored := by
  simp [layoutFields, storedFields, List.mem_filter]

theorem Table.sizeOf_type_lt {t : Table} {f : Field} (h : f ∈ t.layoutFields) :
    sizeOf f.type < sizeOf t :=
  Table.sizeOf_fieldType_lt (Table.mem_layoutFields.1 h).1

mutual

/-- The operator of a type. Sentinels and unbound groups have none. -/
def FieldType.operator (t : FieldType) : RegistryM Operator := do
  match ← Registry.operator? t.operatorKey with
  | some op => return op
  | none =>
    let op ← match t with
      | .primitive p => liftExcept (Operator.ofPrimitive (← get).limits.floatMagnitude p)
      | .unbound group => throw (.unresolvedGroup group)
      | .bound table => pure (.group (← table.codec))
      | .list element => pure (.list (← element.operator) (← get).limits.maxListElements)
    Registry.keepOperator t.operatorKey op
termination_by (sizeOf t, 0)

/-- The codec of a table: the operators of its stored fields, by number. -/
def Table.codec (t : Table) : RegistryM TableCodec := do
  match ← Registry.codec? t.codecKey with
  | some codec => return codec
  | none =>
    let slots ← t.layoutFields.attach.mapM fun ⟨f, _h⟩ => do
      return Slot.mk f (← f.type.operator)
    Registry.keepCodec t.codecKey ⟨t, (← get).limits, slots⟩
termination_by (sizeOf t, 1)
decreasing_by
  exact Prod.Lex.left _ _ (Table.sizeOf_type_lt _h)

end

namespace Registry

/-- True when two types have one operator. -/
def sameOperator (a b : FieldType) : RegistryM Bool := do
  let _ ← a.operator
  let _ ← b.operator
  return a.operatorKey.same b.operatorKey

/-- True when two tables have one codec. -/
def sameCodec (a b : Table) : RegistryM Bool := do
  let _ ← a.codec
  let _ ← b.codec
  return a.codecKey = b.codecKey

def description (r : Registry) : String :=
  s!"OperatorRegistry \x7b config: {r.limits.description}, operators: {r.operators.length}, " ++
    s!"codecs: {r.codecs.length} \x7d"

end Registry

end RecordFormat
