import RecordFormat.Schema.Scalar
import RecordFormat.Wire.Error

/-!
# Causes of failure in using records

Why a record cannot be read, changed, compared or converted, and the wording of each cause. That
a read goes on without end, because a derived field needs its own value, is told here as a cause.
-/

namespace RecordFormat

inductive RecordError where
  | missingRequired (table field : String)
  | noValue (table field : String)
  | unknownField (table field : String)
  | valueRejected (table field expected got : String)
  | derivedNotBound (table field : String)
  /-- the value of the field needs itself -/
  | endless (table field : String)
  | derivedNotWritable (table field : String)
  | notDerived (table field : String)
  | notOptional (table field : String)
  | notACollection (table field : String)
  | indexOutOfRange (field : String) (index length : Nat)
  | noSortKey (table : String)
  | tableMismatch (expected got : String)
  | json (field : String) (fault : JsonFault)
  | codec (cause : CodecError)

namespace RecordError

/-- The name of the cause. -/
def name : RecordError → String
  | .missingRequired .. => "MissingRequired"
  | .noValue .. => "NoValue"
  | .unknownField .. => "UnknownField"
  | .valueRejected .. => "ValueRejected"
  | .derivedNotBound .. => "DerivedNotBound"
  | .endless .. => "Endless"
  | .derivedNotWritable .. => "DerivedNotWritable"
  | .notDerived .. => "NotDerived"
  | .notOptional .. => "NotOptional"
  | .notACollection .. => "NotACollection"
  | .indexOutOfRange .. => "IndexOutOfRange"
  | .noSortKey .. => "NoSortKey"
  | .tableMismatch .. => "TableMismatch"
  | .json .. => "Json"
  | .codec cause => cause.name

def message : RecordError → String
  | .missingRequired table field => s!"Required field '{field}' of table '{table}' is not set"
  | .noValue table field => s!"Field '{field}' of table '{table}' has no value and no default"
  | .unknownField table field => s!"Field '{field}' not found in table '{table}'"
  | .valueRejected table field expected got =>
    s!"Value rejected for field '{table}.{field}': expected {expected}, got {got}"
  | .derivedNotBound table field =>
    s!"Derived field '{field}' of table '{table}' has no bound computation"
  | .endless table field =>
    s!"Reading derived field '{field}' of table '{table}' does not end"
  | .derivedNotWritable table field => s!"Derived field '{field}' of table '{table}' cannot be set"
  | .notDerived table field => s!"Field '{field}' of table '{table}' is not derived"
  | .notOptional table field =>
    s!"Field '{field}' of table '{table}' is required and cannot be cleared"
  | .notACollection table field => s!"Field '{field}' of table '{table}' is not a collection"
  | .indexOutOfRange field index length =>
    s!"Index {index} out of range for field '{field}' with {length} elements"
  | .noSortKey table => s!"Table '{table}' has no sort key"
  | .tableMismatch expected got => s!"Table mismatch: expected '{expected}', got '{got}'"
  | .json field fault => s!"Invalid JSON for field '{field}': {fault.message}"
  | .codec cause => cause.message

/-- A failure of reading or writing octets, as a failure of the record. -/
def lift {α : Type} (result : Except CodecError α) : Except RecordError α :=
  result.mapError .codec

/-- A failure of a nested record, as a failure of reading or writing octets. -/
def nest {α : Type} (table : String) (result : Except RecordError α) : Except CodecError α :=
  result.mapError fun e => .nestedRecord table e.message

end RecordError

end RecordFormat
