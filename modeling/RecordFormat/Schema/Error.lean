import RecordFormat.Schema.Scalar

/-!
# Causes of failure in the model

Why a field, a table or a schema cannot be made, and the wording of each cause.
-/

namespace RecordFormat

/-- Why a list of constraint names is contradictory. -/
inductive ConstraintConflict where
  | presenceTwice
  | sortTwice
  | presenceMissing
  deriving DecidableEq, Repr

def ConstraintConflict.message : ConstraintConflict → String
  | .presenceTwice => "exactly one of required/optional may be set"
  | .sortTwice => "at most one sort order may be set"
  | .presenceMissing => "one of required/optional must be set"

/-- Why a default cannot be read from a definition or written to one. -/
inductive DefaultFault where
  /-- the literal is no value of the field's kind -/
  | unreadable (fault : JsonFault)
  /-- a field of this type takes no default -/
  | notAllowed (type : String)
  /-- the default of this kind has no JSON form -/
  | unwritable (kind : Primitive) (fault : JsonFault)

def DefaultFault.message : DefaultFault → String
  | .unreadable fault => fault.message
  | .notAllowed type => s!"type {type} takes no default"
  | .unwritable kind fault => s!"Invalid JSON for field '{kind.name}': {fault.message}"

/-- Why a part of a schema cannot be made. -/
inductive ModelError where
  | negativeFieldId (field : String) (id : Int16)
  | emptyFieldName
  | emptyTableName
  | unsupportedType (field type : String)
  | nonScalarDefault (field got : String)
  | invalidCollectionElement (element : String)
  | duplicateFieldId (table : String) (id : Int16) (first second : String)
  | duplicateFieldName (table field : String)
  | duplicateTable (schema table : String)
  | unresolvedGroup (table field group : String)
  | cyclicGroup (table : String)
  | unknownType (type : String)
  | unknownConstraint (name : String)
  | conflictingConstraints (conflict : ConstraintConflict)
  | invalidDefault (field : String) (fault : DefaultFault)
  /-- a definition file cannot be read or written, for the stated reason -/
  | io (path reason : String)
  /-- a text is no schema definition -/
  | malformed

/-- The name of the cause. -/
def ModelError.name : ModelError → String
  | .negativeFieldId .. => "NegativeFieldId"
  | .emptyFieldName => "EmptyFieldName"
  | .emptyTableName => "EmptyTableName"
  | .unsupportedType .. => "UnsupportedType"
  | .nonScalarDefault .. => "NonScalarDefault"
  | .invalidCollectionElement .. => "InvalidCollectionElement"
  | .duplicateFieldId .. => "DuplicateFieldId"
  | .duplicateFieldName .. => "DuplicateFieldName"
  | .duplicateTable .. => "DuplicateTable"
  | .unresolvedGroup .. => "UnresolvedGroup"
  | .cyclicGroup .. => "CyclicGroup"
  | .unknownType .. => "UnknownType"
  | .unknownConstraint .. => "UnknownConstraint"
  | .conflictingConstraints .. => "ConflictingConstraints"
  | .invalidDefault .. => "InvalidDefault"
  | .io .. => "Io"
  | .malformed => "Parse"

def ModelError.message : ModelError → String
  | .negativeFieldId field id => s!"Field '{field}' has negative id {id}"
  | .emptyFieldName => "Field name must not be empty"
  | .emptyTableName => "Table name must not be empty"
  | .unsupportedType field type => s!"Field '{field}' uses unsupported type '{type}'"
  | .nonScalarDefault field got =>
    s!"Field '{field}' default value must be a scalar, got {got}"
  | .invalidCollectionElement element =>
    s!"Collection element type '{element}' is not allowed"
  | .duplicateFieldId table id first second =>
    s!"Duplicate field id {id} in table '{table}' ('{first}' and '{second}')"
  | .duplicateFieldName table field => s!"Duplicate field name '{field}' in table '{table}'"
  | .duplicateTable schema table => s!"Duplicate table '{table}' in schema '{schema}'"
  | .unresolvedGroup table field group =>
    s!"Field '{table}.{field}' references unknown table '{group}'"
  | .cyclicGroup table => s!"Group reference cycle through table '{table}'"
  | .unknownType type => s!"Unknown type '{type}'"
  | .unknownConstraint name => s!"Unknown constraint '{name}'"
  | .conflictingConstraints conflict => s!"Conflicting constraints: {conflict.message}"
  | .invalidDefault field fault => s!"Field '{field}' has invalid default: {fault.message}"
  | .io path reason => s!"Failed to read schema definition: {path}: {reason}"
  | .malformed => "Failed to parse schema definition"

end RecordFormat
