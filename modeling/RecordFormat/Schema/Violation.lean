import RecordFormat.Schema.Basic

/-!
# Violations

What a schema can do wrong, on its own or as the successor of another one: the rule, the
table it concerns, and the wording.
-/

namespace RecordFormat

/-- Families of rules. -/
inductive Rule where
  | naming
  | derivedField
  | sortKey
  | largeList
  | fieldType
  | defaultValue
  | tableVersion
  | groupReference
  | compatibility
  deriving DecidableEq, Repr

/-- The name of a family. -/
def Rule.name : Rule → String
  | .naming => "Naming"
  | .derivedField => "DerivedField"
  | .sortKey => "SortKey"
  | .largeList => "LargeList"
  | .fieldType => "FieldType"
  | .defaultValue => "DefaultValue"
  | .tableVersion => "TableVersion"
  | .groupReference => "GroupReference"
  | .compatibility => "Compatibility"

/-- A violated rule and its culprits, by name. -/
inductive Violation where
  | invalidFieldName (table field : String)
  | invalidTableName (table : String)
  | invalidSchemaName (schema : String)
  | derivedIdMismatch (table field : String) (id : Int16)
  | derivedNotPrimitive (table field : String)
  | derivedNotOptional (table field : String)
  | derivedSortKey (table field : String)
  | derivedFrequentlyUsed (table field : String)
  | sortKeyNotRequired (table field : String)
  | multipleSortKeys (table first second : String)
  | largeListNotCollection (table field : String)
  | unsupportedType (table field type : String)
  | missingDefault (table field : String)
  | unexpectedDefault (table field : String)
  | incompatibleDefault (table field expected got : String)
  | invalidTableVersion (table : String) (version : Int16)
  | unresolvedGroup (table field group : String)
  | tableRemoved (table : String)
  | fieldRemoved (table field : String) (id : Int16)
  | fieldTypeChanged (table field before after : String)
  | presenceNarrowed (table field : String)
  | presenceWidened (table field : String)
  | sortKeyChanged (table field : String)
  | newFieldNotOptional (table field : String)
  | newFieldWithoutDefault (table field : String)
  | tableVersionRegressed (table : String) (before after : Int16)
  deriving DecidableEq, Repr

namespace Violation

/-- The name of the violated rule. -/
def name : Violation → String
  | .invalidFieldName .. => "InvalidFieldName"
  | .invalidTableName .. => "InvalidTableName"
  | .invalidSchemaName .. => "InvalidSchemaName"
  | .derivedIdMismatch .. => "DerivedIdMismatch"
  | .derivedNotPrimitive .. => "DerivedNotPrimitive"
  | .derivedNotOptional .. => "DerivedNotOptional"
  | .derivedSortKey .. => "DerivedSortKey"
  | .derivedFrequentlyUsed .. => "DerivedFrequentlyUsed"
  | .sortKeyNotRequired .. => "SortKeyNotRequired"
  | .multipleSortKeys .. => "MultipleSortKeys"
  | .largeListNotCollection .. => "LargeListNotCollection"
  | .unsupportedType .. => "UnsupportedType"
  | .missingDefault .. => "MissingDefault"
  | .unexpectedDefault .. => "UnexpectedDefault"
  | .incompatibleDefault .. => "IncompatibleDefault"
  | .invalidTableVersion .. => "InvalidTableVersion"
  | .unresolvedGroup .. => "UnresolvedGroup"
  | .tableRemoved .. => "TableRemoved"
  | .fieldRemoved .. => "FieldRemoved"
  | .fieldTypeChanged .. => "FieldTypeChanged"
  | .presenceNarrowed .. => "PresenceNarrowed"
  | .presenceWidened .. => "PresenceWidened"
  | .sortKeyChanged .. => "SortKeyChanged"
  | .newFieldNotOptional .. => "NewFieldNotOptional"
  | .newFieldWithoutDefault .. => "NewFieldWithoutDefault"
  | .tableVersionRegressed .. => "TableVersionRegressed"

/-- The family of the violated rule. -/
def rule : Violation → Rule
  | .invalidFieldName .. | .invalidTableName .. | .invalidSchemaName .. => .naming
  | .derivedIdMismatch .. | .derivedNotPrimitive .. | .derivedNotOptional ..
  | .derivedSortKey .. | .derivedFrequentlyUsed .. => .derivedField
  | .sortKeyNotRequired .. | .multipleSortKeys .. => .sortKey
  | .largeListNotCollection .. => .largeList
  | .unsupportedType .. => .fieldType
  | .missingDefault .. | .unexpectedDefault .. | .incompatibleDefault .. => .defaultValue
  | .invalidTableVersion .. => .tableVersion
  | .unresolvedGroup .. => .groupReference
  | .tableRemoved .. | .fieldRemoved .. | .fieldTypeChanged .. | .presenceNarrowed ..
  | .presenceWidened .. | .sortKeyChanged .. | .newFieldNotOptional ..
  | .newFieldWithoutDefault .. | .tableVersionRegressed .. => .compatibility

/-- The table concerned; a schema's own name concerns none. -/
def table? : Violation → Option String
  | .invalidSchemaName _ => none
  | .invalidFieldName table _ | .invalidTableName table | .derivedIdMismatch table _ _
  | .derivedNotPrimitive table _ | .derivedNotOptional table _ | .derivedSortKey table _
  | .derivedFrequentlyUsed table _ | .sortKeyNotRequired table _
  | .multipleSortKeys table _ _ | .largeListNotCollection table _
  | .unsupportedType table _ _ | .missingDefault table _ | .unexpectedDefault table _
  | .incompatibleDefault table _ _ _ | .invalidTableVersion table _
  | .unresolvedGroup table _ _ | .tableRemoved table | .fieldRemoved table _ _
  | .fieldTypeChanged table _ _ _ | .presenceNarrowed table _ | .presenceWidened table _
  | .sortKeyChanged table _ | .newFieldNotOptional table _
  | .newFieldWithoutDefault table _ | .tableVersionRegressed table _ _ => some table

def message : Violation → String
  | .invalidFieldName table field =>
    s!"Field name '{field}' in table '{table}' must start with a lowercase letter and contain " ++
      "only letters, digits and '_'"
  | .invalidTableName table =>
    s!"Table name '{table}' must start with a letter and contain only letters, digits and '_'"
  | .invalidSchemaName schema =>
    s!"Schema name '{schema}' must start with a letter and contain only letters, digits and '_'"
  | .derivedIdMismatch table field id =>
    s!"Field '{table}.{field}': derived fields must use id 0 and id 0 is reserved for derived " ++
      s!"fields (got id {id})"
  | .derivedNotPrimitive table field =>
    s!"Derived field '{table}.{field}' must have a primitive type"
  | .derivedNotOptional table field => s!"Derived field '{table}.{field}' must be optional"
  | .derivedSortKey table field => s!"Derived field '{table}.{field}' cannot be a sort key"
  | .derivedFrequentlyUsed table field =>
    s!"Derived field '{table}.{field}' cannot be frequently used"
  | .sortKeyNotRequired table field => s!"Sort key '{table}.{field}' must be required"
  | .multipleSortKeys table first second =>
    s!"Table '{table}' has more than one sort key ('{first}' and '{second}')"
  | .largeListNotCollection table field =>
    s!"Field '{table}.{field}' is marked large_list but is not a collection"
  | .unsupportedType table field type =>
    s!"Field '{table}.{field}' has unsupported type '{type}'"
  | .missingDefault table field =>
    s!"Optional field '{table}.{field}' must declare a default value"
  | .unexpectedDefault table field =>
    s!"Field '{table}.{field}' must not declare a default value"
  | .incompatibleDefault table field expected got =>
    s!"Default of field '{table}.{field}' is not a valid {expected} (got {got})"
  | .invalidTableVersion table version => s!"Table '{table}' has invalid version {version}"
  | .unresolvedGroup table field group =>
    s!"Field '{table}.{field}' references unknown table '{group}'"
  | .tableRemoved table => s!"Table '{table}' was removed"
  | .fieldRemoved table field id => s!"Field '{table}.{field}' (id {id}) was removed"
  | .fieldTypeChanged table field before after =>
    s!"Field '{table}.{field}' changed type from {before} to {after}"
  | .presenceNarrowed table field =>
    s!"Field '{table}.{field}' changed from optional to required"
  | .presenceWidened table field =>
    s!"Field '{table}.{field}' changed from required to optional"
  | .sortKeyChanged table field => s!"Sort key of field '{table}.{field}' changed"
  | .newFieldNotOptional table field => s!"New field '{table}.{field}' must be optional"
  | .newFieldWithoutDefault table field =>
    s!"New field '{table}.{field}' must declare a default value"
  | .tableVersionRegressed table before after =>
    s!"Table '{table}' version decreased from {before} to {after}"

end Violation

end RecordFormat
