import RecordFormat.Outcome
import RecordFormat.Schema.Violation
import RecordFormat.Text.Name
import RecordFormat.Wire.Limits

/-!
# Structural rules

Each check returns the first violation it meets: names, derived fields, sort keys, list
flags, types and defaults of a field; name, version and single sort key of a table; and the
group references of a schema once all its tables are sound.
-/

namespace RecordFormat

open Outcome

namespace Field

variable (table : String) (f : Field)

/-- A derived field is an optional, unsorted, not frequently used primitive. -/
def checkDerived : Except Violation Unit :=
  if f.isDerived then do
    refuseIf (!f.type.isPrimitive) (.derivedNotPrimitive table f.name)
    refuseIf (!f.isOptional) (.derivedNotOptional table f.name)
    refuseIf f.isSortKey (.derivedSortKey table f.name)
    refuseIf f.constraints.frequentlyUsed (.derivedFrequentlyUsed table f.name)
  else .ok ()

/-- Types made of what has no values. -/
def hasUnsupportedType : Bool :=
  match f.type with
  | .list element => element.isList || element.isSentinel
  | type => type.isSentinel

/-- Fields that take no default: required, derived, groups and lists. -/
def forbidsDefault : Bool := f.isRequired || f.isDerived || !f.type.isPrimitive

/-- A default is declared where it must be, only where it may be, and fits the type. -/
def checkDefault : Except Violation Unit :=
  if f.forbidsDefault then
    refuseIf f.default.isSome (.unexpectedDefault table f.name)
  else
    match f.type, f.default with
    | .primitive p, some s =>
      refuseIf (!s.fits p Limits.standard.floatMagnitude)
        (.incompatibleDefault table f.name p.name s.kind.name)
    | _, _ => refuseIf f.requiresDefault (.missingDefault table f.name)

/-- Checks a field of the named table. -/
def check : Except Violation Unit := do
  refuseIf (!Text.isFieldName f.name) (.invalidFieldName table f.name)
  refuseIf (f.isDerived != (f.id = derivedId)) (.derivedIdMismatch table f.name f.id)
  f.checkDerived table
  refuseIf (f.isSortKey && !f.isRequired) (.sortKeyNotRequired table f.name)
  refuseIf (f.constraints.largeList && !f.type.isList)
    (.largeListNotCollection table f.name)
  refuseIf f.hasUnsupportedType (.unsupportedType table f.name f.type.text)
  f.checkDefault table

end Field

namespace Table

/-- Checks fields in turn; `key` is the sort key met so far. -/
def checkEach (table : String) (key : Option String) : List Field → Except Violation Unit
  | [] => .ok ()
  | f :: rest => do
    f.check table
    if f.isSortKey then
      match key with
      | some first => throw (.multipleSortKeys table first f.name)
      | none => checkEach table (some f.name) rest
    else checkEach table key rest

/-- Checks a table on its own. -/
def check (t : Table) : Except Violation Unit := do
  refuseIf (!Text.isTableName t.name) (.invalidTableName t.name)
  refuseIf (t.version < 1) (.invalidTableVersion t.name t.version)
  checkEach t.name none t.fields

end Table

namespace Schema

/-- True when the group of a field's type is neither bound nor a table of the schema. -/
def dangles (s : Schema) (f : Field) : Bool :=
  match f.type.group? with
  | some (group, none) => (s.table? group).isNone
  | _ => false

/-- Checks a schema: its name, then every table, then every group reference. -/
def check (s : Schema) : Except Violation Unit := do
  refuseIf (!Text.isTableName s.name) (.invalidSchemaName s.name)
  s.tables.forM Table.check
  s.groupReferences.forM fun (t, f, group) =>
    refuseIf (s.dangles f) (.unresolvedGroup t.name f.name group)

end Schema

end RecordFormat
