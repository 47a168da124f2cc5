import RecordFormat.Schema.Rules

/-!
# Evolution

When one version of a table or schema may replace another. Field numbers are the only key:
every stored field keeps its number, type, presence and sort order, and new stored fields
are optional. Names and derived fields may change freely.
-/

namespace RecordFormat

open Outcome

namespace Table

/-- The stored field of a number. -/
def storedById? (t : Table) (id : Int16) : Option Field :=
  (t.fieldById? id).filter Field.isStored

/-- Checks what became of a stored field of the current table. -/
def checkKept (table : String) (next : Table) (f : Field) : Except Violation Unit :=
  match next.storedById? f.id with
  | none => .error (.fieldRemoved table f.name f.id)
  | some g => do
    refuseIf (!g.type.same f.type) (.fieldTypeChanged table f.name f.type.text g.type.text)
    refuseIf (f.isOptional && g.isRequired) (.presenceNarrowed table f.name)
    refuseIf (f.isRequired && g.isOptional) (.presenceWidened table f.name)
    refuseIf (g.constraints.sort ≠ f.constraints.sort) (.sortKeyChanged table f.name)

/-- Checks a stored field of the next table, which may be new. -/
def checkAdded (current : Table) (g : Field) : Except Violation Unit :=
  if (current.fieldById? g.id).isSome then .ok ()
  else do
    refuseIf (!g.isOptional) (.newFieldNotOptional current.name g.name)
    refuseIf (g.requiresDefault && g.default.isNone)
      (.newFieldWithoutDefault current.name g.name)

/-- Checks that `next` may replace `current`. -/
def checkEvolution (current next : Table) : Except Violation Unit := do
  refuseIf (next.version < current.version)
    (.tableVersionRegressed current.name current.version next.version)
  current.storedFields.forM (checkKept current.name next)
  next.storedFields.forM (checkAdded current)

end Table

/-- Checks that `next` may replace `current`: it is sound itself, and every table of
`current` has a successor of the same name. -/
def Schema.checkEvolution (current next : Schema) : Except Violation Unit := do
  next.check
  current.tables.forM fun t =>
    match next.table? t.name with
    | none => throw (.tableRemoved t.name)
    | some u => t.checkEvolution u

end RecordFormat
