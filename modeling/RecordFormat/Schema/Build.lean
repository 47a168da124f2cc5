import RecordFormat.Schema.Definition
import RecordFormat.Schema.Interner

/-!
# From definitions to schemas and back

Tables are built depth first, so that a group is bound to its finished table; a table that
is needed while it is being built lies on a cycle. In strict mode every group must name a
table of the definition, otherwise unknown groups stay unbound. `Schema.reflect` gives the
definition of a schema.
-/

namespace RecordFormat

/-- What a build has made so far: interned types, and finished tables. -/
structure Workshop where
  interner : Interner
  finished : List Table

/-- A build step. A failing step keeps what it has made. -/
abbrev BuildM := ExceptT ModelError (StateM Workshop)

namespace BuildM

/-- Runs a step of the interner. -/
def interning {α : Type} (act : ExceptT ModelError (StateM Interner) α) : BuildM α :=
  fun w =>
    let (result, interner) := act.run w.interner
    (result, { w with interner })

/-- The finished table of a name. -/
def finished? (name : String) : BuildM (Option Table) := do
  return (← get).finished.find? fun t => t.name = name

/-- Keeps a finished table. -/
def finish (table : Table) : BuildM Unit :=
  modify fun w => { w with finished := table :: w.finished }

end BuildM

namespace FieldDefinition

/-- The default of a field whose type is known. -/
def defaultFor (f : FieldDefinition) (type : FieldType) : Except ModelError (Option Scalar) :=
  match f.default, type with
  | none, _ => .ok none
  | some literal, .primitive p =>
    match Scalar.ofJson p literal with
    | .ok s => .ok (some s)
    | .error fault => .error (.invalidDefault f.name (.unreadable fault))
  | some _, type => .error (.invalidDefault f.name (.notAllowed type.text))

/-- The field, once its type is known. -/
def complete (f : FieldDefinition) (type : FieldType) : Except ModelError Field := do
  let constraints ← Constraints.ofNames f.constraints
  let default ← f.defaultFor type
  Field.create f.id f.name type constraints default

end FieldDefinition

/-- Whether groups must be found among the tables of the definition. -/
inductive BuildMode where
  | strict
  | lenient
  deriving DecidableEq, Repr

namespace Definition

theorem length_filter_name_lt {idle : List TableDefinition} {name : String}
    (h : idle.any (fun t => t.name = name) = true) :
    (idle.filter fun t => t.name ≠ name).length < idle.length := by
  obtain ⟨t, mem, eq⟩ := List.any_eq_true.1 h
  exact List.length_filter_lt_length_iff_exists.2 ⟨t, mem, by simpa using eq⟩

mutual

/-- Builds a table. The tables in `idle` are not being built; another one that is not
finished lies on a cycle. -/
def buildTable (mode : BuildMode) (d : Definition) (idle : List TableDefinition)
    (t : TableDefinition) : BuildM Table := do
  match ← BuildM.finished? t.name with
  | some table => return table
  | none =>
    if _h : idle.any (fun u => u.name = t.name) = true then
      let fields ← t.fields.mapM fun f => do
        let parsed ← BuildM.interning (FieldType.ofText f.type)
        let type ← bindGroups mode d (idle.filter fun u => u.name ≠ t.name) t f parsed.type
        liftExcept (f.complete type)
      let table ← liftExcept (Table.create t.name t.version fields)
      BuildM.finish table
      return table
    else throw (.cyclicGroup t.name)
termination_by (idle.length, 0)
decreasing_by
  exact Prod.Lex.left _ _ (length_filter_name_lt _h)

/-- Binds the groups of a type to their tables. -/
def bindGroups (mode : BuildMode) (d : Definition) (idle : List TableDefinition)
    (t : TableDefinition) (f : FieldDefinition) : FieldType → BuildM FieldType
  | .list element => do
    let element ← bindGroups mode d idle t f element
    liftExcept element.listOf
  | .unbound group =>
    match d.table? group with
    | some target => return .bound (← buildTable mode d idle target)
    | none =>
      match mode with
      | .strict => throw (.unresolvedGroup t.name f.name group)
      | .lenient => return .unbound group
  | type => return type
termination_by type => (idle.length, sizeOf type)

end

/-- Builds the schema, starting from an interner; also the interner afterwards. -/
def build (mode : BuildMode) (d : Definition) : ExceptT ModelError (StateM Interner) Schema :=
  fun interner =>
    let act : BuildM Schema := do
      liftExcept (Schema.checkTables d.name [] (d.tables.map TableDefinition.name))
      let tables ← d.tables.mapM (buildTable mode d d.tables)
      liftExcept (Schema.create d.name tables)
    let (result, workshop) := act.run ⟨interner, []⟩
    (result, workshop.interner)

end Definition

namespace Field

/-- The definition of a field. Its default must have a JSON form. -/
def reflect (f : Field) : Except ModelError FieldDefinition := do
  let default ← match f.default with
    | none => pure none
    | some s =>
      match s.toJson with
      | .ok j => pure (some j)
      | .error fault => throw (.invalidDefault f.name (.unwritable s.kind fault))
  return ⟨f.id, f.name, f.type.text, f.constraints.names, default⟩

end Field

/-- The definition of a table. -/
def Table.reflect (t : Table) : Except ModelError TableDefinition := do
  return ⟨t.name, t.version, ← t.fields.mapM Field.reflect⟩

/-- The definition of a schema. -/
def Schema.reflect (s : Schema) : Except ModelError Definition := do
  return ⟨s.name, ← s.tables.mapM Table.reflect⟩

end RecordFormat
