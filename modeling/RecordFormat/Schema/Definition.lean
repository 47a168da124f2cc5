import RecordFormat.Json.Term
import RecordFormat.Schema.Error

/-!
# Schema definitions

A schema as its author writes it, with types, constraints and defaults as texts and literals,
and its JSON form. An object of the form may also be an array of its members in order, the
ones with a default value left out at the end. Unknown members are skipped unread; a known
member may not be repeated.
-/

namespace RecordFormat

structure FieldDefinition where
  id : Int16
  name : String
  type : String
  constraints : List String
  default : Option Json

structure TableDefinition where
  name : String
  version : Int16
  fields : List FieldDefinition

structure Definition where
  name : String
  tables : List TableDefinition

namespace Definition

open Json (Term Piece)

/-- Adds the members of an object to the values found so far, one for each name. -/
def collect (names : List String) (found : List (Option Term)) :
    List (List Piece × Term) → Option (List (Option Term))
  | [] => some found
  | (pieces, term) :: rest => do
    let key ← Json.string? pieces
    match names.idxOf? key with
    | none => collect names found rest
    | some index =>
      guard ((found.getD index none).isNone)
      collect names (found.set index (some term)) rest

/-- The values of the named members, from an object or from an array in their order. -/
def membersOf (names : List String) : Term → Option (List (Option Term))
  | .object members => collect names (List.replicate names.length none) members
  | .array items => do
    guard (items.length ≤ names.length)
    return items.map some ++ List.replicate (names.length - items.length) none
  | _ => none

def stringOf : Term → Option String
  | .string pieces => Json.string? pieces
  | _ => none

/-- An integer literal of 16 bits. -/
def int16Of : Term → Option Int16
  | .number literal => do
    match ← literal.value? with
    | .integer n => if -0x8000 ≤ n ∧ n < 0x8000 then some (.ofInt n) else none
    | _ => none
  | _ => none

/-- A list, every item read by `item`; empty when the member is missing. -/
def listOf {α : Type} (item : Term → Option α) : Option Term → Option (List α)
  | none => some []
  | some (.array items) => items.mapM item
  | some _ => none

/-- The levels of nesting around a default: schema, tables, table, fields and field. -/
def defaultLevel : Nat := 5

/-- A default value; null is the same as none. -/
def defaultOf : Option Term → Option (Option Json)
  | none | some .null => some none
  | some term => (term.value? (Json.depthLimit - defaultLevel)).map some

def fieldOf (term : Term) : Option FieldDefinition := do
  match ← membersOf ["id", "name", "type", "constraints", "default"] term with
  | [some id, some name, some type, constraints, default] =>
    return ⟨← int16Of id, ← stringOf name, ← stringOf type, ← listOf stringOf constraints,
      ← defaultOf default⟩
  | _ => none

def tableOf (term : Term) : Option TableDefinition := do
  match ← membersOf ["name", "version", "fields"] term with
  | [some name, some version, fields] =>
    return ⟨← stringOf name, ← int16Of version, ← listOf fieldOf fields⟩
  | _ => none

def schemaOf (term : Term) : Option Definition := do
  match ← membersOf ["name", "tables"] term with
  | [some name, tables] => return ⟨← stringOf name, ← listOf tableOf tables⟩
  | _ => none

/-- Reads a definition text. -/
def ofText (text : String) : Except ModelError Definition :=
  match (Term.ofText? text).bind schemaOf with
  | some d => .ok d
  | none => .error .malformed

def fieldToJson (f : FieldDefinition) : Json :=
  .object <|
    [("id", .integer f.id.toInt), ("name", .string f.name), ("type", .string f.type),
      ("constraints", .array (f.constraints.map .string))] ++
    match f.default with
    | some v => [("default", v)]
    | none => []

def tableToJson (t : TableDefinition) : Json :=
  .object [("name", .string t.name), ("version", .integer t.version.toInt),
    ("fields", .array (t.fields.map fieldToJson))]

/-- The JSON form, members in declared order. -/
def toJson (d : Definition) : Json :=
  .object [("name", .string d.name), ("tables", .array (d.tables.map tableToJson))]

/-- The definition text: the indented JSON form. -/
def text (d : Definition) : String := d.toJson.indented

/-- The first table definition of a name. -/
def table? (d : Definition) (name : String) : Option TableDefinition :=
  d.tables.find? fun t => t.name = name

end Definition

end RecordFormat
