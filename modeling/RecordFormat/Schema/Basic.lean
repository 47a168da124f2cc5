import RecordFormat.Schema.Constraints

/-!
# Field types, fields, tables and schemas

A group type names a table: it is either just the name or bound to the table itself. Two
types are the same when they agree with every group taken by name; what a group is bound to
does not matter for sameness.
-/

namespace RecordFormat

mutual

/-- The type of a field. -/
inductive FieldType where
  | primitive (kind : Primitive)
  /-- a group known by the name of its table only -/
  | unbound (group : String)
  /-- a group bound to its table -/
  | bound (table : Table)
  | list (element : FieldType)

/-- A numbered, named and typed column of a table. The number is the only key that later
versions of the table keep; `0` is for derived fields. -/
structure Field where
  id : Int16
  name : String
  type : FieldType
  constraints : Constraints
  default : Option Scalar

/-- One version of a table. -/
structure Table where
  name : String
  version : Int16
  fields : List Field

end

/-- A named list of tables. -/
structure Schema where
  name : String
  tables : List Table

instance : Inhabited FieldType := ⟨.primitive .null⟩

/-- The type of a field is a part of its table. -/
theorem Table.sizeOf_fieldType_lt {t : Table} {f : Field} (h : f ∈ t.fields) :
    sizeOf f.type < sizeOf t := by
  have inner := List.sizeOf_lt_of_mem h
  obtain ⟨_, _, type, _, _⟩ := f
  obtain ⟨_, _, fields⟩ := t
  simp at inner ⊢
  omega

namespace FieldType

/-- The number shared by all groups. -/
def groupId : Int := 100

/-- The number of the one kind of collection, lists. -/
def listId : Int := 1

def listName : String := "list"

/-- A collection's number is its kind times this factor, plus its element's number. -/
def collectionFactor : Int := 1000

/-- The text of a type: a primitive's name, a group's name, or `list<element>`. -/
def text : FieldType → String
  | .primitive p => p.name
  | .unbound group => group
  | .bound table => table.name
  | .list element => listName ++ "<" ++ element.text ++ ">"

/-- The number of a type. Groups are not told apart. -/
def id : FieldType → Int
  | .primitive p => p.id
  | .unbound _ | .bound _ => groupId
  | .list element => listId * collectionFactor + element.id

/-- Sameness, groups taken by name. -/
def same : FieldType → FieldType → Bool
  | .primitive p, .primitive q => p = q
  | .unbound a, .unbound b => a = b
  | .unbound a, .bound t => a = t.name
  | .bound t, .unbound b => t.name = b
  | .bound t, .bound u => t.name = u.name
  | .list a, .list b => a.same b
  | _, _ => false

/-- The type with every group taken by name. -/
def detach : FieldType → FieldType
  | .primitive p => .primitive p
  | .unbound group => .unbound group
  | .bound table => .unbound table.name
  | .list element => .list element.detach

def asPrimitive? : FieldType → Option Primitive
  | .primitive p => some p
  | _ => none

def isPrimitive (t : FieldType) : Bool := t.asPrimitive?.isSome

def isGroup : FieldType → Bool
  | .unbound _ | .bound _ => true
  | _ => false

def isList : FieldType → Bool
  | .list _ => true
  | _ => false

def element? : FieldType → Option FieldType
  | .list element => some element
  | _ => none

/-- The group that the type or its elements refer to: its name, and its table if bound. -/
def group? : FieldType → Option (String × Option Table)
  | .primitive _ => none
  | .unbound group => some (group, none)
  | .bound table => some (table.name, some table)
  | .list element => element.group?

/-- The payload width of fixed-width primitives. -/
def width? (t : FieldType) : Option Nat := t.asPrimitive?.bind Primitive.width?

/-- The octets of the length slot in front of a payload. -/
def lengthWidth : FieldType → Nat
  | .primitive .string => 2
  | .primitive p => if p.width?.isSome then 0 else 4
  | _ => 4

/-- True for a sentinel primitive. -/
def isSentinel : FieldType → Bool
  | .primitive p => p.isSentinel
  | _ => false

/-- The list of an element type. Lists of lists and of sentinels are refused. -/
def listOf (element : FieldType) : Except ModelError FieldType :=
  if element.isList || element.isSentinel then
    .error (.invalidCollectionElement element.text)
  else .ok (.list element)

end FieldType

namespace Field

/-- The number reserved for derived fields. -/
def derivedId : Int16 := 0

/-- A field, if its name is not empty, its number not negative and its type no sentinel. -/
def create (id : Int16) (name : String) (type : FieldType) (constraints : Constraints)
    (default : Option Scalar) : Except ModelError Field :=
  if name.isEmpty then .error .emptyFieldName
  else if id < 0 then .error (.negativeFieldId name id)
  else if type.isSentinel then .error (.unsupportedType name type.text)
  else .ok ⟨id, name, type, constraints, default⟩

variable (f : Field)

def isRequired : Bool := f.constraints.isRequired

def isOptional : Bool := f.constraints.isOptional

def isDerived : Bool := f.constraints.derived

def isSortKey : Bool := f.constraints.isSortKey

/-- Stored fields take part in record buffers; the others are derived. -/
def isStored : Bool := !f.constraints.derived

/-- Stored optional primitives, binary excepted, must declare a default. -/
def requiresDefault : Bool :=
  f.isOptional && f.isStored && match f.type with
    | .primitive p => p ≠ .binary
    | _ => false

/-- Sameness of all parts; defaults are compared as values. -/
def same (f g : Field) : Bool :=
  f.id = g.id && f.name = g.name && f.type.same g.type && f.constraints = g.constraints &&
    match f.default, g.default with
    | none, none => true
    | some a, some b => a.same b
    | _, _ => false

end Field

namespace Table

/-- Checks the names and numbers of `fields` against those of `earlier` fields. The reserved
number may repeat. -/
def checkFields (table : String) (earlier : List Field) : List Field → Except ModelError Unit
  | [] => .ok ()
  | f :: rest =>
    if earlier.any fun e => e.name = f.name then .error (.duplicateFieldName table f.name)
    else match earlier.find? fun e => f.id ≠ Field.derivedId && e.id = f.id with
      | some e => .error (.duplicateFieldId table f.id e.name f.name)
      | none => checkFields table (earlier ++ [f]) rest

/-- A table, if its name is not empty and its fields have names and numbers of their own. -/
def create (name : String) (version : Int16) (fields : List Field) : Except ModelError Table := do
  if name.isEmpty then throw .emptyTableName
  checkFields name [] fields
  return ⟨name, version, fields⟩

variable (t : Table)

/-- The field with a number other than the reserved one. -/
def fieldById? (id : Int16) : Option Field :=
  if id = Field.derivedId then none else t.fields.find? fun f => f.id = id

def fieldByName? (name : String) : Option Field := t.fields.find? fun f => f.name = name

/-- The table's own field of the same name and number. -/
def resolve? (f : Field) : Option Field :=
  (t.fieldByName? f.name).filter fun own => own.id = f.id

def contains (f : Field) : Bool := (t.resolve? f).isSome

/-- The first field with a sort order. -/
def sortKey? : Option Field := t.fields.find? Field.isSortKey

def storedFields : List Field := t.fields.filter Field.isStored

def requiredFields : List Field := t.fields.filter Field.isRequired

/-- Sameness of name, version and all fields. -/
def same (t u : Table) : Bool :=
  t.name = u.name && t.version = u.version && t.fields.length = u.fields.length &&
    (t.fields.zip u.fields).all fun (f, g) => f.same g

end Table

namespace Schema

/-- Checks the names of `tables` against `earlier` names. -/
def checkTables (schema : String) (earlier : List String) : List String → Except ModelError Unit
  | [] => .ok ()
  | name :: rest =>
    if earlier.contains name then .error (.duplicateTable schema name)
    else checkTables schema (name :: earlier) rest

/-- A schema, if its tables have names of their own. -/
def create (name : String) (tables : List Table) : Except ModelError Schema := do
  checkTables name [] (tables.map Table.name)
  return ⟨name, tables⟩

variable (s : Schema)

def table? (name : String) : Option Table := s.tables.find? fun t => t.name = name

/-- Every field with its table, in declaration order. -/
def allFields : List (Table × Field) :=
  s.tables.flatMap fun t => t.fields.map fun f => (t, f)

/-- Every field that refers to a group, with its table and the group's name. -/
def groupReferences : List (Table × Field × String) :=
  s.allFields.filterMap fun (t, f) => f.type.group?.map fun (group, _) => (t, f, group)

/-- Same name and same tables in the same order. -/
def same (s u : Schema) : Bool :=
  s.name = u.name && s.tables.length = u.tables.length &&
    (s.tables.zip u.tables).all fun (t, v) => t.same v

end Schema

end RecordFormat
