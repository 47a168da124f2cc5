import RecordFormat.Record.Json
import RecordFormat.Schema.Build
import RecordFormat.Schema.Evolution
import RecordFormat.Tool.Arguments
import RecordFormat.Tool.Files
import RecordFormat.Wire.Registry

/-!
# Commands of the tool

Checking definition files, describing them, and converting records between JSON and record
files. A failure is the texts of its causes, outermost first; lines printed before it stay.
-/

namespace RecordFormat

namespace Tool

variable {m : Type → Type} [Monad m]

/-- A command: it prints lines and may fail with a chain of causes. -/
abbrev CommandM (m : Type → Type) := ExceptT (List String) (StateT (List String) m)

/-- Prints a text and ends its last line. -/
def print (text : String) : CommandM m Unit := modify fun lines => lines ++ text.splitOn "\n"

/-- Goes on with a result, or fails with the contexts and the cause. -/
def orFail {ε α : Type} (message : ε → String) (contexts : List String) :
    Except ε α → CommandM m α
  | .ok a => return a
  | .error e => throw (contexts ++ [message e])

/-- Right or left aligned in `width` columns. -/
def alignRight (width : Nat) (s : String) : String :=
  String.ofList (List.replicate (width - s.length) ' ') ++ s

def alignLeft (width : Nat) (s : String) : String :=
  s ++ String.ofList (List.replicate (width - s.length) ' ')

/-- Loads a definition and builds its schema, also giving the interner. -/
def loadSchema (files : FileAccess m) (mode : BuildMode) (path : String) (interner : Interner) :
    CommandM m (Schema × Interner) := do
  let loaded ← Definition.load (m := m) files path
  let definition ← orFail ModelError.message [s!"Failed to load {path}"] loaded
  let (built, interner) := (definition.build mode).run interner
  let schema ← orFail ModelError.message [s!"Failed to build schema from {path}"] built
  return (schema, interner)

def validate (files : FileAccess m) (path : String) : CommandM m Unit := do
  let (schema, _) ← loadSchema files .lenient path {}
  orFail Violation.message [s!"Schema '{schema.name}' is invalid"] schema.check
  print s!"Schema '{schema.name}' is valid ({schema.tables.length} tables)"

def evolve (files : FileAccess m) (current next : String) : CommandM m Unit := do
  let (current, interner) ← loadSchema files .lenient current {}
  let (next, _) ← loadSchema files .lenient next interner
  orFail Violation.message [s!"Schema '{next.name}' cannot replace '{current.name}'"]
    (current.checkEvolution next)
  print s!"Schema '{next.name}' is a compatible evolution of '{current.name}'"

/-- A line for a field: number, name, type, constraints and default. -/
def describeField (f : Field) : Except RecordError String := do
  let default ← match f.default with
    | none => pure ""
    | some s => do pure (" = " ++ (← (Value.scalar s).toJson).compact)
  let constraints := String.intercalate ", " f.constraints.names
  return "    " ++ alignRight 5 (toString f.id) ++ "  " ++ alignLeft 20 f.name ++ " " ++
    alignLeft 20 f.type.text ++ " [" ++ constraints ++ "]" ++ default

def describe (files : FileAccess m) (path : String) : CommandM m Unit := do
  let (schema, _) ← loadSchema files .lenient path {}
  print s!"schema {schema.name}"
  for table in schema.tables do
    print s!"  table {table.name} (version {table.version})"
    for field in table.fields do
      print (← orFail RecordError.message [] (describeField field))

/-- The codec of a table of a definition file. -/
def tableCodec (files : FileAccess m) (limits : Limits) (path table : String) :
    CommandM m TableCodec := do
  let (schema, _) ← loadSchema files .strict path {}
  match schema.table? table with
  | none => throw [s!"Table '{table}' not found in schema '{schema.name}'"]
  | some t => orFail CodecError.message [] (t.codec.run { limits }).1

def encode (files : FileAccess m) (limits : Limits) (schema table values out : String) :
    CommandM m Unit := do
  let codec ← tableCodec files limits schema table
  match Json.ofText? values with
  | none => throw ["Failed to parse --values as JSON"]
  | some json =>
    let bytes ← orFail RecordError.message [] do (← Record.ofJson codec json).toBytes
    let written ← files.write out bytes
    orFail FileFault.message [s!"Failed to write {out}"] written

def decode (files : FileAccess m) (limits : Limits) (schema table file : String)
    (field : Option String) : CommandM m Unit := do
  let codec ← tableCodec files limits schema table
  let found ← files.read file
  let bytes ← orFail FileFault.message [s!"Failed to read {file}"] found
  let record ← orFail RecordError.message [s!"{file} is not a valid '{table}' record"]
    (Record.ofBytes codec bytes)
  let json ← orFail RecordError.message [] <| match field with
    | some name => do (← record.getName name).toJson
    | none => record.toJson
  print json.indented

/-- What a run of the tool shows: exit code, printed lines, and the causes of a failure. -/
structure Report where
  exit : Nat
  lines : List String
  error : List String
  deriving DecidableEq, Repr

/-- Carries out a command. -/
def perform (files : FileAccess m) (invocation : Invocation) : CommandM m Unit :=
  let limits := match invocation.maxRecordSize with
    | some n => { Limits.standard with maxRecordSize := n }
    | none => Limits.standard
  match invocation.command with
  | .validate schema => validate files schema
  | .evolve current next => evolve files current next
  | .describe schema => describe files schema
  | .encode schema table values out => encode files limits schema table values out
  | .decode schema table file field => decode files limits schema table file field

/-- Runs the tool on its arguments. -/
def run (files : FileAccess m) (args : List String) : m Report := do
  match Arguments.read args with
  | none => return ⟨2, [], []⟩
  | some invocation =>
    match ← ((perform files invocation).run []) with
    | (.ok (), lines) => return ⟨0, lines, []⟩
    | (.error error, lines) => return ⟨1, lines, error⟩

end Tool

end RecordFormat
