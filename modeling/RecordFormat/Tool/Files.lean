import RecordFormat.Schema.Definition
import RecordFormat.Text.Utf8

/-!
# Files

What the tool needs of a file system: reading and writing whole files. `Directory` is one
held in memory, without subdirectories; of the directories above it only that they exist is
known.
-/

namespace RecordFormat

/-- Why a file cannot be read or written. -/
inductive FileFault where
  | missing
  | notDirectory
  | isDirectory
  | nameTooLong
  | other (reason : String)
  deriving DecidableEq, Repr

def FileFault.message : FileFault → String
  | .missing => "No such file or directory (os error 2)"
  | .notDirectory => "Not a directory (os error 20)"
  | .isDirectory => "Is a directory (os error 21)"
  | .nameTooLong => "File name too long (os error 36)"
  | .other reason => reason

/-- Reading and writing whole files by path. -/
structure FileAccess (m : Type → Type) where
  read : String → m (Except FileFault Bytes)
  write : String → Bytes → m (Except FileFault Unit)

/-- Files by name. A file outside the directory has its path from there as its name. -/
structure Directory where
  files : List (String × Bytes) := []

namespace Directory

/-- The octets of a file. -/
def find? (d : Directory) (name : String) : Option Bytes :=
  (d.files.find? fun e => e.1 = name).map Prod.snd

/-- Puts a file in place of the one of that name. -/
def insert (d : Directory) (name : String) (bytes : Bytes) : Directory :=
  ⟨(name, bytes) :: d.files.filter fun e => e.1 ≠ name⟩

/-- The longest step of a path, in octets. -/
def nameLimit : Nat := 255

/-- The longest path, in octets. -/
def pathLimit : Nat := 4095

/-- What a path leads to: a directory, or the place of a file, which may be vacant. -/
inductive Place where
  | directory
  | file (name : String)
  deriving DecidableEq, Repr

/-- The directory above the one with prefix `base`; the root is above itself. -/
def above (base : String) : String := if base.startsWith "/" then base else base ++ "../"

/-- Follows the steps of a path from the directory with prefix `base`. Only the directory
itself and those above it are directories, so every name before the last step is a fault. -/
def follow (d : Directory) (base : String) : List String → Except FileFault Place
  | [] => .ok .directory
  | "." :: rest => d.follow base rest
  | ".." :: rest => d.follow (above base) rest
  | name :: rest =>
    if nameLimit < name.utf8ByteSize then .error .nameTooLong
    else if rest.isEmpty then .ok (.file (base ++ name))
    else .error (if (d.find? (base ++ name)).isSome then .notDirectory else .missing)

/-- A path, taken apart: its start, its steps, and whether a slash ends it. -/
structure Path where
  base : String
  steps : List String
  closed : Bool

/-- Repeated slashes count as one. -/
def Path.ofText? (text : String) : Except FileFault Path :=
  if text.isEmpty then .error .missing
  else if pathLimit < text.utf8ByteSize then .error .nameTooLong
  else .ok {
    base := if text.startsWith "/" then "/" else ""
    steps := (text.splitOn "/").filter fun step => step ≠ ""
    closed := text.endsWith "/" }

/-- What can be read at a path. A slash at the end asks for a directory. -/
def readPlace (d : Directory) (text : String) : Except FileFault Place := do
  let path ← Path.ofText? text
  d.follow path.base (path.steps ++ if path.closed then ["."] else [])

/-- What can be written at a path. With a slash at the end that is a directory, if there is
one to hold it. -/
def writePlace (d : Directory) (text : String) : Except FileFault Place := do
  let path ← Path.ofText? text
  d.follow path.base (if path.closed then path.steps.dropLast ++ ["."] else path.steps)

/-- Access to a directory in memory. -/
def access : FileAccess (StateM Directory) where
  read path := do
    let d ← get
    return do
      match ← d.readPlace path with
      | .directory => throw .isDirectory
      | .file name =>
        match d.find? name with
        | some bytes => pure bytes
        | none => throw .missing
  write path bytes := do
    match (← get).writePlace path with
    | .ok (.file name) => do
      modify fun d => d.insert name bytes
      return .ok ()
    | .ok .directory => return .error .isDirectory
    | .error fault => return .error fault

end Directory

namespace Definition

variable {m : Type → Type} [Monad m]

/-- Reads a definition file. -/
def load (files : FileAccess m) (path : String) : m (Except ModelError Definition) := do
  match ← files.read path with
  | .error fault => return .error (.io path fault.message)
  | .ok bytes =>
    match Text.ofUtf8? bytes with
    | some text => return ofText text
    | none => return .error (.io path "stream did not contain valid UTF-8")

/-- Writes a definition file. -/
def save (files : FileAccess m) (d : Definition) (path : String) : m (Except ModelError Unit) := do
  return (← files.write path (Text.utf8 d.text)).mapError fun fault => .io path fault.message

end Definition

end RecordFormat
