/-!
# Command line arguments

A command line names a command, with its options and operands in any order. Options for all
commands may stand before the command too. A value follows its option or an equals sign, and
only after an equals sign may it begin with a hyphen; nothing is an option after `--`.
-/

namespace RecordFormat

/-- What the tool is asked to do. -/
inductive Command where
  | validate (schema : String)
  | evolve (current next : String)
  | describe (schema : String)
  | encode (schema table values out : String)
  | decode (schema table file : String) (field : Option String)
  deriving DecidableEq, Repr

/-- A command and the options for all commands. -/
structure Invocation where
  verbose : Bool
  maxRecordSize : Option Nat
  command : Command
  deriving DecidableEq, Repr

namespace Arguments

/-- What has been read of the arguments: options with their values, and operands. -/
structure Given where
  verbose : Bool := false
  options : List (String × String) := []
  operands : List String := []

/-- The options with values for all commands. -/
def sharedOptions : List String := ["--max-record-size"]

def Given.setVerbose (g : Given) : Option Given :=
  if g.verbose then none else some { g with verbose := true }

/-- Notes an option; it may be given once. -/
def Given.addOption (g : Given) (known : List String) (name value : String) : Option Given :=
  if known.contains name && (g.options.lookup name).isNone then
    some { g with options := (name, value) :: g.options }
  else none

def Given.addOperand (g : Given) (operand : String) : Given :=
  { g with operands := g.operands ++ [operand] }

/-- An argument that is an option, or several short ones, and no operand. -/
def isOption (arg : String) : Bool := arg.startsWith "-" && arg ≠ "-"

/-- Splits an argument at its first equals sign. -/
def splitValue (arg : String) : String × Option String :=
  let name := arg.toList.takeWhile (· ≠ '=')
  match arg.toList.drop name.length with
  | [] => (arg, none)
  | _ :: value => (String.ofList name, some (String.ofList value))

/-- Reads the options in front of the first operand; also the arguments left over. -/
def takeOptions (known : List String) (g : Given) : List String → Option (Given × List String)
  | [] => some (g, [])
  | arg :: rest =>
    if arg = "-v" ∨ arg = "--verbose" then do takeOptions known (← g.setVerbose) rest
    else if arg = "--" || !isOption arg then some (g, arg :: rest)
    else
      match splitValue arg, rest with
      | (name, some value), rest => do takeOptions known (← g.addOption known name value) rest
      | (name, none), value :: rest =>
        if isOption value then none
        else do takeOptions known (← g.addOption known name value) rest
      | (_, none), [] => none

/-- Reads options and operands to the end; `fuel` bounds the number of operands. -/
def takeAll (known : List String) (g : Given) (args : List String) : (fuel : Nat) → Option Given
  | 0 => none
  | fuel + 1 => do
    match ← takeOptions known g args with
    | (g, []) => some g
    | (g, "--" :: rest) => some (rest.foldl Given.addOperand g)
    | (g, operand :: rest) => takeAll known (g.addOperand operand) rest fuel

/-- A path; it may not be empty. -/
def path? (s : String) : Option String := if s.isEmpty then none else some s

/-- A number of 64 bits, which may have a plus sign. -/
def number? (s : String) : Option Nat :=
  let digits := match s.toList with
    | '+' :: rest => rest
    | cs => cs
  if digits.isEmpty || !digits.all Char.isDigit then none
  else
    let n := digits.foldl (fun n c => n * 10 + (c.toNat - '0'.toNat)) 0
    if n < 0x10000000000000000 then some n else none

/-- The options with values that a command takes. -/
def optionsOf : String → List String
  | "encode" => ["--schema", "--table", "--values", "--out"]
  | "decode" => ["--schema", "--table", "--field"]
  | _ => []

/-- The command that a name, options and operands make. -/
def command? (name : String) (g : Given) : Option Command :=
  let option := fun name => g.options.lookup name
  match name, g.operands with
  | "validate", [schema] => do return .validate (← path? schema)
  | "evolve", [current, next] => do return .evolve (← path? current) (← path? next)
  | "describe", [schema] => do return .describe (← path? schema)
  | "encode", [] => do
    return .encode (← path? (← option "--schema")) (← option "--table") (← option "--values")
      (← path? (← option "--out"))
  | "decode", [file] => do
    return .decode (← path? (← option "--schema")) (← option "--table") (← path? file)
      (option "--field")
  | _, _ => none

/-- The size option of some arguments, which must be a number if it is given. -/
def maxRecordSize? (g : Given) : Option (Option Nat) :=
  match g.options.lookup "--max-record-size" with
  | none => some none
  | some text => (number? text).map some

/-- Reads a command line; `none` if it is not one. -/
def read (args : List String) : Option Invocation := do
  let (before, name :: rest) ← takeOptions sharedOptions {} args | none
  let after ← takeAll (sharedOptions ++ optionsOf name) {} rest (rest.length + 1)
  let outer ← maxRecordSize? before
  let inner ← maxRecordSize? after
  return ⟨before.verbose || after.verbose, inner <|> outer, ← command? name after⟩

end Arguments

end RecordFormat
