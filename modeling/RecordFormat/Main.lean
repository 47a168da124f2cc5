import RecordFormat.Tool.Commands

/-!
# The command line tool

Runs the tool on the files of the system.
-/

namespace RecordFormat

/-- The reason why an operation on a file failed. -/
def faultOf : IO.Error → FileFault
  | .noFileOrDirectory .. => .missing
  | .inappropriateType _ 21 _ => .isDirectory
  | .inappropriateType _ 20 _ => .notDirectory
  | .invalidArgument _ 36 _ => .nameTooLong
  | e => .other (toString e)

/-- Access to the files of the system. -/
def systemFiles : FileAccess IO where
  read path := do
    try return .ok (← IO.FS.readBinFile path)
    catch e => return .error (faultOf e)
  write path bytes := do
    try
      IO.FS.writeBinFile path bytes
      return .ok ()
    catch e => return .error (faultOf e)

end RecordFormat

/-- Prints what a run shows and exits with its code. -/
def main (args : List String) : IO UInt32 := do
  let report ← RecordFormat.Tool.run RecordFormat.systemFiles args
  for line in report.lines do
    IO.println line
  match report.error with
  | [] =>
    if report.exit = 2 then
      IO.eprintln "usage: [-v] [--max-record-size N] validate|evolve|describe|encode|decode ..."
  | cause :: rest =>
    IO.eprintln s!"Error: {cause}"
    for cause in rest do
      IO.eprintln s!"Caused by: {cause}"
  return report.exit.toUInt32
