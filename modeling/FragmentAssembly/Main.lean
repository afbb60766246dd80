import FragmentAssembly.CommandLine

/-!
# The program

Reads the file that the arguments name, and prints the report.
-/

open FragmentAssembly

/-- The text of a file, if it can be read. -/
def readText? (path : String) : IO (Option String) := do
  try
    return some (← IO.FS.readFile path)
  catch _ =>
    return none

def main (arguments : List String) : IO UInt32 := do
  let source ←
    match CommandLine.requestedFile? arguments with
    | some path => readText? path
    | none => pure none
  let report := CommandLine.respond arguments source
  IO.print report.output
  IO.eprint report.errors
  return report.code.toUInt32
