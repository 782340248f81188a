import BranchingTime.CommandLine

/-!
# The program

Reads the program file, prints the answer on standard output and the
requested reports on standard error.
-/

namespace BranchingTime.CommandLine

/-- The text of a file, if it can be read. -/
def readText (path : String) : IO (Option String) := do
  try
    return some (← IO.FS.readFile path)
  catch _ =>
    return none

/-- The level of detail of the reports that the arguments ask for. -/
def requested (args : List String) : Option Level :=
  (parse args).bind fun i => i.detail.level?

end BranchingTime.CommandLine

open BranchingTime in
def main (args : List String) : IO UInt32 := do
  let report ← CommandLine.run args CommandLine.readText
  if let some level := CommandLine.requested args then
    for line in report.events.lines level do
      IO.eprintln line
  IO.print report.text
  return report.exitCode
