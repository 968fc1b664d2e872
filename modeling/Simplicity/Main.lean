import Simplicity.CommandLine

/-!
# The tool
-/

/-- Runs the tool on its arguments, prints, and ends with its exit code. -/
def main (arguments : List String) : IO UInt32 := do
  let outcome := Simplicity.CommandLine.run arguments
  (← IO.getStdout).putStr outcome.output
  (← IO.getStderr).putStr outcome.errors
  return outcome.code.toUInt32
