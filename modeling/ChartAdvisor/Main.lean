import ChartAdvisor.CommandLine

/-!
# The program

Reads the files that the arguments name and prints what `CommandLine.run` says.
-/
namespace ChartAdvisor

/-- The text of a file, if it can be read. -/
def readText (path : String) : IO (Option String) := do
  try
    return some (← IO.FS.readFile path)
  catch _ =>
    return none

end ChartAdvisor

/-- Runs the program and leaves its exit code. -/
def main (arguments : List String) : IO UInt32 := do
  let paths := match ChartAdvisor.CommandLine.read {} arguments with
    | .ok command => command.paths
    | .error _ => []
  let texts ← paths.mapM fun path => return (path, ← ChartAdvisor.readText path)
  let outcome := ChartAdvisor.CommandLine.run (fun path => (texts.lookup path).join) arguments
  (← IO.getStdout).putStr outcome.output
  (← IO.getStderr).putStr outcome.complaint
  return outcome.code.toUInt32
