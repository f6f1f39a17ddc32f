import ArrayGraph.CommandLine.Report
/-!
# The program

Reads the file of settings that the command line needs, prints the report and exits
with its status. No log is kept.
-/

namespace ArrayGraph.CommandLine

/-- What a failed read says. -/
def readError : IO.Error → FileError
  | .noFileOrDirectory .. => .notFound
  | e => .other e.toString

/-- The text of a file, or the reason why there is none. -/
def readSource (path : String) : IO (Except FileError String) :=
  try return .ok (← IO.FS.readFile path) catch e => return .error (readError e)

/-- The directory of the user's settings. -/
def settingsHome : IO (Option String) := do
  match ← IO.getEnv "XDG_CONFIG_HOME" with
  | some home => if home.startsWith "/" then return some home
  | none => pure ()
  return (← IO.getEnv "HOME").map (· ++ "/.config")

/-- The report of a command line. -/
def respond (words : List String) : IO Report := do
  match Command.ofWords words with
  | .error f => return .ofFault f
  | .ok c =>
    match c.source ((← settingsHome).map (· ++ "/arrayflow/engine.toml")) with
    | none => return c.report none fun _ => true
    | some source => return c.report (some (source, ← readSource source.path)) fun _ => true

end ArrayGraph.CommandLine

def main (words : List String) : IO UInt32 := do
  let report ← ArrayGraph.CommandLine.respond words
  IO.print report.output
  IO.eprint report.complaint
  return report.status.toUInt32
