import ArrayGraph.CommandLine.Command
import ArrayGraph.Engine
import ArrayGraph.Settings.Stored
/-!
# Reports

What the program prints and how it exits. A command is answered in two steps: its
`Command.source` is the file to be read first, and `Command.report` answers when what
is in that file is known.
-/

namespace ArrayGraph.CommandLine

/-- What the program prints, what it complains of, and its exit status. -/
structure Report where
  status : UInt8 := 0
  output : String := ""
  complaint : String := ""
  deriving DecidableEq, Repr

namespace Report

/-- The report of a fault in the command line. -/
def ofFault (f : Fault) : Report where
  status := 2
  complaint := "error: " ++ f.message ++ "\n\nFor more information, try '--help'.\n"

/-- The report of a run that failed: the outermost context first, and what is inside it
apart from it. A panic starts on a new line. -/
def ofFailure : Failure → Report
  | .panic reason => { status := 101, complaint := "\nthe program panicked:\n" ++ reason ++ "\n" }
  | .context c source =>
    { status := 1, complaint := "Error: " ++ c ++ "\n\nCaused by:\n    " ++ source.message ++ "\n" }
  | f => { status := 1, complaint := "Error: " ++ f.message ++ "\n" }

end Report

def helpText : String :=
  "Evaluate array-language primitive graphs\n\n"
    ++ "Usage: arrayflow [OPTIONS]\n\n"
    ++ "Options:\n"
    ++ "      --config <CONFIG>  Engine configuration file (.toml or .json)\n"
    ++ "      --patterns         List the registered primitive patterns and exit\n"
    ++ "  -h, --help             Print help\n"

/-! ## Settings -/

/-- A file of settings. -/
inductive Source
  /-- A file that was asked for: it has to be good. -/
  | given (path : String)
  /-- The file that is looked for otherwise. -/
  | standing (path : String)
  deriving DecidableEq, Repr

def Source.path : Source → String
  | given path | standing path => path

/-- The settings in a file whose text, or the reason why there is none, is known. The
defaults stand in for a standing file that is not there or not good. -/
def Source.settings (s : Source) (content : Except FileError String) : Except Failure Settings :=
  match s with
  | given path => Settings.ofFile path content
  | standing path => .ok ((Settings.ofFile path content).toOption.getD {})

/-! ## Running -/

/-- The width of the column of names in a list of patterns. -/
def nameWidth : Nat := 16

/-- The line of a pattern in a list of patterns. -/
def patternLine (p : Pattern) : String :=
  p.name ++ String.ofList (List.replicate (nameWidth - p.name.length) ' ') ++ " "
    ++ String.intercalate " | " p.signatures ++ "\n"

def patternList (r : Registry) : String := String.join (r.patterns.toList.map patternLine)

/-- More steps than the demonstration takes. -/
def demonstrationLimit : Nat := 1000

/-- Evaluates a small graph on the localities of an engine: whether the sum of an
array is at least five. The array is summed on the last locality. -/
def demonstration (e : Engine) : Except Failure Value := do
  let last : LocalityId := ⟨UInt32.ofNat (e.pool.size - 1)⟩
  let (sum, e) := e.create "sum" last [.ofFloats (.vector #[1, 2, 3])]
  let (root, e) := e.create "__ge" .here [.node (← sum), .int 5]
  match e.session.evaluate demonstrationLimit (.node (← root)) [] with
  | some (.ok v, _) => .ok v
  | some (.error (.error err), _) => .error (.graph err)
  | _ => .error (.runtime "the demonstration did not end")

/-- What a run with these settings prints. The log is opened first. -/
def run (settings : Settings) (listing : Bool) (opensLog : LogSettings → Bool) :
    Except Failure String := do
  if !opensLog settings.logging then .error (.panic "the log file can't be opened")
  let e ← (Engine.start settings Engine.defaultCodename []).mapError
    (·.inside "Failed to start engine")
  if listing then return patternList e.session.registry
  let v ← demonstration e
  return "greater_equal(sum([1, 2, 3]), 5) = " ++ v.text ++ "\n"

namespace Command

/-- The file of settings that a command needs, where `standing` is looked for if the
command names none. -/
def source (standing : Option String) : Command → Option Source
  | help => none
  | run (some path) _ => some (.given path)
  | run none _ => standing.map .standing

/-- The report of a command, when what is in its file of settings is known, and
whether a log can be opened. -/
def report (c : Command) (file : Option (Source × Except FileError String))
    (opensLog : LogSettings → Bool) : Report :=
  match c with
  | help => { output := helpText }
  | run _ listing =>
    let settings := match file with
      | none => .ok {}
      | some (source, content) => (source.settings content).mapError
        (·.inside ("Failed to load " ++ source.path))
    match settings >>= fun s => CommandLine.run s listing opensLog with
    | .ok output => { output }
    | .error f => .ofFailure f

end Command

/-! ## In a tree of files -/

/-- Whether the log can be opened on a date: its file is there or can be made, where
need be together with the directories that lead to it. -/
def opensLog (t : FileTree) (date : String) (s : LogSettings) : Bool :=
  match s.directory with
  | none => true
  | some directory =>
    let path := FileTree.join directory (s.dailyName date)
    let opens (t : FileTree) : Bool := (t.write path "").isOk
    opens t ||
      match t.ensureParent path with
      | (t, none) => opens t
      | (_, some _) => false

/-- The report of a command line where files are in a tree. -/
def answer (t : FileTree) (date : String) (standing : Option String) (words : List String) :
    Report :=
  match Command.ofWords words with
  | .error f => .ofFault f
  | .ok c => c.report ((c.source standing).map fun s => (s, t.read s.path)) (opensLog t date)

end ArrayGraph.CommandLine
