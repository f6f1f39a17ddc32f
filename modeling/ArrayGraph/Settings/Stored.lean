import ArrayGraph.Document.JsonText
import ArrayGraph.Document.Toml.Reader
import ArrayGraph.Document.Toml.Writer
import ArrayGraph.FileTree
import ArrayGraph.Settings.Basic
/-!
# Stored settings

Settings are kept in a file in one of two formats; the name of the file says which.
A file gives the settings that differ from the defaults. `Settings.parse?` reads a
text and `Settings.print?` writes one; `load` and `save` do so with a file.
-/

namespace ArrayGraph

/-- The formats in which settings are kept. -/
inductive FileFormat
  | toml | json
  deriving DecidableEq, Repr

namespace FileFormat

/-- A file whose extension is `json`, in any case of letters, is in that format. -/
def ofPath (path : String) : FileFormat :=
  match FileTree.extension? path with
  | some extension => if extension.map Char.toLower = "json" then json else toml
  | none => toml

/-- What a text in this format says. -/
def parse? (f : FileFormat) (text : String) : Option Document :=
  match f with
  | toml => Toml.parse? text
  | json => JsonText.parse? text

/-- The text of an outline in this format. -/
def print? (f : FileFormat) (o : Outline) : Option String :=
  match f with
  | toml => Toml.print? o
  | json => some (JsonText.print o)

/-- Whether a record that is written as a list must end with its last field. -/
def closedLists : FileFormat → Bool
  | toml => false
  | json => true

end FileFormat

namespace LogSettings

def keys : List String := ["filter", "directory", "file_prefix"]

def ofDocument? (closed : Bool) (d : Document) : Option LogSettings := do
  match ← d.record? closed keys with
  | [filter, directory, fileName] =>
    let default : LogSettings := {}
    return {
      filter := ← Document.orDefault Document.toText? default.filter filter
      directory := ← Document.orDefault Document.toOptionalText? default.directory directory
      fileName := ← Document.orDefault Document.toText? default.fileName fileName }
  | _ => none

def fields (s : LogSettings) : List (String × OutlineField) :=
  [("filter", .text s.filter),
    ("directory", match s.directory with
      | some d => .text d
      | none => .absent),
    ("file_prefix", .text s.fileName)]

end LogSettings

namespace Settings

def keys : List String := ["localities", "worker_threads", "thread_name_prefix", "logging"]

/-- The settings that a document gives, with defaults for what it leaves out. -/
def ofDocument? (closed : Bool) (d : Document) : Option Settings := do
  match ← d.record? closed keys with
  | [localities, workerThreads, threadName, logging] =>
    let default : Settings := {}
    return {
      localities := ← Document.orDefault Document.toCount? default.localities localities
      workerThreads := ← Document.orDefault Document.toCount? default.workerThreads workerThreads
      threadName := ← Document.orDefault Document.toText? default.threadName threadName
      logging := ← Document.orDefault (LogSettings.ofDocument? closed) default.logging logging }
  | _ => none

/-- What is written of settings. -/
def outline (s : Settings) : Outline where
  fields :=
    [("localities", .count s.localities.toNat),
      ("worker_threads", .count s.workerThreads.toNat),
      ("thread_name_prefix", .text s.threadName)]
  sections := [("logging", s.logging.fields)]

/-- The settings that a text gives. -/
def parse? (f : FileFormat) (text : String) : Option Settings :=
  (f.parse? text).bind (ofDocument? f.closedLists)

/-- The text of settings. -/
def print? (f : FileFormat) (s : Settings) : Option String := f.print? s.outline

/-- The settings in a file whose text, or the reason why there is none, is known. -/
def ofFile (path : String) (content : Except FileError String) : Except Failure Settings :=
  match content with
  | .error e => .error (.config ("Failed to read " ++ path ++ ": " ++ e.message))
  | .ok text =>
    match parse? (.ofPath path) text with
    | some s => .ok s
    | none => .error (.config ("Failed to parse " ++ path))

/-- The settings in a file. -/
def load (t : FileTree) (path : String) : Except Failure Settings := ofFile path (t.read path)

/-- The settings in a file, or the defaults if there is a failure. -/
def loadOrDefault (t : FileTree) (path : String) : Settings :=
  match load t path with
  | .ok s => s
  | .error _ => {}

/-- Writes settings to a file, and gives the tree after it. The text is made first,
then the directories that lead to the file, then the file. -/
def save (s : Settings) (t : FileTree) (path : String) : Except Failure Unit × FileTree :=
  match s.print? (.ofPath path) with
  | none => (.error (.serialization "out-of-range value for u64 type"), t)
  | some text =>
    match t.ensureParent path with
    | (t, some e) => (.error (.io e.message), t)
    | (t, none) =>
      match t.write path text with
      | .ok t => (.ok (), t)
      | .error e => (.error (.config ("Failed to write " ++ path ++ ": " ++ e.message)), t)

end Settings

end ArrayGraph
