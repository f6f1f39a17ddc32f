import ArrayGraph.Error
/-!
# Settings

How many localities an engine has, how many threads each of them, what the threads
are called, and where the log goes.
-/

namespace ArrayGraph

structure LogSettings where
  filter : String := "info,arrayflow=debug"
  directory : Option String := none
  fileName : String := "arrayflow.log"
  deriving DecidableEq, Repr

structure Settings where
  localities : UInt64 := 1
  workerThreads : UInt64 := 2
  threadName : String := "locality"
  logging : LogSettings := {}
  deriving DecidableEq, Repr

/-- The name of the file that the log of a day goes to. -/
def LogSettings.dailyName (s : LogSettings) (date : String) : String :=
  if s.fileName = "" then date else s.fileName ++ "." ++ date

namespace Settings

/-- What is wrong with the settings, if anything: the first of these that holds. -/
def fault? (s : Settings) : Option String :=
  if s.localities = 0 then some "localities must be at least 1"
  else if s.workerThreads = 0 then some "worker_threads must be at least 1"
  else if s.threadName = "" then some "thread_name_prefix must not be empty"
  else none

def validate (s : Settings) : Except Failure Unit :=
  match s.fault? with
  | some message => .error (.config message)
  | none => .ok ()

end Settings

end ArrayGraph
