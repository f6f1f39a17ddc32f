import ArrayGraph.Session
import ArrayGraph.Settings.Basic
/-!
# Engines

An engine is a pool of localities and a session whose nodes are all placed on it. It
starts from settings that are valid and from the built-in patterns, to which it adds
those given.
-/

namespace ArrayGraph

structure Engine where
  settings : Settings
  codename : String
  pool : Pool
  session : Session

namespace Engine

/-- The codename of an engine that was given none. -/
def defaultCodename : String := "<engine>"

/-- Starts an engine: the settings are looked at first, then the patterns, and then
the pool is started. -/
def start (settings : Settings) (codename : String) (patterns : List Pattern) :
    Except Failure Engine := do
  settings.validate
  let registry ← (Registry.builtins.registerAll patterns).mapError fun e =>
    .context "Failed to register pattern" (.graph e)
  let pool : Pool := ⟨settings.localities.toNat, settings.threadName⟩
  match pool.fault? settings.workerThreads.toNat with
  | some reason => .error (.panic reason)
  | none => return { settings, codename, pool, session := .ofRegistry registry }

/-- Builds a node on one of the engine's localities. No number is used up for a
locality that the engine does not have. -/
def create (e : Engine) (name : String) (id : LocalityId) (operands : List Value) :
    Except Failure Handle × Engine :=
  match e.pool.locality? id with
  | none =>
    (.error (.graph (.raised ⟨name, e.codename⟩ (.unavailable id e.pool.size))), e)
  | some locality =>
    let (r, session) := e.session.create name operands locality e.codename
    (r.mapError .graph, { e with session })

def text (e : Engine) : String :=
  "Engine \x7b localities: " ++ toString e.pool.size ++ ", patterns: "
    ++ toString e.session.registry.size ++ ", codename: " ++ quoted e.codename ++ " \x7d"

end Engine

end ArrayGraph
