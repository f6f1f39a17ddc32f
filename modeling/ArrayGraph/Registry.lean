import Std.Data.HashMap
import ArrayGraph.Error
import ArrayGraph.InstanceName
import ArrayGraph.Pattern
/-!
# The registry

A registry holds patterns in the order of registration, with an index from names to
positions, and numbers the instances that are made from them. A name is registered
once.
-/

namespace ArrayGraph

structure Registry where
  patterns : Array Pattern
  /-- The position of each name. -/
  index : Std.HashMap String Nat
  /-- The number of the next instance. -/
  sequence : UInt64

namespace Registry

def empty : Registry := ⟨#[], ∅, 0⟩

/-- Adds a pattern under a name that is not taken. -/
def register (r : Registry) (p : Pattern) : Except Error Registry :=
  if r.index.contains p.name then .error (.duplicatePattern p.name)
  else .ok { r with
    patterns := r.patterns.push p
    index := r.index.insert p.name r.patterns.size }

/-- Adds patterns in order, up to the first whose name is taken. -/
def registerAll (r : Registry) (ps : List Pattern) : Except Error Registry :=
  ps.foldlM register r

/-- Adds those patterns whose names are not taken. -/
def registerNew (r : Registry) (ps : List Pattern) : Registry :=
  ps.foldl (fun r p => match r.register p with
    | .ok r => r
    | .error _ => r) r

/-- The registry that a program starts from. -/
def builtins : Registry := empty.registerNew Pattern.builtins

def size (r : Registry) : Nat := r.patterns.size

def names (r : Registry) : List String := r.patterns.toList.map (·.name)

/-- The pattern of a name. -/
def get? (r : Registry) (name : String) : Option Pattern :=
  (r.index[name]?).bind fun i => r.patterns[i]?

def help? (r : Registry) (name : String) : Option String := (r.get? name).bind (·.help)

/-- The first registered pattern that lists the signature. -/
def findBySignature? (r : Registry) (signature : String) : Option Pattern :=
  r.patterns.find? (·.signatures.contains signature)

/-- The instance name for the next node of this name, and the registry after it. -/
def nextName (r : Registry) (name : String) : InstanceName × Registry :=
  (.numbered name r.sequence, { r with sequence := r.sequence + 1 })

def text (r : Registry) : String := quotedList r.names

end Registry

end ArrayGraph
