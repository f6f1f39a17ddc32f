import ArrayGraph.Evaluation.Step
import ArrayGraph.Registry
/-!
# Sessions

A session is a registry, the graph built from its patterns so far, and the state of
that graph's variables. Building a node never changes an older one; evaluating
changes nothing but the state.
-/

namespace ArrayGraph

structure Session where
  registry : Registry
  graph : Graph
  world : World

namespace Session

def ofRegistry (r : Registry) : Session := ⟨r, .empty, .empty⟩

/-- What the slot of a new node holds: a variable's initial operand. -/
def initialSlot (p : Primitive) (operands : List Value) : Value :=
  match p with
  | .variable => operands.head?.getD .empty
  | _ => .empty

/-- Builds a node of the named pattern under an instance name of the caller's. -/
def createNamed (s : Session) (name : String) (operands : List Value) (locality : Locality)
    (site : Site) : Except Error Handle × Session :=
  match s.registry.get? name with
  | none => (.error (.raised site (.unknownPattern name)), s)
  | some p =>
    match s.graph.build ⟨p.primitive, operands, site, locality⟩ with
    | .error e => (.error e, s)
    | .ok (h, graph) =>
      let slots := s.world.slots.push (initialSlot p.primitive operands)
      (.ok h, { s with graph, world := { s.world with slots } })

/-- Builds a node of the named pattern under the next instance name. The number is
used up also when the node can't be built. -/
def create (s : Session) (name : String) (operands : List Value) (locality : Locality)
    (codename : String) : Except Error Handle × Session :=
  let (instanceName, registry) := s.registry.nextName name
  createNamed { s with registry } name operands locality ⟨instanceName.text, codename⟩

/-- Puts a value into the slot of a variable. -/
def setVariable (s : Session) (h : Handle) (v : Value) : Session :=
  { s with world := s.world.setSlot h.index v }

/-- Evaluates an operand in at most `limit` steps. -/
def evaluate (s : Session) (limit : Nat) (v : Value) (args : List Value) :
    Option (Outcome × Session) :=
  (s.graph.evaluate limit v args s.world).map fun (r, world) => (r, { s with world })

/-- Evaluates operands side by side, to the list of their values. -/
def evaluateAll (s : Session) (limit : Nat) (vs args : List Value) :
    Option (Outcome × Session) :=
  let (j, w) := s.graph.join .all vs args s.world
  (j.run s.graph limit w).map fun (r, world) => (r, { s with world })

end Session

/-! ## Reading results -/

namespace Outcome

/-- A value that must be a text. -/
def toText (site : Site) (r : Outcome) : Outcome :=
  r.bind fun v => match v with
    | .str s => .ok (.str s)
    | v => fail site (.notText v.kind)

/-- A value that must be an integer. -/
def toInteger (site : Site) (r : Outcome) : Outcome :=
  r.bind fun v => match v.asInt? with
    | some i => .ok (.int i)
    | none => fail site (.notInteger v.kind)

/-- A value that must hold or not hold as a condition. -/
def toCondition (site : Site) (r : Outcome) : Outcome :=
  r.bind fun v => match v.truthy? with
    | some b => .ok (.bool b)
    | none => fail site (.notCondition v.kind)

end Outcome

end ArrayGraph
