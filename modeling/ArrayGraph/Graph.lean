import ArrayGraph.Error
import ArrayGraph.Text.Quoted
/-!
# Graphs

A graph is a list of nodes, each with what it computes, its operands, its site and
its locality. A node is added after everything that its operands refer to, and it is
checked when it is added: `Graph.check` gives the reason to refuse it, if any.
-/

namespace ArrayGraph

structure Node where
  primitive : Primitive
  operands : List Value
  site : Site
  locality : Locality

namespace Node

def text (n : Node) : String :=
  "PrimitiveHandle \x7b kind: " ++ quoted n.primitive.kind ++ ", name: " ++ quoted n.site.name
    ++ ", locality: " ++ n.locality.id.text ++ " \x7d"

/-- The operands and arguments of one call. A node built without operands takes the
arguments of the call as its operands, and those are evaluated without arguments. -/
def bind (n : Node) (args : List Value) : List Value × List Value :=
  if n.operands.isEmpty then (args, []) else (n.operands, args)

end Node

structure Graph where
  nodes : Array Node

namespace Graph

def empty : Graph := ⟨#[]⟩

/-- The node that a handle refers to. -/
def node? (g : Graph) (h : Handle) : Option Node := g.nodes[h.index]?

/-- Whether the value is a handle to a variable. -/
def isVariable (g : Graph) (v : Value) : Bool :=
  match v with
  | .node h => (g.node? h).any (·.primitive == .variable)
  | _ => false

/-- Whether the value is an integer that can number an argument. -/
def isArgumentIndex (v : Value) : Bool := v.asInt?.any (0 ≤ ·)

/-- Why a node of these operands must not be built: first their number, then an
operand that is not valid, then what the primitive asks of its first operand. -/
def check (g : Graph) (p : Primitive) (operands : List Value) : Except Cause Unit :=
  if !p.accepts operands.length then .error (.wrongCount p)
  else if p.needsValid && operands.any (!·.isValid) then .error (.emptyOperand p)
  else
    match p, operands with
    | .store, target :: _ => if g.isVariable target then .ok () else .error .notAVariable
    | .argument, index :: _ => if isArgumentIndex index then .ok () else .error .notAnIndex
    | _, _ => .ok ()

/-- The graph with one more node, and the handle to it. -/
def add (g : Graph) (n : Node) : Handle × Graph :=
  (⟨g.nodes.size, n.site.name⟩, ⟨g.nodes.push n⟩)

/-- The graph with one more node that has been checked, and the handle to it. -/
def build (g : Graph) (n : Node) : Except Error (Handle × Graph) :=
  match g.check n.primitive n.operands with
  | .error cause => .error (.raised n.site cause)
  | .ok () => .ok (g.add n)

end Graph

end ArrayGraph
