import ArrayGraph.Tensor.Layout
import ArrayGraph.Decimal
/-!
# Values

A `Value` is what an operand, an argument or a result can be: nothing, a scalar, a
text, an array of one of three element types, a list of values, or a handle to a
node of a graph. The views below it (`asInt?`, `toNumeric?`, `truthy?`, …) are what
the nodes of a graph read of a value.
-/

namespace ArrayGraph

/-- An array of numbers or truth values. -/
inductive NumericArray
  | float (t : Tensor Float)
  | int (t : Tensor Int64)
  | bool (t : Tensor Bool)

/-- A reference to a node: its place in the graph and its instance name. -/
structure Handle where
  index : Nat
  name : String
  deriving DecidableEq, Repr

inductive Value
  | empty
  | bool (b : Bool)
  | int (i : Int64)
  | float (x : Float)
  | str (s : String)
  | array (a : NumericArray)
  | list (items : List Value)
  | node (h : Handle)
  deriving Inhabited

/-! ## Kinds -/

/-- What sort of value a value is. -/
inductive Kind
  | empty | bool | int | float | str | array | list | node
  deriving DecidableEq, Repr

namespace Kind

def name : Kind → String
  | empty => "empty"
  | bool => "bool"
  | int => "int64"
  | float => "float64"
  | str => "string"
  | array => "array"
  | list => "list"
  | node => "primitive"

end Kind

/-! ## Numbers as floats -/

/-- A truth value as a number: one or zero. -/
def floatOfBool (b : Bool) : Float := if b then 1.0 else 0.0

/-- The float nearest to an integer, the even one of two. -/
def floatOfInt (i : Int64) : Float := .ofModel (.ofInt64 i)

namespace NumericArray

/-- The name of the element type. -/
def elementName : NumericArray → String
  | float _ => "float64"
  | int _ => "int64"
  | bool _ => "bool"

def shape : NumericArray → Shape
  | float t => t.shape
  | int t => t.shape
  | bool t => t.shape

def rank (a : NumericArray) : Nat := a.shape.length

/-- The number of elements. -/
def size : NumericArray → Nat
  | float t => t.size
  | int t => t.size
  | bool t => t.size

/-- Every element as a float. -/
def toFloats : NumericArray → Tensor Float
  | float t => t
  | int t => t.map floatOfInt
  | bool t => t.map floatOfBool

/-- Whether some element is not zero; a number that is no number is not zero. -/
def anyTrue : NumericArray → Bool
  | float t => t.any (· != 0)
  | int t => t.any (· != 0)
  | bool t => t.any id

/-- The same elements at rank 1. -/
def flatten : NumericArray → NumericArray
  | float t => float t.flatten
  | int t => int t.flatten
  | bool t => bool t.flatten

/-- Same element type, same shape, equal elements. -/
instance : BEq NumericArray where
  beq
    | float a, float b => a == b
    | int a, int b => a == b
    | bool a, bool b => a == b
    | _, _ => false

def text : NumericArray → String
  | float t => t.text decimalText
  | int t => t.text fun i => toString i.toInt
  | bool t => t.text fun b => if b then "true" else "false"

end NumericArray

namespace Value

def kind : Value → Kind
  | empty => .empty
  | bool _ => .bool
  | int _ => .int
  | float _ => .float
  | str _ => .str
  | array _ => .array
  | list _ => .list
  | node _ => .node

/-- An operand must not be empty. -/
def isValid : Value → Bool
  | empty => false
  | _ => true

/-- The rank of a number or an array. -/
def rank? : Value → Option Nat
  | bool _ | int _ | float _ => some 0
  | array a => some a.rank
  | _ => none

/-! ## Views -/

def asText? : Value → Option String
  | str s => some s
  | _ => none

def asHandle? : Value → Option Handle
  | node h => some h
  | _ => none

/-- An integer, or the integer that an array of rank 0 holds. -/
def asInt? : Value → Option Int64
  | int i => some i
  | array (.int t) => t.item?
  | _ => none

/-- A number, or the number that an array of rank 0 holds, as a float. -/
def asFloat? : Value → Option Float
  | bool b => some (floatOfBool b)
  | int i => some (floatOfInt i)
  | float x => some x
  | array a => a.toFloats.item?
  | _ => none

/-- An integer or an array of integers. -/
def toInts? : Value → Option (Tensor Int64)
  | int i => some (.scalar i)
  | array (.int t) => some t
  | _ => none

/-- A number or an array, as floats. -/
def toNumeric? : Value → Option (Tensor Float)
  | array a => some a.toFloats
  | v => v.asFloat?.map .scalar

/-- Whether the value holds as a condition: emptiness does not, a number or an array
does if some element is not zero, a text or a list if it has a member. A handle is
no condition. -/
def truthy? : Value → Option Bool
  | empty => some false
  | bool b => some b
  | int i => some (i != 0)
  | float x => some (x != 0)
  | str s => some (s != "")
  | array a => some a.anyTrue
  | list items => some (!items.isEmpty)
  | node _ => none

/-! ## Results -/

/-- An array of truth values as a value; rank 0 becomes a scalar. -/
def ofBools (t : Tensor Bool) : Value :=
  if h : t.shape = [] then bool (t.item h) else array (.bool t)

/-- An array of floats as a value; rank 0 becomes a scalar. -/
def ofFloats (t : Tensor Float) : Value :=
  if h : t.shape = [] then float (t.item h) else array (.float t)

/-! ## Equality -/

mutual

/-- Equality of values. Kinds never mix, floats compare as numbers, and handles are
equal when they refer to the same node. -/
def beq : Value → Value → Bool
  | empty, empty => true
  | bool a, bool b => a == b
  | int a, int b => a == b
  | float a, float b => a == b
  | str a, str b => a == b
  | array a, array b => a == b
  | list a, list b => beqList a b
  | node a, node b => a.index == b.index
  | _, _ => false

/-- Equality item by item. -/
def beqList : List Value → List Value → Bool
  | [], [] => true
  | a :: as, b :: bs => beq a b && beqList as bs
  | _, _ => false

end

instance : BEq Value := ⟨beq⟩

/-! ## Text -/

mutual

/-- The text of a value. A string stands in quotes as it is. -/
def text : Value → String
  | empty => "nil"
  | bool b => if b then "true" else "false"
  | int i => toString i.toInt
  | float x => decimalText x
  | str s => "\"" ++ s ++ "\""
  | array a => a.text
  | list items => "[" ++ String.intercalate ", " (texts items) ++ "]"
  | node h => "<primitive " ++ h.name ++ ">"

def texts : List Value → List String
  | [] => []
  | v :: vs => text v :: texts vs

end

end Value

end ArrayGraph
