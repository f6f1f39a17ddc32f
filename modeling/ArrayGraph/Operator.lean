/-!
# Operators

The two families of binary operators: comparisons, for any ordered elements, and
arithmetic, for floats and (where the result fits) for machine integers.
-/

namespace ArrayGraph

inductive CompareOp
  | greater | greaterEqual | less | lessEqual | equal | notEqual
  deriving DecidableEq, Repr

namespace CompareOp

def all : List CompareOp := [greater, greaterEqual, less, lessEqual, equal, notEqual]

/-- The name that a graph knows the operator by. -/
def name : CompareOp → String
  | greater => "__gt"
  | greaterEqual => "__ge"
  | less => "__lt"
  | lessEqual => "__le"
  | equal => "__eq"
  | notEqual => "__ne"

def symbol : CompareOp → String
  | greater => ">"
  | greaterEqual => ">="
  | less => "<"
  | lessEqual => "<="
  | equal => "=="
  | notEqual => "!="

/-- The comparison of two elements. Elements that are not ordered to each other
satisfy inequality only. -/
def apply {α : Type} [LT α] [DecidableLT α] [LE α] [DecidableLE α] [BEq α] (op : CompareOp)
    (a b : α) : Bool :=
  match op with
  | greater => b < a
  | greaterEqual => b ≤ a
  | less => a < b
  | lessEqual => a ≤ b
  | equal => a == b
  | notEqual => a != b

end CompareOp

inductive ArithmeticOp
  | add | sub | mul | div
  deriving DecidableEq, Repr

namespace ArithmeticOp

def all : List ArithmeticOp := [add, sub, mul, div]

/-- The name that a graph knows the operator by. -/
def name : ArithmeticOp → String
  | add => "__add"
  | sub => "__sub"
  | mul => "__mul"
  | div => "__div"

def symbol : ArithmeticOp → String
  | add => "+"
  | sub => "-"
  | mul => "*"
  | div => "/"

def apply {α : Type} [Add α] [Sub α] [Mul α] [Div α] (op : ArithmeticOp) (a b : α) : α :=
  match op with
  | add => a + b
  | sub => a - b
  | mul => a * b
  | div => a / b

/-- The integer as a machine integer, if it fits. -/
def fit? (n : Int) : Option Int64 :=
  if Int64.minValue.toInt ≤ n ∧ n ≤ Int64.maxValue.toInt then some (Int64.ofInt n) else none

/-- The exact integer result. Division has none, and neither has a result that does
not fit. -/
def applyExact? (op : ArithmeticOp) (a b : Int64) : Option Int64 :=
  match op with
  | add => fit? (a.toInt + b.toInt)
  | sub => fit? (a.toInt - b.toInt)
  | mul => fit? (a.toInt * b.toInt)
  | div => none

theorem toInt_of_fit? {n : Int} {i : Int64} (h : fit? n = some i) : i.toInt = n := by
  simp only [fit?, Option.ite_none_right_eq_some, Option.some.injEq] at h
  obtain ⟨⟨hl, hu⟩, rfl⟩ := h
  exact Int64.toInt_ofInt_of_le hl (Int.lt_add_one_of_le hu)

end ArithmeticOp

end ArrayGraph
