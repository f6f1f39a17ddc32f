import ArrayGraph.Error
/-!
# Arithmetic on values

Two integers give an integer as long as the operator has an exact result that fits.
Every other pair of numbers or arrays is broadcast and combined as floats.
-/

namespace ArrayGraph

/-- The result of an operator on two values as floats. -/
def Value.combineFloats (op : ArithmeticOp) (lhs rhs : Value) : Except Cause Value :=
  match lhs.toNumeric?, rhs.toNumeric? with
  | some a, some b => (a.broadcast op.apply b).map .ofFloats |>.mapError .unmatched
  | _, _ => .error (.unrelatedKinds op.symbol lhs.kind rhs.kind)

/-- The result of an operator on two values. -/
def Value.combine (op : ArithmeticOp) (lhs rhs : Value) : Except Cause Value :=
  match lhs, rhs with
  | .int a, .int b =>
    match op.applyExact? a b with
    | some n => .ok (.int n)
    | none => combineFloats op lhs rhs
  | lhs, rhs => combineFloats op lhs rhs

end ArrayGraph
