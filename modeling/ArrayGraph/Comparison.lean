import ArrayGraph.Error
/-!
# Comparison of values

Strings compare by code point and integers exactly, also inside arrays of integers.
Every other pair of numbers or arrays is compared as floats. Arrays are broadcast,
and the result has a truth value for each element.
-/

namespace ArrayGraph

/-- The comparison of two values. -/
def Value.compare (op : CompareOp) (lhs rhs : Value) : Except Cause Value :=
  match lhs, rhs with
  | .str a, .str b => .ok (.bool (op.apply a b))
  | .int a, .int b => .ok (.bool (op.apply a b))
  | lhs, rhs =>
    match lhs.toInts?, rhs.toInts? with
    | some a, some b => (a.broadcast op.apply b).map .ofBools |>.mapError .unmatched
    | _, _ =>
      match lhs.toNumeric?, rhs.toNumeric? with
      | some a, some b => (a.broadcast op.apply b).map .ofBools |>.mapError .unmatched
      | _, _ => .error (.unrelatedKinds op.symbol lhs.kind rhs.kind)

end ArrayGraph
