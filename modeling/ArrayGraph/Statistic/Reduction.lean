import ArrayGraph.Error
import ArrayGraph.Tensor.Lane
/-!
# Statistics of values

A statistic reduces a number or an array to one number, or along an axis to an array
of one rank less. A negative axis counts from the last one back.
-/

namespace ArrayGraph

/-- The axis counted from the front, if an operand of this rank has it. -/
def axisFromFront? (axis : Int64) (rank : Nat) : Option (Fin rank) :=
  let k := if axis.toInt < 0 then axis.toInt + rank else axis.toInt
  if h : 0 ≤ k ∧ k < rank then some ⟨k.toNat, by omega⟩ else none

/-- The statistic of a value, over all its elements or along an axis. -/
def Value.reduce (s : Statistic) (v : Value) (axis : Option Int64) : Except Cause Value :=
  match v.toNumeric? with
  | none => .error (.notReducible s v.kind)
  | some t =>
    match axis with
    | none => (s.reduce t.toList).map .float |>.mapError fun _ => .noElements
    | some axis =>
      match axisFromFront? axis t.rank with
      | none => .error (.axisOutOfRange axis t.rank)
      | some k => (t.mapLanes s.reduce k.val k.isLt).map .ofFloats |>.mapError fun _ => .noElements

end ArrayGraph
