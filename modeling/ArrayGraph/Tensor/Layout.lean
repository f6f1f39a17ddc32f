import ArrayGraph.Tensor.Basic
/-!
# Array text

An array is written as nested brackets: the elements of a vector on one line, the
parts of a higher rank on lines of their own, with one blank line more for each
rank above 2 and one space of indent for each bracket that is open. Large arrays
show only the ends of their long axes.
-/

namespace ArrayGraph

namespace Layout

/-- Arrays with this many elements or more leave out the middle of long axes. -/
def largeSize : Nat := 500

/-- The longest axis that a large array shows in full, by the number of axes that
come after it. -/
def axisLimit : Nat → Nat
  | 0 | 1 => 11
  | _ => 6

/-- The parts of an axis of length `n`: all of them, or with dots for the middle. -/
def entries (limit : Option Nat) (n : Nat) (part : Nat → String) : List String :=
  match limit with
  | none => (List.range n).map part
  | some limit =>
    if n ≤ limit then (List.range n).map part
    else
      let edge := limit / 2
      (List.range edge).map part ++ "..." :: (List.range edge).map fun i => part (n - edge + i)

/-- What stands between two parts of an axis with `inner` axes after it, inside
`depth` open brackets. -/
def separator (inner depth : Nat) : String :=
  if inner = 0 then ", "
  else "," ++ String.ofList (List.replicate inner '\n' ++ List.replicate (depth + 1) ' ')

/-- The text of the part of the array that starts at element `offset`. -/
def part (element : Nat → String) (large : Bool) : Shape → Nat → Nat → String
  | [], _, offset => element offset
  | n :: rest, depth, offset =>
    let limit := if large then some (axisLimit rest.length) else none
    let stride := Shape.size rest
    "[" ++ String.intercalate (separator rest.length depth)
      (entries limit n fun i => part element large rest (depth + 1) (offset + i * stride)) ++ "]"

end Layout

/-- The text of an array, given the text of its elements. -/
def Tensor.text {α : Type} (element : α → String) (t : Tensor α) : String :=
  if t.size = 0 then
    String.ofList (List.replicate t.rank '[' ++ List.replicate t.rank ']')
  else
    Layout.part (fun i => (t.data[i]?.map element).getD "") (Layout.largeSize ≤ t.size)
      t.shape 0 0

end ArrayGraph
