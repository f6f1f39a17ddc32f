import ArrayGraph.Tensor.Basic
/-!
# Broadcasting

Two arrays are combined element by element after both are repeated to a common
shape. `broadcastShape` decides that shape: a rank-0 operand goes with anything up
to rank 2, equal shapes go together, and a vector goes over the rows of a matrix
with as many columns. `Tensor.repeatTo?` repeats an array along leading axes that
it lacks, and `Tensor.broadcast` combines the two.
-/

namespace ArrayGraph

/-- Why two shapes have no common shape. -/
inductive Mismatch
  /-- Two vectors or two matrices of different extents. -/
  | extents (lhs rhs : Shape)
  | vectorOverMatrix (elements columns : Nat)
  | matrixOverVector (columns elements : Nat)
  | ranks (lhs rhs : Nat)
  /-- An operand can't be repeated to the shape that was agreed on. -/
  | repetition (shape : Shape)
  deriving DecidableEq, Repr

/-- The shape that both operands are repeated to. -/
def broadcastShape (lhs rhs : Shape) : Except Mismatch Shape :=
  match lhs, rhs with
  | [], [] => .ok []
  | [], [n] => .ok [n]
  | [], [m, n] => .ok [m, n]
  | [n], [] => .ok [n]
  | [m, n], [] => .ok [m, n]
  | [a], [b] => if a = b then .ok [a] else .error (.extents [a] [b])
  | [a, b], [c, d] =>
    if [a, b] = [c, d] then .ok [a, b] else .error (.extents [a, b] [c, d])
  | [n], [rows, columns] =>
    if n = columns then .ok [rows, columns] else .error (.vectorOverMatrix n columns)
  | [rows, columns], [n] =>
    if n = columns then .ok [rows, columns] else .error (.matrixOverVector columns n)
  | lhs, rhs => .error (.ranks lhs.length rhs.length)

namespace Tensor

variable {α β γ : Type}

/-- The array repeated along the axes in front that `shape` has and it lacks, if
`shape` ends in its own extents. -/
def repeatTo? (t : Tensor α) (shape : Shape) : Option { r : Tensor α // r.shape = shape } :=
  if h : t.shape = shape.drop (shape.length - t.rank) then
    have bound (i : Fin shape.size) : i.val % t.shape.size < t.data.size := by
      rw [t.size_eq]
      apply Nat.mod_lt
      apply Nat.pos_of_ne_zero
      intro h0
      have hs := Shape.size_append (shape.take (shape.length - t.rank)) t.shape
      rw [h0, h, List.take_append_drop] at hs
      have := i.isLt
      omega
    some ⟨⟨shape, Array.ofFn fun i : Fin shape.size =>
      have := bound i
      t.data[i.val % t.shape.size], by simp⟩, rfl⟩
  else none

/-- Two arrays of one shape, combined at each index. -/
def zipWith (f : α → β → γ) (a : Tensor α) (b : Tensor β) (h : a.shape = b.shape) : Tensor γ :=
  ⟨a.shape, Array.zipWith f a.data b.data, by simp [a.size_eq, b.size_eq, h]⟩

/-- Both arrays repeated to their common shape and combined at each index. -/
def broadcast (f : α → β → γ) (lhs : Tensor α) (rhs : Tensor β) : Except Mismatch (Tensor γ) :=
  match broadcastShape lhs.shape rhs.shape with
  | .error e => .error e
  | .ok shape =>
    match lhs.repeatTo? shape, rhs.repeatTo? shape with
    | some a, some b => .ok (zipWith f a.1 b.1 (a.2.trans b.2.symm))
    | _, _ => .error (.repetition shape)

end Tensor

end ArrayGraph
