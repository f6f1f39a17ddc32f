/-!
# Dense arrays

A `Tensor` is a shape and its elements in row-major order, one for every index of
the shape. Rank 0 is a single element. `Tensor.ofShape` is the one place where the
number of elements is checked; every other operation keeps the two in step.
-/

namespace ArrayGraph

/-- The extents of an array, outermost axis first. -/
abbrev Shape := List Nat

/-- The number of indices of a shape. -/
def Shape.size : Shape → Nat
  | [] => 1
  | n :: shape => n * Shape.size shape

@[simp] theorem Shape.size_nil : Shape.size [] = 1 := rfl

@[simp] theorem Shape.size_cons (n : Nat) (shape : Shape) :
    Shape.size (n :: shape) = n * Shape.size shape := rfl

theorem Shape.size_append (outer inner : Shape) :
    Shape.size (outer ++ inner) = Shape.size outer * Shape.size inner := by
  induction outer with
  | nil => simp
  | cons n outer ih => simp [ih, Nat.mul_assoc]

/-- An array of any rank. -/
structure Tensor (α : Type) where
  shape : Shape
  data : Array α
  size_eq : data.size = shape.size

namespace Tensor

variable {α β γ : Type}

/-- The number of axes. -/
def rank (t : Tensor α) : Nat := t.shape.length

/-- The number of elements. -/
def size (t : Tensor α) : Nat := t.data.size

/-- The elements in row-major order. -/
def toList (t : Tensor α) : List α := t.data.toList

/-- The rank-0 array that holds one element. -/
def scalar (a : α) : Tensor α := ⟨[], #[a], rfl⟩

/-- The array of rank 1 with these elements. -/
def vector (xs : Array α) : Tensor α := ⟨[xs.size], xs, by simp⟩

def map (f : α → β) (t : Tensor α) : Tensor β :=
  ⟨t.shape, t.data.map f, by simp [t.size_eq]⟩

/-- The same elements as an array of rank 1. -/
def flatten (t : Tensor α) : Tensor α := vector t.data

/-- The only element of an array of rank 0, and nothing for any other rank. -/
def item? (t : Tensor α) : Option α := if t.shape = [] then t.data[0]? else none

/-- The element of an array of rank 0. -/
def item (t : Tensor α) (h : t.shape = []) : α :=
  have : 0 < t.data.size := by simp [t.size_eq, h]
  t.data[0]

/-- Whether some element passes. -/
def any (p : α → Bool) (t : Tensor α) : Bool := t.data.any p

/-- Same shape and equal elements; an element that differs from itself makes the
arrays differ. -/
instance [BEq α] : BEq (Tensor α) where
  beq a b := a.shape == b.shape && a.data == b.data

@[simp] theorem shape_map (f : α → β) (t : Tensor α) : (t.map f).shape = t.shape := rfl

@[simp] theorem toList_map (f : α → β) (t : Tensor α) : (t.map f).toList = t.toList.map f := by
  simp [map, toList]

@[simp] theorem toList_scalar (a : α) : (scalar a).toList = [a] := rfl

theorem item?_eq_some_item (t : Tensor α) (h : t.shape = []) : t.item? = some (t.item h) := by
  have : 0 < t.data.size := by simp [t.size_eq, h]
  simp [item?, item, h, this]

/-! ## Building an array of a given shape -/

/-- Why elements do not form an array of the shape asked for. -/
inductive ShapeError
  /-- The extents other than zero multiply to more than an index can hold. -/
  | overflow
  | tooFewElements
  | tooManyElements
  deriving DecidableEq, Repr

/-- The largest product of extents that an array may have. -/
def maxSize : Nat := 9223372036854775807

/-- An array of this shape. The product of the extents other than zero is checked
before the number of elements. -/
def ofShape (shape : Shape) (data : Array α) : Except ShapeError (Tensor α) :=
  if Shape.size (shape.filter (· != 0)) > maxSize then .error .overflow
  else if h : data.size = shape.size then .ok ⟨shape, data, h⟩
  else if data.size < shape.size then .error .tooFewElements
  else .error .tooManyElements

namespace ShapeError

def message : ShapeError → String
  | overflow => "ShapeError/Overflow: arithmetic overflow"
  | tooFewElements => "ShapeError/OutOfBounds: out of bounds indexing"
  | tooManyElements => "ShapeError/IncompatibleShape: incompatible shapes"

end ShapeError

end Tensor

end ArrayGraph
