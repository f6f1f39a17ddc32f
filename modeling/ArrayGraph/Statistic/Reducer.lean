import ArrayGraph.Tensor.Basic
import ArrayGraph.Statistic.Welford
/-!
# Reducers

A `Reducer` turns a sequence of numbers into one: it starts from an identity, folds
the numbers in one by one in the order given, and finalizes the accumulator with the
count of what was folded. Numbers may come in chunks; `Reducer.combine` folds a chunk
and tells how many numbers it held, and the caller adds those counts up.

`Statistic` names the eight reducers.
-/

namespace ArrayGraph

/-- Numbers `α` folded into an accumulator `β`. -/
structure Reducer (α β : Type) where
  identity : β
  fold : β → α → β
  finalize : β → Nat → Except EmptySequence α

/-- A piece of the sequence that a reducer folds. -/
inductive Chunk (α : Type)
  | scalar (x : α)
  | array (t : Tensor α)

/-- The numbers of a chunk, in row-major order. -/
def Chunk.toList {α : Type} : Chunk α → List α
  | scalar x => [x]
  | array t => t.toList

namespace Reducer

variable {α β : Type}

/-- Folds a chunk and tells how many numbers it held. -/
def combine (r : Reducer α β) (acc : β) : Chunk α → β × Nat
  | .scalar x => (r.fold acc x, 1)
  | .array t => (t.data.foldl r.fold acc, t.size)

/-- The whole sequence in one go. -/
def reduce (r : Reducer α β) (xs : List α) : Except EmptySequence α :=
  r.finalize (xs.foldl r.fold r.identity) xs.length

/-! ## The reducers -/

/-- An operation folded from an identity, defined for an empty sequence too. -/
def running (identity : α) (op : α → α → α) : Reducer α α :=
  ⟨identity, op, fun acc _ => .ok acc⟩

variable [Scalar α]

def sum : Reducer α α := running Scalar.zero (· + ·)

def product : Reducer α α := running Scalar.one (· * ·)

/-- The arithmetic mean. -/
def mean : Reducer α α :=
  ⟨Scalar.zero, (· + ·), fun acc count =>
    if count = 0 then .error .emptySequence else .ok (acc / Scalar.ofCount count)⟩

/-- The population variance. -/
def variance : Reducer α (Welford α) := ⟨Welford.empty, Welford.push, Welford.variance⟩

/-- The logarithm of the sum of exponentials. -/
def logSumExp (exp ln : α → α) : Reducer α α :=
  ⟨Scalar.zero, fun acc x => acc + exp x, fun acc _ => .ok (ln acc)⟩

/-- The population standard deviation. -/
def standardDeviation (sqrt : α → α) : Reducer α (Welford α) :=
  { variance with finalize := fun acc count => (acc.variance count).map sqrt }

end Reducer

/-! ## Statistics -/

/-- The rest of what the eight statistics ask of their numbers. -/
class RealScalar (α : Type) extends Scalar α where
  /-- The least number of all, and the greatest. -/
  bottom : α
  top : α
  least : α → α → α
  greatest : α → α → α
  exp : α → α
  ln : α → α
  sqrt : α → α

/-- A reducer that keeps one number, or one that keeps running moments. -/
inductive AnyReducer (α : Type)
  | number (r : Reducer α α)
  | moments (r : Reducer α (Welford α))

/-- The names of the reducers. -/
inductive Statistic
  | minimum | maximum | sum | product | logSumExp | mean | variance | standardDeviation
  deriving DecidableEq, Repr

namespace Statistic

def all : List Statistic :=
  [minimum, maximum, sum, product, logSumExp, mean, variance, standardDeviation]

/-- The name that a graph knows the statistic by. -/
def name : Statistic → String
  | minimum => "amin"
  | maximum => "amax"
  | sum => "sum"
  | product => "prod"
  | logSumExp => "logsumexp"
  | mean => "mean"
  | variance => "var"
  | standardDeviation => "std"

section
variable {α : Type} [RealScalar α]

/-- The reducer of a statistic. -/
def reducer : Statistic → AnyReducer α
  | minimum => .number (.running RealScalar.top RealScalar.least)
  | maximum => .number (.running RealScalar.bottom RealScalar.greatest)
  | sum => .number .sum
  | product => .number .product
  | logSumExp => .number (.logSumExp RealScalar.exp RealScalar.ln)
  | mean => .number .mean
  | variance => .moments .variance
  | standardDeviation => .moments (.standardDeviation RealScalar.sqrt)

/-- The statistic of a sequence. -/
def reduce (s : Statistic) (xs : List α) : Except EmptySequence α :=
  match (s.reducer : AnyReducer α) with
  | .number r => r.reduce xs
  | .moments r => r.reduce xs

end

end Statistic

/-! ## Floats -/

/-- The lesser of two floats; one that is no number gives way to the other. -/
def leastFloat (a b : Float) : Float :=
  if a.isNaN then b else if b.isNaN then a else if b < a then b else a

/-- The greater of two floats; one that is no number gives way to the other. -/
def greatestFloat (a b : Float) : Float :=
  if a.isNaN then b else if b.isNaN then a else if a < b then b else a

instance : RealScalar Float where
  bottom := -1.0 / 0.0
  top := 1.0 / 0.0
  least := leastFloat
  greatest := greatestFloat
  exp := Float.exp
  ln := Float.log
  sqrt := Float.sqrt

end ArrayGraph
