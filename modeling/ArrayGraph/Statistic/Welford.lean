/-!
# Running moments

`Welford` keeps the count, the mean and the sum of squared deviations of the
numbers pushed so far, one at a time or by merging two partial states. The
arithmetic is a parameter, so the same recurrence runs on machine floats and can be
read over exact numbers.
-/

namespace ArrayGraph

/-- The arithmetic that sums, products and running moments need. -/
class Scalar (α : Type) extends Add α, Sub α, Mul α, Div α where
  zero : α
  one : α
  /-- A count as a number. -/
  ofCount : Nat → α

/-- Count, running mean and sum of squared deviations from it. -/
structure Welford (α : Type) where
  count : Nat
  mean : α
  m2 : α

/-- A statistic that needs an element was asked of none. -/
inductive EmptySequence
  | emptySequence
  deriving DecidableEq, Repr

namespace EmptySequence

def message : EmptySequence → String
  | emptySequence => "empty sequences are not supported"

end EmptySequence

namespace Welford

variable {α : Type} [Scalar α]

def empty : Welford α := ⟨0, Scalar.zero, Scalar.zero⟩

/-- Takes one number in. -/
def push (w : Welford α) (x : α) : Welford α :=
  let count := w.count + 1
  let delta := x - w.mean
  let mean := w.mean + delta / Scalar.ofCount count
  ⟨count, mean, w.m2 + delta * (x - mean)⟩

/-- Takes in all that another state has taken in. -/
def merge (a b : Welford α) : Welford α :=
  if b.count = 0 then a
  else if a.count = 0 then b
  else
    let count := a.count + b.count
    let delta := b.mean - a.mean
    let na : α := Scalar.ofCount a.count
    let nb : α := Scalar.ofCount b.count
    let n : α := Scalar.ofCount count
    ⟨count, a.mean + delta * nb / n, a.m2 + (b.m2 + delta * delta * na * nb / n)⟩

/-- The population variance over `count` numbers. -/
def variance (w : Welford α) : Nat → Except EmptySequence α
  | 0 => .error .emptySequence
  | 1 => .ok Scalar.zero
  | n => .ok (w.m2 / Scalar.ofCount n)

theorem variance_eq_error_iff {w : Welford α} {n : Nat} {e : EmptySequence} :
    w.variance n = .error e ↔ n = 0 := by
  match n with
  | 0 => exact iff_of_true rfl rfl
  | 1 | n + 2 => exact iff_of_false nofun nofun

end Welford

instance : Scalar Float where
  zero := 0
  one := 1
  ofCount n := n.toUInt64.toFloat

end ArrayGraph
