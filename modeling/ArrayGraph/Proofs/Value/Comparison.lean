import ArrayGraph.Comparison
import ArrayGraph.Proofs.Tensor.Broadcast
import ArrayGraph.Proofs.Value.Conversion
/-!
# Comparison of integers and truth values

Integers are compared as integers, but beside a truth value they are compared as floats. The
result is that of mathematical integers either way (`compare_integers`): what a value is to
a comparison are its `Exact` elements, each pair of them compares exactly
(`Exact.compare_eq`), and broadcasting pairs the elements before or after the conversion
alike (`broadcast_map`).
-/

namespace ArrayGraph

/-! ## Exact elements -/

/-- The elements of a value that is made of integers, or of truth values. -/
inductive Exact
  | ints (t : Tensor Int64)
  | bools (t : Tensor Bool)

namespace Exact

/-- The elements as integers, one for true and zero for false. -/
def integers : Exact → Tensor Int
  | ints t => t.map Int64.toInt
  | bools t => t.map Bool.toInt

/-- The elements as floats. -/
def floats : Exact → Tensor Float
  | ints t => t.map floatOfInt
  | bools t => t.map floatOfBool

/-- What a comparison makes of the elements: integers compare as they are. -/
def compare (op : CompareOp) : Exact → Exact → Except Mismatch (Tensor Bool)
  | ints s, ints t => s.broadcast op.apply t
  | x, y => x.floats.broadcast op.apply y.floats

theorem beq_toInt (i j : Int64) : (i == j) = (i.toInt == j.toInt) := by
  rw [Bool.eq_iff_iff]
  simp [Int64.toInt_inj]

theorem apply_toInt (op : CompareOp) (i j : Int64) : op.apply i j = op.apply i.toInt j.toInt := by
  cases op with
  | greater | less => exact decide_eq_decide.2 Int64.lt_iff_toInt_lt
  | greaterEqual | lessEqual => exact decide_eq_decide.2 Int64.le_iff_toInt_le
  | equal => exact beq_toInt i j
  | notEqual => exact congrArg (!·) (beq_toInt i j)

/-- Every pair of elements compares as integers do. -/
theorem compare_eq (op : CompareOp) (x y : Exact) :
    x.compare op y = x.integers.broadcast op.apply y.integers := by
  cases x with
  | ints s =>
    cases y with
    | ints t =>
      have hop : (op.apply : Int64 → Int64 → Bool) = fun i j => op.apply i.toInt j.toInt :=
        funext fun i => funext (apply_toInt op i)
      simp only [compare, integers, Tensor.broadcast_map, hop]
    | bools t => simp only [compare, integers, floats, Tensor.broadcast_map, apply_floatOfInt_bool]
  | bools s =>
    cases y with
    | ints t => simp only [compare, integers, floats, Tensor.broadcast_map, apply_bool_floatOfInt]
    | bools t => simp only [compare, integers, floats, Tensor.broadcast_map, apply_bools]

end Exact

namespace Value

/-- The elements of an integer, a truth value or an array of either. -/
def asExact? : Value → Option Exact
  | int i => some (.ints (.scalar i))
  | bool b => some (.bools (.scalar b))
  | array (.int t) => some (.ints t)
  | array (.bool t) => some (.bools t)
  | _ => none

variable {a b : Value} {x y : Exact}

theorem asExact?_cases (h : a.asExact? = some x) :
    (∃ i, a = .int i ∧ x = .ints (.scalar i)) ∨ (∃ b, a = .bool b ∧ x = .bools (.scalar b)) ∨
      (∃ t, a = .array (.int t) ∧ x = .ints t) ∨ ∃ t, a = .array (.bool t) ∧ x = .bools t := by
  unfold asExact? at h
  split at h <;> cases h <;> simp

theorem toInts?_of_exact (h : a.asExact? = some x) :
    a.toInts? = match x with
      | .ints t => some t
      | .bools _ => none := by
  rcases asExact?_cases h with ⟨i, rfl, rfl⟩ | ⟨i, rfl, rfl⟩ | ⟨s, rfl, rfl⟩ | ⟨s, rfl, rfl⟩ <;> rfl

theorem toNumeric?_of_exact (h : a.asExact? = some x) : a.toNumeric? = some x.floats := by
  rcases asExact?_cases h with ⟨i, rfl, rfl⟩ | ⟨i, rfl, rfl⟩ | ⟨s, rfl, rfl⟩ | ⟨s, rfl, rfl⟩
  · exact congrArg some (Tensor.map_scalar ..).symm
  · exact congrArg some (Tensor.map_scalar ..).symm
  · rfl
  · rfl

theorem compare_of_exact (op : CompareOp) (ha : a.asExact? = some x) (hb : b.asExact? = some y) :
    a.compare op b = ((x.compare op y).map .ofBools).mapError .unmatched := by
  unfold compare
  split
  · cases ha
  · cases ha
    cases hb
    simp only [Exact.compare, Tensor.broadcast_scalar]
    rfl
  · rw [toInts?_of_exact ha, toInts?_of_exact hb, toNumeric?_of_exact ha, toNumeric?_of_exact hb]
    cases x <;> cases y <;> rfl

/-- The elements of a value that is made of integers or truth values, as integers. -/
def integers? (v : Value) : Option (Tensor Int) := v.asExact?.map (·.integers)

/-- Values that are made of integers and truth values compare as mathematical integers do,
element by element over compatible shapes. Values of other shapes do not compare. -/
theorem compare_integers (op : CompareOp) {s t : Tensor Int} (ha : a.integers? = some s)
    (hb : b.integers? = some t) :
    (Compatible s.shape t.shape →
      ∃ u, a.compare op b = .ok (.ofBools u) ∧ Tensor.Combines op.apply s t u) ∧
    a.compare op b = ((s.broadcast op.apply t).map .ofBools).mapError .unmatched := by
  obtain ⟨x, hx, rfl⟩ := Option.map_eq_some_iff.1 ha
  obtain ⟨y, hy, rfl⟩ := Option.map_eq_some_iff.1 hb
  have heq : a.compare op b =
      ((x.integers.broadcast op.apply y.integers).map .ofBools).mapError .unmatched := by
    rw [compare_of_exact op hx hy, Exact.compare_eq]
  refine ⟨fun h => ?_, heq⟩
  obtain ⟨u, hu, hcombines⟩ := Tensor.broadcast_of_ok op.apply h (broadcastShape_of_compatible h)
  rw [heq, hu]
  exact ⟨u, rfl, hcombines⟩

/-- Two neighbours that are one float, as a row, and truth values in two rows. -/
def neighbours : Value := array (.int ⟨[2], #[9007199254740993, 1], rfl⟩)

def flags : Value := array (.bool ⟨[2, 2], #[true, true, false, true], rfl⟩)

/-- The greater neighbour is not equal to the other one, and neither one is to a truth value
that it is not. -/
theorem neighbours_exact :
    (∃ u, neighbours.compare .equal (int 9007199254740992) = .ok (ofBools u) ∧
      u.at? [0] = some false) ∧
    (∃ u, neighbours.compare .lessEqual flags = .ok (ofBools u) ∧ u.at? [0, 0] = some false ∧
      u.at? [0, 1] = some true) := by
  have hn : neighbours.integers? = some ⟨[2], #[9007199254740993, 1], rfl⟩ := by
    simp [neighbours, integers?, asExact?, Exact.integers, Tensor.map]
  have hi : (int 9007199254740992).integers? = some (.scalar 9007199254740992) := by
    simp [integers?, asExact?, Exact.integers, Tensor.map_scalar]
  have hf : flags.integers? = some ⟨[2, 2], #[1, 1, 0, 1], rfl⟩ := by
    simp [flags, integers?, asExact?, Exact.integers, Tensor.map]
  have hscalar : Compatible [2] [] := ⟨by decide, .inr (.inl rfl)⟩
  have hrow : Compatible [2] [2, 2] := compatible_vector_matrix.2 rfl
  obtain ⟨u, hu, hshape, -, hat⟩ := (compare_integers .equal hn hi).1 hscalar
  obtain ⟨u', hu', hshape', -, hat'⟩ := (compare_integers .lessEqual hn hf).1 hrow
  have hmem : ∀ index ∈ [[0]], index ∈ u.shape.indices := by
    rw [hshape]
    decide
  have hmem' : ∀ index ∈ [[0, 0], [0, 1]], index ∈ u'.shape.indices := by
    rw [hshape']
    decide
  refine ⟨⟨u, hu, ?_⟩, u', hu', ?_, ?_⟩
  · obtain ⟨i, j, hi, hj, h⟩ := hat [0] (hmem _ (by decide))
    cases hi
    cases hj
    exact h
  · obtain ⟨i, j, hi, hj, h⟩ := hat' [0, 0] (hmem' _ (by decide))
    cases hi
    cases hj
    exact h
  · obtain ⟨i, j, hi, hj, h⟩ := hat' [0, 1] (hmem' _ (by decide))
    cases hi
    cases hj
    exact h

end Value

end ArrayGraph
