import ArrayGraph.Tensor.Basic
/-!
# Elements by index

`Shape.indices` are the indices of a shape in row-major order, `Shape.position` is where
the element at an index stands, and `Tensor.at?` is that element. The elements of an
array in their order are its elements at these indices (`map_at?_indices`), and an index
of an array can be put together from indices of its outer and of its inner axes
(`position_append`, `mem_indices_append`). An array of rank 0 is the scalar array of its item
(`eq_scalar_of_item?`).
-/

namespace ArrayGraph

/-! ## Indices of a shape -/

namespace Shape

/-- The indices of a shape, the last axis counted fastest. -/
def indices : Shape → List (List Nat)
  | [] => [[]]
  | n :: shape => (List.range n).flatMap fun i => (indices shape).map (i :: ·)

/-- How many indices come before this one. -/
def position : Shape → List Nat → Nat
  | _ :: shape, i :: index => i * size shape + position shape index
  | _, _ => 0

variable {n : Nat} {shape outer inner : Shape} {index i j : List Nat}

theorem mem_indices_nil : index ∈ indices [] ↔ index = [] := List.mem_singleton

theorem mem_indices_cons :
    index ∈ indices (n :: shape) ↔ ∃ k < n, ∃ rest ∈ shape.indices, index = k :: rest := by
  simp only [indices, List.mem_flatMap, List.mem_range, List.mem_map, eq_comm]

theorem mem_indices_append :
    index ∈ (outer ++ inner).indices ↔
      ∃ i ∈ outer.indices, ∃ j ∈ inner.indices, index = i ++ j := by
  induction outer generalizing index with
  | nil => simp [mem_indices_nil]
  | cons n outer ih =>
    rw [List.cons_append, mem_indices_cons]
    constructor
    · rintro ⟨k, hk, rest, hrest, rfl⟩
      obtain ⟨i, hi, j, hj, rfl⟩ := ih.1 hrest
      exact ⟨k :: i, mem_indices_cons.2 ⟨k, hk, i, hi, rfl⟩, j, hj, rfl⟩
    · rintro ⟨i, hi, j, hj, rfl⟩
      obtain ⟨k, hk, rest, hrest, rfl⟩ := mem_indices_cons.1 hi
      exact ⟨k, hk, rest ++ j, ih.2 ⟨rest, hrest, j, hj, rfl⟩, rfl⟩

theorem length_of_mem_indices (h : index ∈ shape.indices) : index.length = shape.length := by
  induction shape generalizing index with
  | nil => rw [mem_indices_nil.1 h]
  | cons n shape ih =>
    obtain ⟨k, -, rest, hrest, rfl⟩ := mem_indices_cons.1 h
    rw [List.length_cons, List.length_cons, ih hrest]

theorem position_append (h : i.length = outer.length) :
    (outer ++ inner).position (i ++ j) = outer.position i * inner.size + inner.position j := by
  induction outer generalizing i with
  | nil =>
    obtain rfl := List.length_eq_zero_iff.1 h
    simp [position]
  | cons n outer ih =>
    cases i with
    | nil => cases h
    | cons k i =>
      simp only [List.cons_append, position, ih (Nat.succ.inj h), size_append, Nat.add_mul,
        Nat.mul_assoc, Nat.add_assoc]

theorem position_lt (h : index ∈ shape.indices) : shape.position index < shape.size := by
  induction shape generalizing index with
  | nil => exact Nat.one_pos
  | cons n shape ih =>
    obtain ⟨k, hk, rest, hrest, rfl⟩ := mem_indices_cons.1 h
    calc k * size shape + position shape rest
        < k * size shape + size shape := Nat.add_lt_add_left (ih hrest) _
      _ = (k + 1) * size shape := (Nat.succ_mul ..).symm
      _ ≤ n * size shape := Nat.mul_le_mul_right _ hk

theorem range_mul (n m : Nat) :
    List.range (n * m) = (List.range n).flatMap fun i => (List.range m).map (i * m + ·) := by
  induction n with
  | zero => simp
  | succ n ih => simp [Nat.succ_mul, List.range_add, ih, List.range_succ]

/-- The indices are enumerated in the order of their positions. -/
theorem map_position_indices (shape : Shape) :
    shape.indices.map shape.position = List.range shape.size := by
  induction shape with
  | nil => rfl
  | cons n shape ih =>
    rw [size_cons, range_mul, ← ih, indices, List.map_flatMap]
    simp only [List.map_map]
    rfl

end Shape

/-! ## Elements of an array -/

namespace Tensor

variable {α : Type} {t : Tensor α} {index : List Nat}

/-- The element at an index, if the shape has it. -/
def at? (t : Tensor α) (index : List Nat) : Option α :=
  if index ∈ t.shape.indices then t.data[t.shape.position index]? else none

theorem at?_of_mem (h : index ∈ t.shape.indices) : t.at? index = t.data[t.shape.position index]? :=
  if_pos h

theorem mem_of_at? {a : α} (h : t.at? index = some a) : index ∈ t.shape.indices := by
  unfold at? at h
  split at h
  · assumption
  · cases h

theorem exists_at? (h : index ∈ t.shape.indices) : ∃ a, t.at? index = some a := by
  have hp : t.shape.position index < t.data.size := by
    rw [t.size_eq]
    exact Shape.position_lt h
  exact ⟨t.data[t.shape.position index], (at?_of_mem h).trans (Array.getElem?_eq_getElem hp)⟩

/-- Row-major order is the order of the indices. -/
theorem map_at?_indices (t : Tensor α) : t.shape.indices.map t.at? = t.toList.map some := by
  have hat : t.shape.indices.map t.at? =
      (t.shape.indices.map t.shape.position).map fun p => t.data[p]? := by
    rw [List.map_map]
    exact List.map_congr_left fun index h => at?_of_mem h
  rw [hat, Shape.map_position_indices, ← t.size_eq]
  apply List.ext_getElem?
  intro p
  by_cases hp : p < t.data.size
  · simp [toList, hp]
  · simp [toList, hp]

theorem eq_of_data {s t : Tensor α} (hs : s.shape = t.shape) (hd : s.data = t.data) : s = t := by
  obtain ⟨shape, data, h⟩ := s
  obtain ⟨shape', data', h'⟩ := t
  cases hs
  cases hd
  rfl

theorem map_id (t : Tensor α) : t.map id = t := eq_of_data rfl (Array.map_id _)

theorem at?_map {β : Type} (f : α → β) (t : Tensor α) (index : List Nat) :
    (t.map f).at? index = (t.at? index).map f := by
  by_cases h : index ∈ t.shape.indices
  · have h' : index ∈ (t.map f).shape.indices := h
    rw [at?_of_mem h, at?_of_mem h']
    simp [map]
  · have h' : index ∉ (t.map f).shape.indices := h
    rw [at?, at?, if_neg h, if_neg h', Option.map_none]

/-! ## Arrays of rank 0 -/

theorem map_scalar {β : Type} (f : α → β) (a : α) : (scalar a).map f = scalar (f a) := by
  simp [map, scalar]

theorem any_scalar (p : α → Bool) (a : α) : (scalar a).any p = p a := by
  simp [any, scalar]

theorem at?_scalar (a : α) (index : List Nat) :
    (scalar a).at? index = if index = [] then some a else none := by
  by_cases h : index = []
  · rw [if_pos h, h]
    rfl
  · rw [if_neg h, at?, if_neg]
    exact mt Shape.mem_indices_nil.1 h

/-- An array of rank 0 is the scalar array of its item. -/
theorem eq_scalar_of_item? {a : α} (h : t.item? = some a) : t = scalar a := by
  unfold item? at h
  split at h
  · next hshape =>
    have hsize : t.data.size = 1 := by
      rw [t.size_eq, hshape]
      rfl
    refine eq_of_data hshape (Array.ext hsize fun i hi hi' => ?_)
    obtain rfl : i = 0 := Nat.lt_one_iff.1 hi'
    rw [Array.getElem?_eq_getElem hi] at h
    exact Option.some.inj h
  · cases h

end Tensor

end ArrayGraph
