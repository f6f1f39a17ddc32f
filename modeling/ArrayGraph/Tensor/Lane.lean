import ArrayGraph.Tensor.Basic
/-!
# Lanes

A lane of an array along an axis is the list of its elements at the indices that
differ on that axis only. The lanes along axis `k` are numbered in row-major order
of the other axes, so results computed lane by lane form an array whose shape is
the old one without extent `k`.
-/

namespace ArrayGraph

/-- The number of lanes along axis `k`. -/
def Shape.laneCount (shape : Shape) (k : Nat) : Nat := Shape.size (shape.eraseIdx k)

/-- The number of indices of the axes after axis `k`. -/
def Shape.laneStride (shape : Shape) (k : Nat) : Nat := Shape.size (shape.drop (k + 1))

theorem Shape.laneCount_eq (shape : Shape) (k : Nat) :
    shape.laneCount k = Shape.size (shape.take k) * shape.laneStride k := by
  rw [laneCount, laneStride, ← Shape.size_append, List.eraseIdx_eq_take_drop_succ]

theorem Shape.size_eq_split (shape : Shape) (k : Nat) (h : k < shape.length) :
    Shape.size shape = Shape.size (shape.take k) * (shape[k] * shape.laneStride k) := by
  conv => lhs; rw [← List.take_append_drop k shape]
  rw [Shape.size_append, List.drop_eq_getElem_cons h, Shape.size_cons, laneStride]

namespace Tensor

variable {α β ε : Type}

/-- Element `j` of lane `i` along axis `k` lies inside the array. -/
theorem lane_bound (t : Tensor α) (k : Nat) (hk : k < t.shape.length) (i j : Nat)
    (hi : i < t.shape.laneCount k) (hj : j < t.shape[k]) :
    (i / t.shape.laneStride k * t.shape[k] + j) * t.shape.laneStride k
      + i % t.shape.laneStride k < t.data.size := by
  rw [t.size_eq, Shape.size_eq_split _ k hk]
  rw [Shape.laneCount_eq] at hi
  generalize Shape.size (t.shape.take k) = outer at hi ⊢
  generalize t.shape.laneStride k = inner at hi ⊢
  generalize t.shape[k] = n at hj ⊢
  have hpos : 0 < inner := Nat.pos_of_ne_zero fun h => by simp [h] at hi
  have hr := Nat.mod_lt i hpos
  have hq : i / inner < outer := (Nat.div_lt_iff_lt_mul hpos).2 hi
  calc (i / inner * n + j) * inner + i % inner
      < (i / inner * n + j) * inner + inner := by omega
    _ = (i / inner * n + j + 1) * inner := by rw [Nat.add_mul (_ + j) 1, Nat.one_mul]
    _ ≤ ((i / inner + 1) * n) * inner := by
        apply Nat.mul_le_mul_right
        rw [Nat.add_mul]
        omega
    _ ≤ (outer * n) * inner := Nat.mul_le_mul_right _ (Nat.mul_le_mul_right _ hq)
    _ = outer * (n * inner) := Nat.mul_assoc ..

/-- Lane `i` along axis `k`. -/
def lane (t : Tensor α) (k : Nat) (hk : k < t.shape.length) (i : Fin (t.shape.laneCount k)) :
    List α :=
  List.ofFn fun j : Fin t.shape[k] =>
    have := t.lane_bound k hk i.val j.val i.isLt j.isLt
    t.data[(i.val / t.shape.laneStride k * t.shape[k] + j.val) * t.shape.laneStride k
      + i.val % t.shape.laneStride k]

/-- All lanes along axis `k`, in row-major order of the other axes. -/
def lanes (t : Tensor α) (k : Nat) (hk : k < t.shape.length) : List (List α) :=
  List.ofFn (t.lane k hk)

theorem length_lanes (t : Tensor α) (k : Nat) (hk : k < t.shape.length) :
    (t.lanes k hk).length = t.shape.laneCount k :=
  List.length_ofFn

theorem length_of_mapM_ok {f : α → Except ε β} {xs : List α} {ys : List β}
    (h : xs.mapM f = .ok ys) : ys.length = xs.length := by
  induction xs generalizing ys with
  | nil => simp only [List.mapM_nil, pure, Except.pure, Except.ok.injEq] at h; simp [← h]
  | cons x xs ih =>
    rw [List.mapM_cons] at h
    cases hx : f x with
    | error e => rw [hx] at h; simp [bind, Except.bind] at h
    | ok y =>
      cases hxs : xs.mapM f with
      | error e => rw [hx, hxs] at h; simp [bind, Except.bind] at h
      | ok zs =>
        rw [hx, hxs] at h
        simp only [bind, Except.bind, pure, Except.pure, Except.ok.injEq] at h
        simp [← h, ih hxs]

/-- The array of what `f` makes of each lane along axis `k`; the first lane that
fails decides the error. -/
def mapLanes (f : List α → Except ε β) (t : Tensor α) (k : Nat) (hk : k < t.shape.length) :
    Except ε (Tensor β) :=
  match h : (t.lanes k hk).mapM f with
  | .error e => .error e
  | .ok ys => .ok ⟨t.shape.eraseIdx k, ys.toArray, by
      rw [List.size_toArray, length_of_mapM_ok h, length_lanes, Shape.laneCount]⟩

end Tensor

end ArrayGraph
