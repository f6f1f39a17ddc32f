import ArrayGraph.Tensor.Lane
import ArrayGraph.Proofs.Tensor.Index
/-!
# What stands in a lane

The lane at an index of the other axes holds the elements at that index with every place
on the lane's axis put in (`laneAt_lane`). So an array made lane by lane holds at each
index what is made of the lane there (`collapses_of_mapLanes_ok`), and an error is the
error of some lane (`exists_of_mapLanes_error`).
-/

namespace ArrayGraph

/-! ## Indices with an axis put in -/

theorem insertIdx_append {α : Type} (xs ys : List α) (x : α) :
    (xs ++ ys).insertIdx xs.length x = xs ++ x :: ys := by
  induction xs with
  | nil => rfl
  | cons y xs ih => rw [List.cons_append, List.length_cons, List.insertIdx_succ_cons, ih]; rfl

namespace Shape

variable {shape : Shape} {k n : Nat} {i j : List Nat}

theorem eq_take_cons_drop (hk : k < shape.length) :
    shape = shape.take k ++ shape[k] :: shape.drop (k + 1) := by
  rw [← List.drop_eq_getElem_cons hk, List.take_append_drop]

/-- An index of the other axes is one of the axes before and one of the axes after. -/
theorem mem_indices_eraseIdx {index : List Nat} : index ∈ indices (shape.eraseIdx k) ↔
    ∃ i ∈ indices (shape.take k), ∃ j ∈ indices (shape.drop (k + 1)), index = i ++ j := by
  rw [List.eraseIdx_eq_take_drop_succ, mem_indices_append]

theorem length_of_mem_take (hk : k < shape.length) (hi : i ∈ indices (shape.take k)) :
    i.length = k := by
  rw [length_of_mem_indices hi, List.length_take, Nat.min_eq_left (Nat.le_of_lt hk)]

theorem mem_indices_put (hk : k < shape.length) (hi : i ∈ indices (shape.take k))
    (hj : j ∈ indices (shape.drop (k + 1))) (hn : n < shape[k]) :
    i ++ n :: j ∈ shape.indices := by
  rw [eq_take_cons_drop hk]
  exact mem_indices_append.2 ⟨i, hi, n :: j, mem_indices_cons.2 ⟨n, hn, j, hj, rfl⟩, rfl⟩

/-- Lanes are numbered by the other axes, and the places of a lane are a stride apart. -/
theorem position_put (hk : k < shape.length) (hi : i ∈ indices (shape.take k))
    (hj : j ∈ indices (shape.drop (k + 1))) (n : Nat) :
    shape.position (i ++ n :: j) =
      (position (shape.eraseIdx k) (i ++ j) / shape.laneStride k * shape[k] + n)
          * shape.laneStride k
        + position (shape.eraseIdx k) (i ++ j) % shape.laneStride k := by
  have hlt : position (shape.drop (k + 1)) j < shape.laneStride k := position_lt hj
  have hpos : 0 < shape.laneStride k := Nat.zero_lt_of_lt hlt
  have hother : position (shape.eraseIdx k) (i ++ j) =
      position (shape.take k) i * shape.laneStride k + position (shape.drop (k + 1)) j := by
    rw [List.eraseIdx_eq_take_drop_succ, position_append (length_of_mem_indices hi), laneStride]
  have hdiv : position (shape.eraseIdx k) (i ++ j) / shape.laneStride k =
      position (shape.take k) i := by
    rw [hother, Nat.mul_comm, Nat.mul_add_div hpos, Nat.div_eq_of_lt hlt, Nat.add_zero]
  have hmod : position (shape.eraseIdx k) (i ++ j) % shape.laneStride k =
      position (shape.drop (k + 1)) j := by
    rw [hother, Nat.mul_add_mod', Nat.mod_eq_of_lt hlt]
  rw [hdiv, hmod]
  calc shape.position (i ++ n :: j)
      = position (shape.take k ++ shape[k] :: shape.drop (k + 1)) (i ++ n :: j) :=
        congrArg (position · (i ++ n :: j)) (eq_take_cons_drop hk)
    _ = position (shape.take k) i * (shape[k] * shape.laneStride k)
          + (n * shape.laneStride k + position (shape.drop (k + 1)) j) :=
        position_append (length_of_mem_indices hi)
    _ = (position (shape.take k) i * shape[k] + n) * shape.laneStride k
          + position (shape.drop (k + 1)) j := by
        rw [Nat.add_mul, Nat.mul_assoc, Nat.add_assoc]

end Shape

namespace Tensor

variable {α β ε : Type} {t : Tensor α} {k : Nat} {index : List Nat}

/-- The elements at an index of the other axes with every place on axis `k` put in, in the
order of the places. -/
def LaneAt (t : Tensor α) (k : Nat) (index : List Nat) (xs : List α) : Prop :=
  xs.map some = (List.range (t.shape.getD k 0)).map fun n => t.at? (index.insertIdx k n)

theorem LaneAt.unique {xs ys : List α} (hx : t.LaneAt k index xs) (hy : t.LaneAt k index ys) :
    xs = ys :=
  (List.map_inj_right fun _ _ => Option.some.inj).1 (hx.trans hy.symm)

theorem laneAt_lane (hk : k < t.shape.length)
    (hindex : index ∈ Shape.indices (t.shape.eraseIdx k)) :
    t.LaneAt k index
      (t.lane k hk ⟨Shape.position (t.shape.eraseIdx k) index, Shape.position_lt hindex⟩) := by
  obtain ⟨i, hi, j, hj, rfl⟩ := Shape.mem_indices_eraseIdx.1 hindex
  have hlen : i.length = k := Shape.length_of_mem_take hk hi
  apply List.ext_getElem
  · simp [lane, hk]
  · intro n hn hn'
    have hnk : n < t.shape[k] := by simpa [lane] using hn
    have hput : (i ++ j).insertIdx k n = i ++ n :: j := hlen ▸ insertIdx_append i j n
    have hat := at?_of_mem (Shape.mem_indices_put hk hi hj hnk)
    rw [Shape.position_put hk hi hj] at hat
    simp [lane, hput, hat]

theorem exists_laneAt (hk : k < t.shape.length) {xs : List α} (h : xs ∈ t.lanes k hk) :
    ∃ index ∈ Shape.indices (t.shape.eraseIdx k), t.LaneAt k index xs := by
  obtain ⟨lane, rfl⟩ := List.mem_ofFn.1 h
  have hmem : lane.val ∈ List.range (Shape.size (t.shape.eraseIdx k)) :=
    List.mem_range.2 lane.isLt
  rw [← Shape.map_position_indices] at hmem
  obtain ⟨index, hindex, hp⟩ := List.mem_map.1 hmem
  refine ⟨index, hindex, ?_⟩
  obtain rfl : (⟨_, Shape.position_lt hindex⟩ : Fin (t.shape.laneCount k)) = lane := Fin.ext hp
  exact laneAt_lane hk hindex

/-! ## Arrays made lane by lane -/

theorem getElem_of_mapM_ok {f : α → Except ε β} {xs : List α} {ys : List β}
    (h : xs.mapM f = .ok ys) {p : Nat} (hx : p < xs.length) :
    ∃ hy : p < ys.length, f xs[p] = .ok ys[p] := by
  induction xs generalizing ys p with
  | nil => cases hx
  | cons x xs ih =>
    rw [List.mapM_cons] at h
    cases hf : f x with
    | error e => rw [hf] at h; cases h
    | ok y =>
      cases hr : xs.mapM f with
      | error e => rw [hf, hr] at h; cases h
      | ok rest =>
        rw [hf, hr] at h
        cases h
        cases p with
        | zero => exact ⟨Nat.zero_lt_succ _, hf⟩
        | succ p =>
          obtain ⟨hy, hp⟩ := ih hr (Nat.lt_of_succ_lt_succ hx)
          exact ⟨Nat.succ_lt_succ hy, hp⟩

theorem exists_of_mapM_error {f : α → Except ε β} {xs : List α} {e : ε}
    (h : xs.mapM f = .error e) : ∃ x ∈ xs, f x = .error e := by
  induction xs with
  | nil => cases h
  | cons x xs ih =>
    rw [List.mapM_cons] at h
    cases hf : f x with
    | error e' =>
      rw [hf] at h
      cases h
      exact ⟨x, List.mem_cons_self, hf⟩
    | ok y =>
      cases hr : xs.mapM f with
      | error e' =>
        rw [hf, hr] at h
        cases h
        obtain ⟨z, hz, he⟩ := ih hr
        exact ⟨z, List.mem_cons_of_mem x hz, he⟩
      | ok rest => rw [hf, hr] at h; cases h

/-- An array of the other axes that holds at every index what `f` makes of the lane there. -/
def Collapses (f : List α → Except ε β) (t : Tensor α) (k : Nat) (u : Tensor β) : Prop :=
  u.shape = t.shape.eraseIdx k ∧ u.size = u.shape.size ∧
    ∀ index ∈ u.shape.indices, ∃ xs y,
      t.LaneAt k index xs ∧ f xs = .ok y ∧ u.at? index = some y

theorem collapses_of_mapLanes_ok {f : List α → Except ε β} {hk : k < t.shape.length}
    {u : Tensor β} (h : t.mapLanes f k hk = .ok u) : Collapses f t k u := by
  unfold mapLanes at h
  split at h
  · cases h
  · next ys hys =>
    cases h
    refine ⟨rfl, size_eq _, fun index hindex => ?_⟩
    have hp := Shape.position_lt hindex
    have hx : Shape.position (t.shape.eraseIdx k) index < (t.lanes k hk).length := by
      rw [length_lanes]
      exact hp
    obtain ⟨hy, hf⟩ := getElem_of_mapM_ok hys hx
    refine ⟨_, ys[Shape.position (t.shape.eraseIdx k) index], laneAt_lane hk hindex, ?_, ?_⟩
    · simpa only [lanes, List.getElem_ofFn] using hf
    · rw [at?_of_mem hindex]
      simp [hy]

theorem exists_of_mapLanes_error {f : List α → Except ε β} {hk : k < t.shape.length} {e : ε}
    (h : t.mapLanes f k hk = .error e) :
    ∃ index ∈ Shape.indices (t.shape.eraseIdx k), ∃ xs, t.LaneAt k index xs ∧ f xs = .error e := by
  unfold mapLanes at h
  split at h
  · next e' he =>
    cases h
    obtain ⟨xs, hxs, hf⟩ := exists_of_mapM_error he
    obtain ⟨index, hindex, hlane⟩ := exists_laneAt hk hxs
    exact ⟨index, hindex, xs, hlane, hf⟩
  · cases h

/-! ## Fewer axes -/

theorem size_filter_eraseIdx_le (shape : Shape) (k : Nat) :
    Shape.size ((shape.eraseIdx k).filter (· != 0)) ≤ Shape.size (shape.filter (· != 0)) := by
  induction shape generalizing k with
  | nil => exact Nat.le_refl _
  | cons n shape ih =>
    by_cases hn : n = 0
    · subst hn
      cases k with
      | zero => exact Nat.le_refl _
      | succ k => exact ih k
    · have hfilter (rest : Shape) : (n :: rest).filter (· != 0) = n :: rest.filter (· != 0) :=
        List.filter_cons_of_pos (bne_iff_ne.2 hn)
      rw [hfilter, Shape.size_cons]
      cases k with
      | zero => exact Nat.le_mul_of_pos_left _ (Nat.pos_of_ne_zero hn)
      | succ k =>
        rw [List.eraseIdx_cons_succ, hfilter, Shape.size_cons]
        exact Nat.mul_le_mul_left n (ih k)

theorem ofShape_eq_ok_iff : ofShape t.shape t.data = .ok t ↔
    Shape.size (t.shape.filter (· != 0)) ≤ maxSize := by
  unfold ofShape
  by_cases h : Shape.size (t.shape.filter (· != 0)) ≤ maxSize
  · rw [if_neg (Nat.not_lt.2 h), dif_pos t.size_eq]
    exact iff_of_true rfl h
  · rw [if_pos (Nat.not_le.1 h)]
    exact iff_of_false (by simp) h

/-- What is made lane by lane of an array that passes the check passes it too. -/
theorem Collapses.ofShape_eq_ok {f : List α → Except ε β} {u : Tensor β}
    (h : Collapses f t k u) (ht : ofShape t.shape t.data = .ok t) :
    ofShape u.shape u.data = .ok u := by
  rw [ofShape_eq_ok_iff, h.1]
  exact Nat.le_trans (size_filter_eraseIdx_le t.shape k) (ofShape_eq_ok_iff.1 ht)

end Tensor

end ArrayGraph
