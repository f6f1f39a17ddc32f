import ArrayGraph.Proofs.Statistic.Extremum
import ArrayGraph.Proofs.Statistic.Moments
import ArrayGraph.Proofs.Statistic.Reduction
import ArrayGraph.Proofs.Tensor.Partition
import Mathlib.Algebra.BigOperators.Field
import Mathlib.Algebra.BigOperators.Group.List.Basic
/-!
# Statistics of statistics

A value is reduced as an array of floats (`Value.reduce_eq`), and what reduces it reduces arrays
of any numbers (`Tensor.reduce`), exact ones included. Its lanes along an axis part the array,
so a statistic of the statistics of the lanes is one of all elements, counted in another order
(`Tensor.lanesThenWhole_of_total`). That order makes no difference to the least and the
greatest of floats, nor to an exact sum or product, nor to a mean of lanes of equal lengths.
-/

namespace ArrayGraph

theorem AxisAt.lt_length {α : Type} {t : Tensor α} {axis : Int64} {k : Nat}
    (h : AxisAt axis t.rank k) : k < t.shape.length := h.1

theorem axisFromFront?_of_axisAt {axis : Int64} {rank k : Nat} (h : AxisAt axis rank k) :
    axisFromFront? axis rank = some ⟨k, h.1⟩ := by
  cases hplace : axisFromFront? axis rank with
  | none =>
    have hout := axisFromFront?_eq_none_iff.1 hplace
    have hrange := h.range
    omega
  | some place => exact congrArg some (Fin.ext ((axisAt_of_axisFromFront? hplace).unique h))

namespace Tensor

variable {α : Type}

/-! ## Reductions of any numbers -/

/-- The statistic of an array, over all its elements or along an axis. -/
def reduce (f : List α → Except EmptySequence α) (t : Tensor α) :
    Option Int64 → Except Cause (Tensor α)
  | none => ((f t.toList).map scalar).mapError fun _ => .noElements
  | some axis =>
    match axisFromFront? axis t.rank with
    | none => .error (.axisOutOfRange axis t.rank)
    | some k => (t.mapLanes f k k.isLt).mapError fun _ => .noElements

/-- A statistic along an axis and then of all that this leaves has a value, and so has the
statistic of all elements at once. `same` says how the two agree. -/
def LanesThenWhole (f : List α → Except EmptySequence α) (t : Tensor α) (axis : Int64)
    (same : α → α → Prop) : Prop :=
  ∃ u x y, t.reduce f (some axis) = .ok u ∧ u.reduce f none = .ok (scalar x) ∧
    t.reduce f none = .ok (scalar y) ∧ same x y

theorem mapM_of_total {ε β : Type} {f : α → Except ε β} {g : α → β} {xs : List α}
    (h : ∀ x ∈ xs, f x = .ok (g x)) : xs.mapM f = .ok (xs.map g) := by
  induction xs with
  | nil => rfl
  | cons x xs ih =>
    rw [List.mapM_cons, h x List.mem_cons_self, ih fun y hy => h y (List.mem_cons_of_mem x hy)]
    rfl

/-- Where every lane has a value, the values of the lanes in their order are the result. -/
theorem mapLanes_of_total {f : List α → Except EmptySequence α} {g : List α → α} {t : Tensor α}
    {k : Nat} {hk : k < t.shape.length} (h : ∀ xs ∈ t.lanes k hk, f xs = .ok (g xs)) :
    ∃ u, t.mapLanes f k hk = .ok u ∧ u.toList = (t.lanes k hk).map g := by
  have hm := mapM_of_total h
  unfold mapLanes
  split
  · next e he => cases hm.symm.trans he
  · next ys hys =>
    cases hm.symm.trans hys
    exact ⟨_, rfl, rfl⟩

theorem lanesThenWhole_of_total {f : List α → Except EmptySequence α} {g : List α → α}
    {same : α → α → Prop} {t : Tensor α} {axis : Int64} {k : Nat} (hk : AxisAt axis t.rank k)
    (hlanes : ∀ xs ∈ t.lanes k hk.lt_length, f xs = .ok (g xs))
    (hleft : f ((t.lanes k hk.lt_length).map g) = .ok (g ((t.lanes k hk.lt_length).map g)))
    (hwhole : f t.toList = .ok (g t.toList))
    (hsame : same (g ((t.lanes k hk.lt_length).map g)) (g t.toList)) :
    t.LanesThenWhole f axis same := by
  obtain ⟨u, hu, hlist⟩ := mapLanes_of_total hlanes
  refine ⟨u, _, _, ?_, ?_, ?_, hsame⟩
  · simp only [reduce, axisFromFront?_of_axisAt hk, hu]
    rfl
  · simp only [reduce, hlist, hleft]
    rfl
  · simp only [reduce, hwhole]
    rfl

/-- A running operation has a value for every sequence. -/
theorem lanesThenWhole_running {start : α} {op : α → α → α} {same : α → α → Prop} {t : Tensor α}
    {axis : Int64} {k : Nat} (hk : AxisAt axis t.rank k)
    (hsame : same (((t.lanes k hk.lt_length).map (·.foldl op start)).foldl op start)
      (t.toList.foldl op start)) :
    t.LanesThenWhole (Reducer.running start op).reduce axis same :=
  lanesThenWhole_of_total (g := (·.foldl op start)) hk (fun _ _ => rfl) rfl rfl hsame

/-! ## The least and the greatest of floats -/

theorem extreme_lanesThenWhole {below : Float → Float → Prop} {op : Float → Float → Float}
    {start : Float} {t : Tensor Float} {axis : Int64} {k : Nat} (h : Picks below op start)
    (hk : AxisAt axis t.rank k) :
    t.LanesThenWhole (Reducer.running start op).reduce axis fun x y =>
      Extreme below t.toList y ∧ (x == y) = true := by
  have hwhole := h.extreme_foldl t.toList
  have hlanes : Extreme below (t.lanes k hk.lt_length).flatten
      (((t.lanes k hk.lt_length).map (·.foldl op start)).foldl op start) :=
    .flatten (fun xs _ => h.extreme_foldl xs) (h.extreme_foldl _)
  exact lanesThenWhole_running hk
    ⟨hwhole, h.beq_of_extreme (hlanes.perm (flatten_lanes_perm t hk.lt_length)) hwhole⟩

/-! ## Exact sums, products and means -/

section
variable {t : Tensor ℚ} {axis : Int64} {k : Nat}

theorem foldl_add (xs : List ℚ) : xs.foldl (· + ·) Scalar.zero = xs.sum := List.sum_eq_foldl.symm

theorem foldl_mul (xs : List ℚ) : xs.foldl (· * ·) Scalar.one = xs.prod := List.prod_eq_foldl.symm

theorem sum_lanesThenWhole (hk : AxisAt axis t.rank k) :
    t.LanesThenWhole Reducer.sum.reduce axis fun x y => y = t.toList.sum ∧ x = y := by
  refine lanesThenWhole_running hk ?_
  simp only [foldl_add, true_and]
  rw [← List.sum_flatten, (flatten_lanes_perm t hk.lt_length).sum_eq]

theorem product_lanesThenWhole (hk : AxisAt axis t.rank k) :
    t.LanesThenWhole Reducer.product.reduce axis fun x y => y = t.toList.prod ∧ x = y := by
  refine lanesThenWhole_running hk ?_
  simp only [foldl_mul, true_and]
  rw [← List.prod_flatten, (flatten_lanes_perm t hk.lt_length).prod_eq]

theorem mean_of_ne_nil {xs : List ℚ} (h : xs ≠ []) : Reducer.mean.reduce xs = .ok (average xs) := by
  simp only [Reducer.reduce, Reducer.mean, foldl_add]
  rw [if_neg (mt List.length_eq_zero_iff.1 h)]
  rfl

/-- The mean of the means of parts that have as many elements each. -/
theorem average_flatten {xss : List (List ℚ)} {n : Nat} (h : ∀ xs ∈ xss, xs.length = n) :
    average (xss.map fun xs : List ℚ => average ↑xs) = average xss.flatten := by
  have hmeans : (xss.map fun xs : List ℚ => average ↑xs) = xss.map fun xs => xs.sum / (n : ℚ) := by
    refine List.map_congr_left fun xs hxs => ?_
    rw [average, Multiset.sum_coe, Multiset.coe_card, h xs hxs]
  have hlength : xss.flatten.length = xss.length * n := by
    rw [List.length_flatten, List.sum_eq_card_nsmul _ n]
    · simp
    · simpa using h
  have hsum : (xss.map fun xs => xs.sum / (n : ℚ)).sum = (xss.map List.sum).sum / n :=
    Multiset.sum_map_div (xss : Multiset (List ℚ)) List.sum (n : ℚ)
  rw [hmeans, average, average, Multiset.sum_coe, Multiset.sum_coe, Multiset.coe_card,
    Multiset.coe_card, hsum, List.sum_flatten, hlength, List.length_map]
  push_cast
  rw [div_div, mul_comm (n : ℚ)]

theorem mean_lanesThenWhole (hk : AxisAt axis t.rank k) (hpos : ∀ n ∈ t.shape, 0 < n) :
    t.LanesThenWhole Reducer.mean.reduce axis fun x y => y = average t.toList ∧ x = y := by
  -- with an extent of zero a lane has no element, or there is no lane, and then no mean
  have hlanes : ∀ xs ∈ t.lanes k hk.lt_length, xs ≠ [] := by
    intro xs hxs hnil
    have hlength := length_of_mem_lanes hxs
    rw [hnil, List.length_nil] at hlength
    exact (hpos _ (List.getElem_mem hk.lt_length)).ne hlength
  have hleft : (t.lanes k hk.lt_length).map (fun xs : List ℚ => average ↑xs) ≠ [] := by
    rw [ne_eq, List.map_eq_nil_iff, ← List.length_eq_zero_iff, length_lanes, Shape.laneCount]
    exact (Shape.size_pos fun n hn => hpos n (List.mem_of_mem_eraseIdx hn)).ne'
  have hwhole : t.toList ≠ [] := by
    rw [ne_eq, ← List.length_eq_zero_iff, toList, Array.length_toList, t.size_eq]
    exact (Shape.size_pos hpos).ne'
  refine lanesThenWhole_of_total hk (fun xs hxs => mean_of_ne_nil (hlanes xs hxs))
    (mean_of_ne_nil hleft) (mean_of_ne_nil hwhole) ⟨rfl, ?_⟩
  rw [average_flatten fun xs hxs => length_of_mem_lanes hxs,
    Multiset.coe_eq_coe.2 (flatten_lanes_perm t hk.lt_length)]

end

end Tensor

namespace Value

/-! ## Values -/

/-- Values are reduced as the floats that they are read as. -/
theorem reduce_eq (s : Statistic) (v : Value) (axis : Option Int64) :
    v.reduce s axis = match v.toNumeric? with
      | none => .error (.notReducible s v.kind)
      | some t => (t.reduce s.reduce axis).map .ofFloats := by
  unfold reduce
  cases v.toNumeric? with
  | none => rfl
  | some t =>
    cases axis with
    | none =>
      simp only [Tensor.reduce]
      cases s.reduce t.toList <;> rfl
    | some a =>
      simp only [Tensor.reduce]
      cases axisFromFront? a t.rank with
      | none => rfl
      | some k =>
        dsimp only
        cases t.mapLanes s.reduce k k.isLt <;> rfl

theorem toNumeric?_ofFloats (u : Tensor Float) : (ofFloats u).toNumeric? = some u := by
  unfold ofFloats
  split
  · next h =>
    exact congrArg some (Tensor.eq_scalar_of_item? (Tensor.item?_eq_some_item u h)).symm
  · next h => rfl

/-- A statistic of a value along an axis and then of all that this leaves is a number, and so is
the statistic of the whole value. `same` says how the two agree. -/
def LanesThenWhole (s : Statistic) (v : Value) (axis : Int64) (same : Float → Float → Prop) :
    Prop :=
  ∃ r x y, v.reduce s (some axis) = .ok r ∧ r.reduce s none = .ok (.float x) ∧
    v.reduce s none = .ok (.float y) ∧ same x y

theorem lanesThenWhole_of_tensor {s : Statistic} {v : Value} {t : Tensor Float} {axis : Int64}
    {same : Float → Float → Prop} (hv : v.toNumeric? = some t)
    (h : t.LanesThenWhole s.reduce axis same) : v.LanesThenWhole s axis same := by
  obtain ⟨u, x, y, hu, hx, hy, hsame⟩ := h
  refine ⟨ofFloats u, x, y, ?_, ?_, ?_, hsame⟩
  · simp only [reduce_eq, hv, hu]
    rfl
  · simp only [reduce_eq, toNumeric?_ofFloats, hx]
    rfl
  · simp only [reduce_eq, hv, hy]
    rfl

theorem reduce_back {v : Value} {t : Tensor Float} {axis back : Int64} {k : Nat}
    (hv : v.toNumeric? = some t) (hk : AxisAt axis t.rank k) (hback : AxisAt back t.rank k)
    (s : Statistic) : v.reduce s (some back) = v.reduce s (some axis) := by
  simp only [reduce_eq, hv, Tensor.reduce, axisFromFront?_of_axisAt hk,
    axisFromFront?_of_axisAt hback]

/-- Values reduce along an axis as arrays of any numbers do, and what reduces the lanes and then
what they gave comes out where the whole comes out: at the least or the greatest float that is a
number, up to the sign of zero, and in exact numbers at the sum, the product and, if no extent is
zero, the mean. Counted from the front or back from the end an axis is the same. -/
theorem lanes_then_whole (axis : Int64) (k : Nat) :
    (∀ (v : Value) (t : Tensor Float), v.toNumeric? = some t → AxisAt axis t.rank k →
      v.LanesThenWhole .minimum axis (fun x y => Infimum t.toList y ∧ (x == y) = true) ∧
      v.LanesThenWhole .maximum axis (fun x y => Supremum t.toList y ∧ (x == y) = true) ∧
      ∀ back : Int64, 0 ≤ axis.toInt → back.toInt = axis.toInt - t.rank →
        ∀ s, v.reduce s (some back) = v.reduce s (some axis)) ∧
    (∀ t : Tensor ℚ, AxisAt axis t.rank k →
      t.LanesThenWhole Reducer.sum.reduce axis (fun x y => y = t.toList.sum ∧ x = y) ∧
      t.LanesThenWhole Reducer.product.reduce axis (fun x y => y = t.toList.prod ∧ x = y) ∧
      ((∀ n ∈ t.shape, 0 < n) →
        t.LanesThenWhole Reducer.mean.reduce axis fun x y => y = average t.toList ∧ x = y)) ∧
    (∀ (s : Statistic) (v : Value) a, v.reduce s a = match v.toNumeric? with
      | none => .error (.notReducible s v.kind)
      | some t => (t.reduce s.reduce a).map .ofFloats) ∧
    (Statistic.sum.reduce : List Float → _) = Reducer.sum.reduce ∧
    (Statistic.product.reduce : List Float → _) = Reducer.product.reduce ∧
    (Statistic.mean.reduce : List Float → _) = Reducer.mean.reduce := by
  refine ⟨fun v t hv hk => ⟨?_, ?_, fun back hfront hback s => ?_⟩, fun t hk => ⟨?_, ?_, ?_⟩,
    reduce_eq, rfl, rfl, rfl⟩
  · exact lanesThenWhole_of_tensor hv (Tensor.extreme_lanesThenWhole picks_leastFloat hk)
  · exact lanesThenWhole_of_tensor hv (Tensor.extreme_lanesThenWhole picks_greatestFloat hk)
  · have hkfront : axis.toInt = k := by
      obtain ⟨hlt, h | h⟩ := hk <;> omega
    exact reduce_back hv hk ⟨hk.1, .inr (by omega)⟩ s
  · exact Tensor.sum_lanesThenWhole hk
  · exact Tensor.product_lanesThenWhole hk
  · exact Tensor.mean_lanesThenWhole hk

/-- A row without a number, and a row of two zeros. -/
def numberless : Tensor Float := ⟨[2, 2], #[0.0 / 0.0, 0.0 / 0.0, -0.0, 0.0], rfl⟩

/-- Two rows of two ratios. -/
def ratios : Tensor ℚ := ⟨[2, 2], #[1, 2, 3, 1 / 2], rfl⟩

/-- A row that has no number has the greatest number for its least, and so has a row without
elements; neither makes a difference to the whole. -/
theorem numberless_lanes_then_whole :
    AxisAt 1 numberless.rank 1 ∧ AxisAt 1 twoEmptyRows.rank 1 ∧ AxisAt 1 ratios.rank 1 ∧
    (array (.float numberless)).LanesThenWhole .minimum 1
      (fun x y => Infimum numberless.toList y ∧ (x == y) = true) ∧
    (array (.float twoEmptyRows)).LanesThenWhole .minimum 1
      (fun x y => Infimum [] y ∧ (x == y) = true) ∧
    reduce .mean (array (.float numberless)) (some (-1)) =
      reduce .mean (array (.float numberless)) (some 1) ∧
    ratios.LanesThenWhole Reducer.sum.reduce 1 (fun x y => y = 13 / 2 ∧ x = y) ∧
    (∀ n ∈ ratios.shape, 0 < n) ∧
    ratios.LanesThenWhole Reducer.mean.reduce 1 (fun x y => y = 13 / 8 ∧ x = y) := by
  have hnumberless : AxisAt 1 numberless.rank 1 := ⟨by decide, .inl (by decide)⟩
  have hempty : AxisAt 1 twoEmptyRows.rank 1 := ⟨by decide, .inl (by decide)⟩
  have hratios : AxisAt 1 ratios.rank 1 := ⟨by decide, .inl (by decide)⟩
  have hpos : ∀ n ∈ ratios.shape, 0 < n := by decide
  obtain ⟨hfloat, hexact, -⟩ := lanes_then_whole 1 1
  obtain ⟨hleast, -, hback⟩ := hfloat (array (.float numberless)) numberless rfl hnumberless
  obtain ⟨hnone, -⟩ := hfloat (array (.float twoEmptyRows)) twoEmptyRows rfl hempty
  obtain ⟨hsum, -, hmean⟩ := hexact ratios hratios
  have htotal : ratios.toList.sum = 13 / 2 := by norm_num [ratios, Tensor.toList]
  have haverage : average ratios.toList = 13 / 8 := by
    rw [average, Multiset.sum_coe, htotal]
    norm_num [ratios, Tensor.toList]
  rw [htotal] at hsum
  rw [haverage] at hmean
  exact ⟨hnumberless, hempty, hratios, hleast, hnone, hback (-1) (by decide) (by decide) .mean,
    hsum, hpos, hmean hpos⟩

end Value

end ArrayGraph
