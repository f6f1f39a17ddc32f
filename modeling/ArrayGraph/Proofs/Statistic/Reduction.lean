import ArrayGraph.Statistic.Reduction
import ArrayGraph.Proofs.Tensor.Lane
/-!
# What a reduction gives

`Reduction` lists the ways a reduction can end, each with all that led there, and the
theorems after it are case analyses over that list. An axis counts from the front or back
from the end (`AxisAt`), and a statistic fails only for want of elements
(`reduce_eq_error_iff`).
-/

namespace ArrayGraph

/-! ## Statistics without elements -/

/-- The statistics that have no value for an empty sequence. -/
def Statistic.NeedsElements (s : Statistic) : Prop :=
  s = .mean ∨ s = .variance ∨ s = .standardDeviation

theorem Statistic.reduce_eq_error_iff {α : Type} [RealScalar α] {s : Statistic} {xs : List α}
    {e : EmptySequence} : s.reduce xs = .error e ↔ s.NeedsElements ∧ xs = [] := by
  rw [← List.length_eq_zero_iff]
  cases s with
  | minimum | maximum | sum | product | logSumExp =>
    exact iff_of_false nofun fun h => by simp [NeedsElements] at h
  | mean =>
    have hneeds : NeedsElements .mean := .inl rfl
    rw [and_iff_right hneeds]
    simp only [reduce, reducer, Reducer.reduce, Reducer.mean]
    split
    · next h => exact iff_of_true rfl h
    · next h => exact iff_of_false nofun h
  | variance =>
    have hneeds : NeedsElements .variance := .inr (.inl rfl)
    rw [and_iff_right hneeds]
    exact Welford.variance_eq_error_iff
  | standardDeviation =>
    have hneeds : NeedsElements .standardDeviation := .inr (.inr rfl)
    rw [and_iff_right hneeds]
    have hsqrt {x : Except EmptySequence α} : x.map RealScalar.sqrt = .error e ↔ x = .error e := by
      cases x with
      | error e' => rfl
      | ok y => exact iff_of_false nofun nofun
    exact hsqrt.trans Welford.variance_eq_error_iff

/-! ## Axes -/

/-- An axis of an operand, counted from the front or, when negative, back from the end. -/
def AxisAt (axis : Int64) (rank k : Nat) : Prop :=
  k < rank ∧ (axis.toInt = k ∨ axis.toInt = (k : Int) - rank)

section
variable {axis : Int64} {rank k : Nat}

theorem axisAt_of_axisFromFront? {place : Fin rank} (h : axisFromFront? axis rank = some place) :
    AxisAt axis rank place := by
  unfold axisFromFront? at h
  simp only [Option.dite_none_right_eq_some, Option.some.injEq] at h
  obtain ⟨hrange, rfl⟩ := h
  simp only [AxisAt]
  split at hrange <;> omega

theorem axisFromFront?_eq_none_iff :
    axisFromFront? axis rank = none ↔ axis.toInt < -rank ∨ (rank : Int) ≤ axis.toInt := by
  simp only [axisFromFront?, dite_eq_right_iff, reduceCtorEq, imp_false]
  split <;> omega

theorem AxisAt.range (h : AxisAt axis rank k) : -(rank : Int) ≤ axis.toInt ∧ axis.toInt < rank := by
  obtain ⟨hk, h | h⟩ := h <;> omega

theorem AxisAt.unique {k' : Nat} (h : AxisAt axis rank k) (h' : AxisAt axis rank k') : k = k' := by
  obtain ⟨hk, h | h⟩ := h <;> obtain ⟨hk', h' | h'⟩ := h' <;> omega

/-- Counting back from the end stays within machine integers. -/
theorem toInt_add_rank (h : axis.toInt < 0) (hrank : (rank : Int) ≤ Int64.maxValue.toInt) :
    (axis + Int64.ofNat rank).toInt = axis.toInt + rank := by
  have hmax : Int64.maxValue.toInt = 2 ^ 63 - 1 := rfl
  have hlow := axis.le_toInt
  rw [Int64.toInt_add, Int64.toInt_ofNat_of_lt (by omega)]
  exact Int.bmod_eq_of_le (by omega) (by omega)

end

namespace Value

/-! ## Outcomes -/

/-- Truth values, numbers and arrays. -/
def IsNumeric (v : Value) : Prop := v.kind ∈ [.bool, .int, .float, .array]

theorem toNumeric?_eq_none_iff {v : Value} : v.toNumeric? = none ↔ ¬ v.IsNumeric := by
  cases v <;> simp [toNumeric?, asFloat?, IsNumeric, kind]

/-- The ways the reduction of a value can end, by its numbers, if it has any, and the axis. -/
inductive Reduction (s : Statistic) (kind : Kind) :
    Option (Tensor Float) → Option Int64 → Except Cause Value → Prop
  | notNumeric {axis : Option Int64} : Reduction s kind none axis (.error (.notReducible s kind))
  | whole {t : Tensor Float} {x : Float} (hx : s.reduce t.toList = .ok x) :
      Reduction s kind (some t) none (.ok (.float x))
  | wholeEmpty {t : Tensor Float} {e : EmptySequence} (he : s.reduce t.toList = .error e) :
      Reduction s kind (some t) none (.error .noElements)
  | outside {t : Tensor Float} {a : Int64} (ha : a.toInt < -t.rank ∨ t.rank ≤ a.toInt) :
      Reduction s kind (some t) (some a) (.error (.axisOutOfRange a t.rank))
  | along {t u : Tensor Float} {a : Int64} {k : Nat} (hk : AxisAt a t.rank k)
      (hu : t.Collapses s.reduce k u) : Reduction s kind (some t) (some a) (.ok (.ofFloats u))
  | laneEmpty {t : Tensor Float} {a : Int64} {k : Nat} {index : List Nat} {xs : List Float}
      {e : EmptySequence} (hk : AxisAt a t.rank k)
      (hindex : index ∈ Shape.indices (t.shape.eraseIdx k)) (hlane : t.LaneAt k index xs)
      (he : s.reduce xs = .error e) : Reduction s kind (some t) (some a) (.error .noElements)

theorem reduce_outcome (s : Statistic) (v : Value) (axis : Option Int64) :
    Reduction s v.kind v.toNumeric? axis (v.reduce s axis) := by
  unfold reduce
  cases v.toNumeric? with
  | none => exact .notNumeric
  | some t =>
    cases axis with
    | none =>
      dsimp only
      cases hx : s.reduce t.toList with
      | ok x => exact .whole hx
      | error e => exact .wholeEmpty hx
    | some a =>
      dsimp only
      cases hplace : axisFromFront? a t.rank with
      | none => exact .outside (axisFromFront?_eq_none_iff.1 hplace)
      | some place =>
        have hk := axisAt_of_axisFromFront? hplace
        dsimp only
        cases hu : t.mapLanes s.reduce place place.isLt with
        | ok u => exact .along hk (Tensor.collapses_of_mapLanes_ok hu)
        | error e =>
          obtain ⟨index, hindex, xs, hlane, he⟩ := Tensor.exists_of_mapLanes_error hu
          exact .laneEmpty hk hindex hlane he

section
variable {s : Statistic} {v : Value} {axis : Option Int64} {t : Tensor Float}

/-- The reduction fails with an error of this kind. -/
def FailsWith (s : Statistic) (v : Value) (axis : Option Int64) (kind : ErrorKind) : Prop :=
  ∃ c, v.reduce s axis = .error c ∧ c.kind = kind

/-- What is reduced: all elements, or those of a lane along the axis. -/
def Reduced (t : Tensor Float) (axis : Option Int64) (xs : List Float) : Prop :=
  match axis with
  | none => xs = t.toList
  | some a => ∃ k, AxisAt a t.rank k ∧
      ∃ index ∈ Shape.indices (t.shape.eraseIdx k), t.LaneAt k index xs

theorem failsWith_kind {kind : ErrorKind} (h : FailsWith s v axis kind) :
    kind = .incompatibleOperands ∨ kind = .invalidOperand ∨ kind = .emptySequence := by
  obtain ⟨c, hc, rfl⟩ := h
  have hout := reduce_outcome s v axis
  rw [hc] at hout
  generalize v.toNumeric? = numbers at hout
  cases hout with
  | notNumeric => exact .inl rfl
  | outside ha => exact .inr (.inl rfl)
  | wholeEmpty he | laneEmpty hk hindex hlane he => exact .inr (.inr rfl)

theorem failsWith_incompatibleOperands_iff :
    FailsWith s v axis .incompatibleOperands ↔ ¬ v.IsNumeric := by
  rw [← toNumeric?_eq_none_iff]
  constructor
  · rintro ⟨c, hc, hkind⟩
    have hout := reduce_outcome s v axis
    rw [hc] at hout
    cases hv : v.toNumeric? with
    | none => rfl
    | some t =>
      rw [hv] at hout
      cases hout with
      | outside ha => cases hkind
      | wholeEmpty he | laneEmpty hk hindex hlane he => cases hkind
  · intro hv
    exact ⟨.notReducible s v.kind, by simp only [reduce, hv], rfl⟩

theorem failsWith_invalidOperand_iff (ht : v.toNumeric? = some t) :
    FailsWith s v axis .invalidOperand ↔
      ∃ a, axis = some a ∧ (a.toInt < -t.rank ∨ t.rank ≤ a.toInt) := by
  constructor
  · rintro ⟨c, hc, hkind⟩
    have hout := reduce_outcome s v axis
    rw [ht, hc] at hout
    cases hout with
    | outside ha => exact ⟨_, rfl, ha⟩
    | wholeEmpty he | laneEmpty hk hindex hlane he => cases hkind
  · rintro ⟨a, rfl, ha⟩
    have hnone := axisFromFront?_eq_none_iff.2 ha
    exact ⟨.axisOutOfRange a t.rank, by simp only [reduce, ht, hnone], rfl⟩

/-- Every sequence that is reduced has a value, if the reduction has one. -/
theorem reduce_ok_of_reduced {xs : List Float} {r : Value} (ht : v.toNumeric? = some t)
    (hxs : Reduced t axis xs) (h : v.reduce s axis = .ok r) : ∃ x, s.reduce xs = .ok x := by
  have hout := reduce_outcome s v axis
  rw [ht, h] at hout
  cases hout with
  | whole hx => exact ⟨_, hxs ▸ hx⟩
  | along hk hu =>
    obtain ⟨k, hk', index, hindex, hlane⟩ := hxs
    obtain rfl := hk.unique hk'
    obtain ⟨hshape, -, hat⟩ := hu
    obtain ⟨ys, x, hys, hx, -⟩ := hat index (hshape ▸ hindex)
    exact ⟨x, hlane.unique hys ▸ hx⟩

theorem failsWith_emptySequence_iff (ht : v.toNumeric? = some t) :
    FailsWith s v axis .emptySequence ↔ s.NeedsElements ∧ Reduced t axis [] := by
  have hout := reduce_outcome s v axis
  rw [ht] at hout
  constructor
  · rintro ⟨c, hc, hkind⟩
    rw [hc] at hout
    cases hout with
    | outside ha => cases hkind
    | wholeEmpty he =>
      obtain ⟨hs, hxs⟩ := Statistic.reduce_eq_error_iff.1 he
      exact ⟨hs, hxs.symm⟩
    | laneEmpty hk hindex hlane he =>
      obtain ⟨hs, rfl⟩ := Statistic.reduce_eq_error_iff.1 he
      exact ⟨hs, _, hk, _, hindex, hlane⟩
  · rintro ⟨hs, hempty⟩
    cases h : v.reduce s axis with
    | ok r =>
      obtain ⟨x, hx⟩ := reduce_ok_of_reduced ht hempty h
      have he : s.reduce ([] : List Float) = .error .emptySequence :=
        Statistic.reduce_eq_error_iff.2 ⟨hs, rfl⟩
      cases hx.symm.trans he
    | error c =>
      refine ⟨c, h, ?_⟩
      rw [h] at hout
      cases hout with
      | outside ha =>
        obtain ⟨k, hk, -⟩ := hempty
        exact absurd hk.range (by omega)
      | wholeEmpty he | laneEmpty hk hindex hlane he => rfl

theorem ofFloats_eq (u : Tensor Float) :
    if u.shape = [] then ∃ x, u.at? [] = some x ∧ ofFloats u = .float x
    else ofFloats u = .array (.float u) := by
  split
  · next h =>
    refine ⟨u.item h, ?_, dif_pos h⟩
    have hindex : [] ∈ u.shape.indices := h ▸ Shape.mem_indices_nil.2 rfl
    have hzero : u.shape.position [] = 0 := by rw [h]; rfl
    have hpos : 0 < u.data.size := by simp [u.size_eq, h]
    rw [Tensor.at?_of_mem hindex, hzero, Array.getElem?_eq_getElem hpos]
    rfl
  · next h => exact dif_neg h

theorem reduce_whole {r : Value} (ht : v.toNumeric? = some t) (h : v.reduce s none = .ok r) :
    ∃ x, s.reduce t.toList = .ok x ∧ r = .float x := by
  have hout := reduce_outcome s v none
  rw [ht, h] at hout
  cases hout with
  | whole hx => exact ⟨_, hx, rfl⟩

theorem reduce_along {a : Int64} {r : Value} (ht : v.toNumeric? = some t)
    (h : v.reduce s (some a) = .ok r) : ∃ k u, AxisAt a t.rank k ∧ t.Collapses s.reduce k u ∧
      if t.rank = 1 then ∃ x, u.at? [] = some x ∧ r = .float x else r = .array (.float u) := by
  have hout := reduce_outcome s v (some a)
  rw [ht, h] at hout
  cases hout with
  | @along _ u _ k hk hu =>
    have hlt : k < t.shape.length := hk.1
    have hrank : t.rank = 1 ↔ u.shape = [] := by
      rw [← List.length_eq_zero_iff, hu.1, List.length_eraseIdx_of_lt hlt, Tensor.rank]
      omega
    refine ⟨k, u, hk, hu, ?_⟩
    simp only [hrank]
    exact ofFloats_eq u

end

/-! ## Main statement -/

/-- For every statistic, value and axis: a reduction fails because the value has no numbers,
because it has no such axis, or because the statistic needs elements and what it is to
reduce has none. What it gives else is one number for all elements in their order, or along
an axis an array of the other axes, with the statistic of the lane at each index; for a
vector that is a number. Neither the axis nor the shape of the result can overflow. -/
theorem reduction_along_axis (s : Statistic) (v : Value) (axis : Option Int64) :
    (∀ kind, FailsWith s v axis kind →
      kind = .incompatibleOperands ∨ kind = .invalidOperand ∨ kind = .emptySequence) ∧
    (FailsWith s v axis .incompatibleOperands ↔ ¬ v.IsNumeric) ∧
    ∀ t, v.toNumeric? = some t →
      t.toList.map some = t.shape.indices.map t.at? ∧
      (FailsWith s v axis .invalidOperand ↔
        ∃ a, axis = some a ∧ (a.toInt < -t.rank ∨ t.rank ≤ a.toInt)) ∧
      (∀ a : Int64, a.toInt < 0 → (t.rank : Int) ≤ Int64.maxValue.toInt →
        (a + Int64.ofNat t.rank).toInt = a.toInt + t.rank) ∧
      (FailsWith s v axis .emptySequence ↔ s.NeedsElements ∧ Reduced t axis []) ∧
      (∀ r, v.reduce s axis = .ok r → axis = none → ∃ x, s.reduce t.toList = .ok x ∧ r = .float x) ∧
      ∀ r a, v.reduce s axis = .ok r → axis = some a → ∃ k u, AxisAt a t.rank k ∧
        t.Collapses s.reduce k u ∧
        (if t.rank = 1 then ∃ x, u.at? [] = some x ∧ r = .float x else r = .array (.float u)) ∧
        (Tensor.ofShape t.shape t.data = .ok t → Tensor.ofShape u.shape u.data = .ok u) := by
  refine ⟨fun kind => failsWith_kind, failsWith_incompatibleOperands_iff, fun t ht => ?_⟩
  refine ⟨t.map_at?_indices.symm, failsWith_invalidOperand_iff ht, fun a => toInt_add_rank,
    failsWith_emptySequence_iff ht, ?_, ?_⟩
  · rintro r hr rfl
    exact reduce_whole ht hr
  · rintro r a hr rfl
    obtain ⟨k, u, hk, hu, hkind⟩ := reduce_along ht hr
    exact ⟨k, u, hk, hu, hkind, hu.ofShape_eq_ok⟩

/-- Two rows of three columns, and two rows of none. -/
def twoRows : Tensor Float := ⟨[2, 3], #[1, 2, 3, 4, 5, 6], rfl⟩
def twoEmptyRows : Tensor Float := ⟨[2, 0], #[], rfl⟩

/-- The last axis is that of the rows, which have a maximum and, when they are empty, no
mean; but no column is empty then, for there is none. -/
theorem twoRows_reduced :
    (∃ k u x, AxisAt (-1) 2 k ∧
      reduce .maximum (.array (.float twoRows)) (some (-1)) = .ok (.array (.float u)) ∧
      u.shape = [2] ∧ Statistic.maximum.reduce [4, 5, 6] = .ok x ∧ u.at? [1] = some x) ∧
    FailsWith .mean (.array (.float twoEmptyRows)) (some (-1)) .emptySequence ∧
    ¬ FailsWith .mean (.array (.float twoEmptyRows)) (some (-2)) .emptySequence ∧
    FailsWith .mean (.array (.float twoRows)) (some (-3)) .invalidOperand ∧
    FailsWith .mean (.str "mean") none .incompatibleOperands := by
  obtain ⟨hkinds, hnumeric, hrows⟩ :=
    reduction_along_axis .maximum (.array (.float twoRows)) (some (-1))
  obtain ⟨-, hrange, -, hempty, -, halong⟩ := hrows twoRows rfl
  obtain ⟨-, -, hlast⟩ := reduction_along_axis .mean (.array (.float twoEmptyRows)) (some (-1))
  obtain ⟨-, -, hfirst⟩ := reduction_along_axis .mean (.array (.float twoEmptyRows)) (some (-2))
  obtain ⟨-, -, hout⟩ := reduction_along_axis .mean (.array (.float twoRows)) (some (-3))
  have hback : AxisAt (-1) 2 1 := ⟨by decide, .inr (by decide)⟩
  refine ⟨?_, ?_, ?_, ?_, ?_⟩
  · cases h : reduce .maximum (.array (.float twoRows)) (some (-1)) with
    | error c =>
      rcases hkinds c.kind ⟨c, h, rfl⟩ with hkind | hkind | hkind
      · exact absurd (by simp [IsNumeric, kind]) (hnumeric.1 ⟨c, h, hkind⟩)
      · obtain ⟨a, ⟨⟩, ha⟩ := hrange.1 ⟨c, h, hkind⟩
        exact absurd ha (by decide)
      · exact absurd (hempty.1 ⟨c, h, hkind⟩).1 (by simp [Statistic.NeedsElements])
    | ok r =>
      obtain ⟨k, u, hk, ⟨hshape, -, hat⟩, hr, -⟩ := halong r (-1) h rfl
      obtain rfl := hback.unique hk
      rw [if_neg (by decide)] at hr
      obtain ⟨xs, x, hlane, hx, hux⟩ := hat [1] (hshape ▸ by decide)
      have hrow : twoRows.LaneAt 1 [1] [4, 5, 6] := rfl
      obtain rfl := hrow.unique hlane
      exact ⟨1, u, x, hk, congrArg _ hr, hshape, hx, hux⟩
  · exact (hlast twoEmptyRows rfl).2.2.2.1.2 ⟨.inl rfl, 1, hback, [0], by decide, rfl⟩
  · intro hfails
    obtain ⟨-, k, hk, index, hindex, -⟩ := (hfirst twoEmptyRows rfl).2.2.2.1.1 hfails
    have hfront : AxisAt (-2) 2 0 := ⟨by decide, .inr (by decide)⟩
    obtain rfl := hfront.unique hk
    cases hindex
  · exact (hout twoRows rfl).2.1.2 ⟨-3, rfl, .inl (by decide)⟩
  · exact (reduction_along_axis .mean (.str "mean") none).2.1.2 (by simp [IsNumeric, kind])

end Value

end ArrayGraph
