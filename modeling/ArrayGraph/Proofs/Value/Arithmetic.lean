import ArrayGraph.Arithmetic
import ArrayGraph.Proofs.Statistic.Reduction
import ArrayGraph.Proofs.Value.Comparison
/-!
# When arithmetic is exact

Two integers have an exact result if the operator is not division and the result is a machine
integer (`ArithmeticOp.Fits`). All else is combined as floats: `Value.floatAt?` is what a value
holds at an index, and the result holds at every index what the operator makes of the two
operands there. `Combination` lists the ways that an operator can end.
-/

namespace ArrayGraph

/-! ## Exact results -/

namespace ArithmeticOp

/-- The operator has an exact result for two integers, and the result is a machine integer. -/
def Fits (op : ArithmeticOp) (i j : Int64) : Prop :=
  op ≠ .div ∧ Int64.minValue.toInt ≤ op.apply i.toInt j.toInt ∧
    op.apply i.toInt j.toInt ≤ Int64.maxValue.toInt

theorem range_of_fit? {n : Int} {k : Int64} (h : fit? n = some k) :
    Int64.minValue.toInt ≤ n ∧ n ≤ Int64.maxValue.toInt := by
  unfold fit? at h
  split at h
  · assumption
  · cases h

variable {op : ArithmeticOp} {i j n : Int64}

theorem applyExact?_eq (h : op ≠ .div) : op.applyExact? i j = fit? (op.apply i.toInt j.toInt) := by
  cases op with
  | add | sub | mul => rfl
  | div => exact absurd rfl h

theorem ne_div_of_applyExact? (h : op.applyExact? i j = some n) : op ≠ .div := by
  rintro rfl
  cases h

theorem fits_of_applyExact? (h : op.applyExact? i j = some n) : op.Fits i j := by
  have hdiv := ne_div_of_applyExact? h
  rw [applyExact?_eq hdiv] at h
  exact ⟨hdiv, range_of_fit? h⟩

theorem toInt_of_applyExact? (h : op.applyExact? i j = some n) :
    n.toInt = op.apply i.toInt j.toInt := by
  rw [applyExact?_eq (ne_div_of_applyExact? h)] at h
  exact toInt_of_fit? h

theorem exists_applyExact? (h : op.Fits i j) : ∃ n, op.applyExact? i j = some n :=
  ⟨_, (applyExact?_eq h.1).trans (if_pos h.2)⟩

end ArithmeticOp

/-! ## What a value holds -/

namespace Value

/-- The shape of a number or an array. -/
def shape? : Value → Option Shape
  | bool _ | int _ | float _ => some []
  | array a => some a.shape
  | _ => none

/-- What a number or an array holds at an index, as a float. -/
def floatAt? (v : Value) (index : List Nat) : Option Float :=
  match v with
  | bool b => if index = [] then some (floatOfBool b) else none
  | int i => if index = [] then some (floatOfInt i) else none
  | float x => if index = [] then some x else none
  | array (.float t) => t.at? index
  | array (.int t) => (t.at? index).map floatOfInt
  | array (.bool t) => (t.at? index).map floatOfBool
  | _ => none

/-- The floats that a value is read as have its shape and are what it holds. -/
structure Reads (v : Value) (t : Tensor Float) : Prop where
  numbers : v.toNumeric? = some t
  shape : v.shape? = some t.shape
  floatAt : ∀ index, v.floatAt? index = t.at? index

theorem reads_of_isNumeric {v : Value} (h : v.IsNumeric) : ∃ t, v.Reads t := by
  cases v with
  | bool b => exact ⟨.scalar _, rfl, rfl, fun _ => (Tensor.at?_scalar ..).symm⟩
  | int i => exact ⟨.scalar _, rfl, rfl, fun _ => (Tensor.at?_scalar ..).symm⟩
  | float x => exact ⟨.scalar _, rfl, rfl, fun _ => (Tensor.at?_scalar ..).symm⟩
  | array a =>
    cases a with
    | float t => exact ⟨t, rfl, rfl, fun _ => rfl⟩
    | int t => exact ⟨t.map floatOfInt, rfl, rfl, fun _ => (Tensor.at?_map ..).symm⟩
    | bool t => exact ⟨t.map floatOfBool, rfl, rfl, fun _ => (Tensor.at?_map ..).symm⟩
  | empty | str | list | node => simp [IsNumeric, kind] at h

theorem floatAt?_ofFloats (t : Tensor Float) (index : List Nat) :
    (ofFloats t).floatAt? index = t.at? index := by
  have h := ofFloats_eq t
  split at h
  · next hshape =>
    obtain ⟨x, hx, he⟩ := h
    rw [he, floatAt?]
    split
    · next hindex => rw [hindex, hx]
    · next hindex =>
      rw [Tensor.at?, if_neg]
      rw [hshape, Shape.mem_indices_nil]
      exact hindex
  · rw [h]
    rfl

/-! ## Outcomes -/

/-- Two integers that have an exact result. -/
def Exactly (op : ArithmeticOp) (a b : Value) : Prop :=
  ∃ i j, a = .int i ∧ b = .int j ∧ op.Fits i j

/-- The ways the combination of two values can end. -/
inductive Combination (op : ArithmeticOp) (a b : Value) : Except Cause Value → Prop
  | exact {i j n : Int64} (ha : a = .int i) (hb : b = .int j) (hfits : op.Fits i j)
      (hn : n.toInt = op.apply i.toInt j.toInt) : Combination op a b (.ok (.int n))
  | floats {s t u : Tensor Float} (hexact : ¬ Exactly op a b) (ha : a.Reads s) (hb : b.Reads t)
      (hc : Compatible s.shape t.shape) (hu : Tensor.Combines op.apply s t u) :
      Combination op a b (.ok (.ofFloats u))
  | unmatched {s t : Tensor Float} {m : Mismatch} (ha : a.Reads s) (hb : b.Reads t)
      (hm : broadcastShape s.shape t.shape = .error m) : Combination op a b (.error (.unmatched m))
  | unrelated (h : ¬ a.IsNumeric ∨ ¬ b.IsNumeric) :
      Combination op a b (.error (.unrelatedKinds op.symbol a.kind b.kind))

section
variable {op : ArithmeticOp} {a b : Value}

theorem combineFloats_outcome (hexact : ¬ Exactly op a b) :
    Combination op a b (a.combineFloats op b) := by
  by_cases ha : a.IsNumeric
  · by_cases hb : b.IsNumeric
    · obtain ⟨s, hs⟩ := reads_of_isNumeric ha
      obtain ⟨t, ht⟩ := reads_of_isNumeric hb
      simp only [combineFloats, hs.numbers, ht.numbers]
      cases hshape : broadcastShape s.shape t.shape with
      | error m =>
        rw [Tensor.broadcast_of_error hshape]
        exact .unmatched hs ht hshape
      | ok shape =>
        have hc := compatible_of_broadcastShape hshape
        obtain ⟨u, hu, hcombines⟩ :=
          Tensor.broadcast_of_ok op.apply hc (broadcastShape_of_compatible hc)
        rw [hu]
        exact .floats hexact hs ht hc hcombines
    · simp only [combineFloats, toNumeric?_eq_none_iff.2 hb]
      cases a.toNumeric? <;> exact .unrelated (.inr hb)
  · simp only [combineFloats, toNumeric?_eq_none_iff.2 ha]
    exact .unrelated (.inl ha)

theorem combine_exact {i j : Int64} (hfits : op.Fits i j) :
    ∃ n, (int i).combine op (int j) = .ok (.int n) ∧ n.toInt = op.apply i.toInt j.toInt := by
  obtain ⟨n, hn⟩ := ArithmeticOp.exists_applyExact? hfits
  exact ⟨n, by simp only [combine, hn], ArithmeticOp.toInt_of_applyExact? hn⟩

/-- Without an exact result even two integers are combined as floats. -/
theorem combine_eq_combineFloats (h : ¬ Exactly op a b) :
    a.combine op b = a.combineFloats op b := by
  unfold combine
  split
  · next i j =>
    split
    · next n hn => exact absurd ⟨i, j, rfl, rfl, ArithmeticOp.fits_of_applyExact? hn⟩ h
    · rfl
  · rfl

theorem combine_outcome (op : ArithmeticOp) (a b : Value) :
    Combination op a b (a.combine op b) := by
  by_cases h : Exactly op a b
  · obtain ⟨i, j, rfl, rfl, hfits⟩ := h
    obtain ⟨n, hr, hn⟩ := combine_exact hfits
    rw [hr]
    exact .exact rfl rfl hfits hn
  · rw [combine_eq_combineFloats h]
    exact combineFloats_outcome h

theorem ofFloats_ne_int (t : Tensor Float) (n : Int64) : ofFloats t ≠ .int n := by
  have h := ofFloats_eq t
  split at h
  · obtain ⟨x, -, hx⟩ := h
    rw [hx]
    nofun
  · rw [h]
    nofun

theorem combine_int_iff {n : Int64} : a.combine op b = .ok (.int n) ↔
    ∃ i j, a = .int i ∧ b = .int j ∧ op.Fits i j ∧ n.toInt = op.apply i.toInt j.toInt := by
  have hout := combine_outcome op a b
  constructor
  · intro h
    rw [h] at hout
    generalize hr : Except.ok (int n) = r at hout
    cases hout with
    | exact ha hb hfits hn =>
      cases hr
      exact ⟨_, _, ha, hb, hfits, hn⟩
    | @floats _ _ u => exact absurd (Except.ok.inj hr).symm (ofFloats_ne_int u n)
    | unmatched ha hb hm => cases hr
    | unrelated h => cases hr
  · rintro ⟨i, j, rfl, rfl, hfits, hn⟩
    obtain ⟨k, hr, hk⟩ := combine_exact hfits
    rw [hr, Int64.toInt_inj.1 (hk.trans hn.symm)]

/-- A single float, or an array of floats of the wider shape. -/
def IsFloats (lhs rhs : Shape) (v : Value) : Prop :=
  if lhs = [] ∧ rhs = [] then ∃ x, v = .float x
  else ∃ u, v = .array (.float u) ∧ u.shape = widerShape lhs rhs

theorem isFloats_ofFloats {lhs rhs : Shape} {u : Tensor Float} (h : u.shape = widerShape lhs rhs) :
    IsFloats lhs rhs (ofFloats u) := by
  have hnil : widerShape lhs rhs = [] ↔ lhs = [] ∧ rhs = [] := by
    unfold widerShape
    split <;> cases lhs <;> cases rhs <;> simp_all
  have hu := ofFloats_eq u
  by_cases hs : lhs = [] ∧ rhs = []
  · rw [if_pos (h.trans (hnil.2 hs))] at hu
    obtain ⟨x, -, hx⟩ := hu
    exact (if_pos hs).mpr ⟨x, hx⟩
  · rw [if_neg (h ▸ mt hnil.1 hs)] at hu
    exact (if_neg hs).mpr ⟨u, hu, h⟩

theorem isNumeric_of_shape? {v : Value} {s : Shape} (h : v.shape? = some s) : v.IsNumeric := by
  cases v <;> simp_all [shape?, IsNumeric, kind]

theorem exists_combine_int : (∃ n, a.combine op b = .ok (.int n)) ↔ Exactly op a b := by
  constructor
  · rintro ⟨n, hn⟩
    obtain ⟨i, j, ha, hb, hfits, -⟩ := combine_int_iff.1 hn
    exact ⟨i, j, ha, hb, hfits⟩
  · rintro ⟨i, j, rfl, rfl, hfits⟩
    obtain ⟨n, hr, -⟩ := combine_exact hfits
    exact ⟨n, hr⟩

theorem combine_of_compatible {s t : Shape} (ha : a.shape? = some s) (hb : b.shape? = some t)
    (hc : Compatible s t) (hexact : ¬ Exactly op a b) :
    ∃ r, a.combine op b = .ok r ∧ IsFloats s t r ∧
      ∀ index ∈ (widerShape s t).indices, ∃ x y, a.floatAt? (operandIndex s index) = some x ∧
        b.floatAt? (operandIndex t index) = some y ∧ r.floatAt? index = some (op.apply x y) := by
  have hout := combine_outcome op a b
  generalize a.combine op b = r at hout
  cases hout with
  | exact ha hb hfits => exact absurd ⟨_, _, ha, hb, hfits⟩ hexact
  | floats _ hs ht _ hu =>
    cases ha.symm.trans hs.shape
    cases hb.symm.trans ht.shape
    obtain ⟨hshape, -, hat⟩ := hu
    refine ⟨_, rfl, isFloats_ofFloats hshape, fun index hindex => ?_⟩
    obtain ⟨x, y, hx, hy, hxy⟩ := hat index (hshape ▸ hindex)
    exact ⟨x, y, (hs.floatAt _).trans hx, (ht.floatAt _).trans hy,
      (floatAt?_ofFloats ..).trans hxy⟩
  | unmatched hs ht hm =>
    cases ha.symm.trans hs.shape
    cases hb.symm.trans ht.shape
    cases hm.symm.trans (broadcastShape_of_compatible hc)
  | unrelated h =>
    rcases h with h | h
    · exact absurd (isNumeric_of_shape? ha) h
    · exact absurd (isNumeric_of_shape? hb) h

theorem combine_error {c : Cause} (h : a.combine op b = .error c) :
    (¬ a.IsNumeric ∨ ¬ b.IsNumeric) ∧ c.kind = .incompatibleOperands ∨
      ∃ s t m, a.shape? = some s ∧ b.shape? = some t ∧ broadcastShape s t = .error m ∧
        c = .unmatched m := by
  have hout := combine_outcome op a b
  rw [h] at hout
  cases hout with
  | unmatched hs ht hm => exact .inr ⟨_, _, _, hs.shape, ht.shape, hm, rfl⟩
  | unrelated hkinds => exact .inl ⟨hkinds, rfl⟩

theorem compatible_of_combine {r : Value} (h : a.combine op b = .ok r) :
    ∃ s t, a.shape? = some s ∧ b.shape? = some t ∧ Compatible s t := by
  have hout := combine_outcome op a b
  rw [h] at hout
  generalize hr : Except.ok r = result at hout
  cases hout with
  | exact ha hb =>
    subst ha hb
    exact ⟨[], [], rfl, rfl, by simp, .inl rfl⟩
  | floats _ hs ht hc => exact ⟨_, _, hs.shape, ht.shape, hc⟩
  | unmatched => cases hr
  | unrelated => cases hr

theorem combine_fails_iff : (∃ c, a.combine op b = .error c) ↔ ¬ a.IsNumeric ∨ ¬ b.IsNumeric ∨
    ∃ s t, a.shape? = some s ∧ b.shape? = some t ∧ ¬ Compatible s t := by
  constructor
  · rintro ⟨c, hc⟩
    rcases combine_error hc with ⟨h | h, -⟩ | ⟨s, t, m, hs, ht, hm, -⟩
    · exact .inl h
    · exact .inr (.inl h)
    · refine .inr (.inr ⟨s, t, hs, ht, fun h => ?_⟩)
      cases hm.symm.trans (broadcastShape_of_compatible h)
  · intro h
    cases hr : a.combine op b with
    | error c => exact ⟨c, rfl⟩
    | ok r =>
      obtain ⟨s, t, hs, ht, hc⟩ := compatible_of_combine hr
      rcases h with h | h | ⟨s', t', hs', ht', h⟩
      · exact absurd (isNumeric_of_shape? hs) h
      · exact absurd (isNumeric_of_shape? ht) h
      · cases hs.symm.trans hs'
        cases ht.symm.trans ht'
        exact absurd hc h

end

/-! ## Main statement -/

/-- The result is an integer exactly for two integers whose result under addition,
subtraction or multiplication is a machine integer, and then it is that one. All else that is
numeric and of compatible shapes gives floats, a single one for two operands of rank 0, and at
every index the operator is applied to the two operands there in their order. It fails exactly
when an operand is not numeric or the shapes don't broadcast, with the error of either. -/
theorem arithmetic_dispatch (op : ArithmeticOp) (a b : Value) :
    ((∃ n, a.combine op b = .ok (.int n)) ↔ Exactly op a b) ∧
    (∀ n, a.combine op b = .ok (.int n) →
      ∃ i j, a = .int i ∧ b = .int j ∧ n.toInt = op.apply i.toInt j.toInt) ∧
    (∀ s t, a.shape? = some s → b.shape? = some t → Compatible s t → ¬ Exactly op a b →
      ∃ r, a.combine op b = .ok r ∧ IsFloats s t r ∧
        ∀ index ∈ (widerShape s t).indices, ∃ x y, a.floatAt? (operandIndex s index) = some x ∧
          b.floatAt? (operandIndex t index) = some y ∧ r.floatAt? index = some (op.apply x y)) ∧
    ((∃ c, a.combine op b = .error c) ↔ ¬ a.IsNumeric ∨ ¬ b.IsNumeric ∨
      ∃ s t, a.shape? = some s ∧ b.shape? = some t ∧ ¬ Compatible s t) ∧
    ∀ c, a.combine op b = .error c →
      (¬ a.IsNumeric ∨ ¬ b.IsNumeric) ∧ c.kind = .incompatibleOperands ∨
        ∃ s t m, a.shape? = some s ∧ b.shape? = some t ∧ broadcastShape s t = .error m ∧
          c = .unmatched m := by
  refine ⟨exists_combine_int, fun n hn => ?_, fun s t => combine_of_compatible, combine_fails_iff,
    fun c => combine_error⟩
  obtain ⟨i, j, ha, hb, -, hn⟩ := combine_int_iff.1 hn
  exact ⟨i, j, ha, hb, hn⟩

/-- One more than the greatest integer is a float, though one less is an integer; and in two
rows of truth values less a row of integers, the latter go to the right of the sign. -/
theorem greatest_dispatched :
    (∃ n, (int Int64.maxValue).combine .sub (int 1) = .ok (.int n)) ∧
    ¬ Exactly .add (int Int64.maxValue) (int 1) ∧
    (int Int64.maxValue).combine .add (int 1) =
      .ok (.float (floatOfInt Int64.maxValue + floatOfInt 1)) ∧
    ∃ r, flags.combine .sub neighbours = .ok r ∧
      r.floatAt? [1, 0] = some (floatOfBool false - floatOfInt 9007199254740993) := by
  have hover : ¬ Exactly .add (int Int64.maxValue) (int 1) := by
    rintro ⟨_, _, ⟨⟩, ⟨⟩, -, -, hle⟩
    exact absurd hle (by decide)
  have hflags : ¬ Exactly .sub flags neighbours := by
    rintro ⟨_, _, ⟨⟩, -⟩
  refine ⟨?_, hover, ?_, ?_⟩
  · exact (arithmetic_dispatch .sub _ _).1.2 ⟨_, _, rfl, rfl, by decide, by decide, by decide⟩
  · obtain ⟨r, hr, hfloats, hat⟩ := (arithmetic_dispatch .add (int Int64.maxValue) (int 1)).2.2.1
      [] [] rfl rfl ⟨by decide, .inl rfl⟩ hover
    obtain ⟨z, rfl⟩ := (if_pos ⟨rfl, rfl⟩).mp hfloats
    obtain ⟨x, y, hx, hy, hz⟩ := hat [] (by decide)
    cases hx
    cases hy
    cases hz
    exact hr
  · obtain ⟨r, hr, -, hat⟩ := (arithmetic_dispatch .sub flags neighbours).2.2.1
      [2, 2] [2] rfl rfl (compatible_matrix_vector.2 rfl) hflags
    obtain ⟨x, y, hx, hy, hz⟩ := hat [1, 0] (by decide)
    cases hx
    cases hy
    exact ⟨r, hr, hz⟩

end Value

end ArrayGraph
