import ArrayGraph.Proofs.Value.Arithmetic
import ArrayGraph.Proofs.Value.Pairing
/-!
# Scalars and arrays of rank 0

A scalar looks like the array of rank 0 that holds it through every view but its kind
(`sameViews_of_interchanged`). Comparisons, statistics, conditions and axes read nothing else,
and kinds only to word an error. Arithmetic has one shortcut that an array doesn't take, the
exact result of two integers.
-/

namespace ArrayGraph

namespace Value

/-! ## Interchanged scalars -/

/-- A scalar and the array of rank 0 that holds it. -/
inductive Wraps : Value → Value → Prop
  | bool {b : Bool} {t : Tensor Bool} (h : t.item? = some b) : Wraps (.bool b) (.array (.bool t))
  | int {i : Int64} {t : Tensor Int64} (h : t.item? = some i) : Wraps (.int i) (.array (.int t))
  | float {x : Float} {t : Tensor Float} (h : t.item? = some x) :
    Wraps (.float x) (.array (.float t))

/-- A scalar may stand for the array that holds it or the array for the scalar, also among the
items of lists. -/
inductive Interchanged : Value → Value → Prop
  | same (v : Value) : Interchanged v v
  | wrapped {v w : Value} (h : Wraps v w) : Interchanged v w
  | unwrapped {v w : Value} (h : Wraps v w) : Interchanged w v
  | list {vs ws : List Value} (h : List.Forall₂ Interchanged vs ws) :
    Interchanged (.list vs) (.list ws)

/-- What kernels and conditions read of a value, its kind apart. -/
structure SameViews (v w : Value) : Prop where
  text : v.asText? = w.asText?
  ints : v.toInts? = w.toInts?
  numbers : v.toNumeric? = w.toNumeric?
  integer : v.asInt? = w.asInt?
  truth : v.truthy? = w.truthy?

theorem SameViews.symm {v w : Value} (h : SameViews v w) : SameViews w v :=
  ⟨h.text.symm, h.ints.symm, h.numbers.symm, h.integer.symm, h.truth.symm⟩

theorem sameViews_of_wraps {v w : Value} (h : Wraps v w) : SameViews v w := by
  cases h with
  | bool h =>
    cases Tensor.eq_scalar_of_item? h
    exact ⟨rfl, rfl, congrArg some (Tensor.map_scalar ..).symm, rfl,
      congrArg some (Tensor.any_scalar id _).symm⟩
  | int h =>
    cases Tensor.eq_scalar_of_item? h
    exact ⟨rfl, rfl, congrArg some (Tensor.map_scalar ..).symm, rfl,
      congrArg some (Tensor.any_scalar (· != 0) _).symm⟩
  | float h =>
    cases Tensor.eq_scalar_of_item? h
    exact ⟨rfl, rfl, rfl, rfl, congrArg some (Tensor.any_scalar (· != 0) _).symm⟩

theorem sameViews_of_interchanged {v w : Value} (h : Interchanged v w) : SameViews v w := by
  cases h with
  | same => exact ⟨rfl, rfl, rfl, rfl, rfl⟩
  | wrapped h => exact sameViews_of_wraps h
  | unwrapped h => exact (sameViews_of_wraps h).symm
  | @list vs ws h =>
    refine ⟨rfl, rfl, rfl, rfl, ?_⟩
    cases h <;> rfl

/-! ## Kernels -/

section
variable {a a' b b' : Value}

theorem compare_sameViews (op : CompareOp) (ha : SameViews a a') (hb : SameViews b b') :
    Answers Eq (a.compare op b) (a'.compare op b') := by
  rw [compare_eq_pair, compare_eq_pair]
  simp only [pair, pairNumbers, ha.text, hb.text, ha.ints, hb.ints, ha.numbers, hb.numbers]
  split
  · exact answers_refl _
  · split
    · exact answers_refl _
    · split
      · exact answers_refl _
      · exact .error rfl

theorem combineFloats_sameViews (op : ArithmeticOp) (ha : SameViews a a') (hb : SameViews b b') :
    Answers Eq (a.combineFloats op b) (a'.combineFloats op b') := by
  simp only [combineFloats, ha.numbers, hb.numbers]
  split
  · exact answers_refl _
  · exact .error rfl

theorem reduce_sameViews (s : Statistic) (axis : Option Int64) (h : SameViews a a') :
    Answers Eq (a.reduce s axis) (a'.reduce s axis) := by
  simp only [reduce, h.numbers]
  split
  · exact .error rfl
  · exact answers_refl _

/-- An integer, or an array of rank 0 that holds one. -/
def IsInteger (v : Value) : Prop := ∃ i, v.asInt? = some i

theorem not_exactly {op : ArithmeticOp} (h : ¬ (a.IsInteger ∧ b.IsInteger ∧ op ≠ .div)) :
    ¬ Exactly op a b := by
  rintro ⟨i, j, rfl, rfl, hfits⟩
  exact h ⟨⟨i, rfl⟩, ⟨j, rfl⟩, hfits.1⟩

theorem combine_sameViews {op : ArithmeticOp} (ha : SameViews a a') (hb : SameViews b b')
    (h : ¬ (a.IsInteger ∧ b.IsInteger ∧ op ≠ .div)) :
    Answers Eq (a.combine op b) (a'.combine op b') := by
  have h' : ¬ (a'.IsInteger ∧ b'.IsInteger ∧ op ≠ .div) := by
    unfold IsInteger at h ⊢
    rwa [← ha.integer, ← hb.integer]
  rw [combine_eq_combineFloats (not_exactly h), combine_eq_combineFloats (not_exactly h')]
  exact combineFloats_sameViews op ha hb

/-- An exact result is lost with either integer. -/
theorem combine_lost {op : ArithmeticOp} {i j : Int64} (hfits : op.Fits i j)
    (ha : (int i).SameViews a') (hb : (int j).SameViews b') (h : ¬ (a' = int i ∧ b' = int j)) :
    ¬ Answers Eq ((int i).combine op (int j)) (a'.combine op b') := by
  obtain ⟨n, hn⟩ := exists_combine_int.2 ⟨i, j, rfl, rfl, hfits⟩
  rw [hn]
  intro hanswers
  generalize hr : a'.combine op b' = r at hanswers
  cases hanswers with
  | ok hv =>
    subst hv
    obtain ⟨i', j', rfl, rfl, -⟩ := combine_int_iff.1 hr
    have hi : i = i' := Option.some.inj ha.integer
    have hj : j = j' := Option.some.inj hb.integer
    exact h ⟨congrArg int hi.symm, congrArg int hj.symm⟩

end

/-! ## Main statement -/

/-- A scalar in the place of the array of rank 0 that holds it changes no comparison, no
statistic along any axis, no condition and no axis, and no arithmetic but that of two integers
under addition, subtraction and multiplication; there it does, whenever the exact result is a
machine integer. -/
theorem scalars_interchange {a a' b b' : Value} (ha : Interchanged a a') (hb : Interchanged b b') :
    (∀ op : CompareOp, Answers Eq (a.compare op b) (a'.compare op b')) ∧
    (∀ (s : Statistic) axis, Answers Eq (a.reduce s axis) (a'.reduce s axis)) ∧
    a.truthy? = a'.truthy? ∧ a.asInt? = a'.asInt? ∧
    (∀ op : ArithmeticOp, ¬ (a.IsInteger ∧ b.IsInteger ∧ op ≠ .div) →
      Answers Eq (a.combine op b) (a'.combine op b')) ∧
    ∀ (op : ArithmeticOp) i j, a = int i → b = int j → op.Fits i j → ¬ (a' = a ∧ b' = b) →
      ¬ Answers Eq (a.combine op b) (a'.combine op b') := by
  have ha := sameViews_of_interchanged ha
  have hb := sameViews_of_interchanged hb
  refine ⟨fun op => compare_sameViews op ha hb, fun s axis => reduce_sameViews s axis ha, ha.truth,
    ha.integer, fun op => combine_sameViews ha hb, ?_⟩
  rintro op i j rfl rfl hfits h
  exact combine_lost hfits ha hb h

/-- An integer against an array of rank 0 that holds another, with either in the place of the
other sort, and two sums that differ in sort. -/
theorem seven_interchanged :
    Interchanged (int 7) (array (.int (.scalar 7))) ∧
    Interchanged (array (.int (.scalar 2))) (int 2) ∧
    Answers Eq ((int 7).compare .less (array (.int (.scalar 2))))
      ((array (.int (.scalar 7))).compare .less (int 2)) ∧
    Answers Eq ((int 7).combine .div (array (.int (.scalar 2))))
      ((array (.int (.scalar 7))).combine .div (int 2)) ∧
    ¬ Answers Eq ((int 7).combine .add (int 2)) ((array (.int (.scalar 7))).combine .add (int 2)) := by
  have hseven : Interchanged (int 7) (array (.int (.scalar 7))) := .wrapped (.int rfl)
  have htwo : Interchanged (array (.int (.scalar 2))) (int 2) := .unwrapped (.int rfl)
  obtain ⟨hcompare, -, -, -, hcombine, -⟩ := scalars_interchange hseven htwo
  obtain ⟨-, -, -, -, -, hlost⟩ := scalars_interchange hseven (.same (int 2))
  refine ⟨hseven, htwo, hcompare .less, hcombine .div fun h => h.2.2 rfl, ?_⟩
  refine hlost .add 7 2 rfl rfl ⟨by decide, by decide, by decide⟩ ?_
  rintro ⟨⟨⟩, -⟩

end Value

end ArrayGraph
