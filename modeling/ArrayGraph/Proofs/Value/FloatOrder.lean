import ArrayGraph.Value
import Mathlib
/-!
# The order of floats

Every float that is a number has a place in a linear order (`place`): first what sort of
number it is, from the negative infinity up, then its exponent and its mantissa. The two
zeros share a place. Two numbers compare as their places do (`lt_iff_place`, `le_iff_place`,
`beq_iff_place`), and with one that is no number nothing compares.
-/

namespace ArrayGraph

open Float.Model Float.Model.UnpackedFloat

/-! ## Places -/

abbrev FloatPlace := ℤ ×ₗ ℤ ×ₗ ℤ

/-- The place of a float. One that is no number gets the place of zero, to no purpose. -/
def placeOf : UnpackedFloat → FloatPlace
  | .infinity .positive => toLex (2, toLex (0, 0))
  | .finite .positive m e _ => toLex (1, toLex (e, m))
  | .zero _ | .notANumber => toLex (0, toLex (0, 0))
  | .finite .negative m e _ => toLex (-1, toLex (-e, -m))
  | .infinity .negative => toLex (-2, toLex (0, 0))

def place (x : Float) : FloatPlace := placeOf x.toModel.unpack

theorem toLex_lt_of_fst {n n' : ℤ} {x y : ℤ ×ₗ ℤ} (h : n < n') : toLex (n, x) < toLex (n', y) :=
  Prod.Lex.toLex_lt_toLex.2 (.inl h)

theorem compares_same {o : Ordering} {x y : ℤ ×ₗ ℤ} (n : ℤ) (h : o.Compares x y) :
    o.Compares (toLex (n, x)) (toLex (n, y)) := by
  cases o <;> simpa [Ordering.Compares, Prod.Lex.toLex_lt_toLex] using h

theorem compares_neg {o : Ordering} {e e' m m' : ℤ}
    (h : o.Compares (toLex (e, m)) (toLex (e', m'))) :
    o.Compares (toLex (-e', -m')) (toLex (-e, -m)) := by
  cases o <;>
    simp only [Ordering.Compares, Prod.Lex.toLex_lt_toLex, toLex_inj, Prod.mk.injEq] at h ⊢ <;>
    omega

theorem compares_then (e e' : ℤ) (m m' : ℕ) :
    ((compare e e').then (compare m m')).Compares (toLex (e, (m : ℤ))) (toLex (e', (m' : ℤ))) := by
  rcases lt_trichotomy e e' with h | rfl | h
  · rw [compare_lt_iff_lt.2 h]
    exact Prod.Lex.toLex_lt_toLex.2 (.inl h)
  · rcases lt_trichotomy m m' with h | rfl | h
    · rw [compare_lt_iff_lt.2 h]
      simp [Ordering.Compares, Prod.Lex.toLex_lt_toLex, h]
    · simp [Ordering.Compares]
    · rw [compare_gt_iff_gt.2 h]
      simp [Ordering.Compares, Prod.Lex.toLex_lt_toLex, h]
  · rw [compare_gt_iff_gt.2 h]
    exact Prod.Lex.toLex_lt_toLex.2 (.inl h)

/-- The cases are those of the comparison of two floats: two finite numbers of one sign, two
of the same sort, and two whose sorts decide. -/
theorem compares_place {u v : UnpackedFloat} {o : Ordering} (h : u.compare v = some o) :
    o.Compares (placeOf u) (placeOf v) :=
  match u, v, h with
  | .finite .positive m e _, .finite .positive m' e' _, rfl =>
    compares_same 1 (compares_then e e' m m')
  | .finite .negative m e _, .finite .negative m' e' _, rfl =>
    compares_same (-1) (compares_neg (Ordering.compares_swap.2 (compares_then e e' m m')))
  | .infinity .positive, .infinity .positive, rfl | .infinity .negative, .infinity .negative, rfl
  | .zero _, .zero _, rfl => rfl
  | .infinity .positive, .infinity .negative, rfl | .infinity .positive, .zero _, rfl
  | .infinity .positive, .finite .positive .., rfl | .infinity .positive, .finite .negative .., rfl
  | .finite .positive .., .infinity .negative, rfl | .finite .positive .., .zero _, rfl
  | .finite .positive .., .finite .negative .., rfl | .zero _, .infinity .negative, rfl
  | .zero _, .finite .negative .., rfl | .finite .negative .., .infinity .negative, rfl =>
    toLex_lt_of_fst (by decide)
  | .infinity .negative, .infinity .positive, rfl | .infinity .negative, .zero _, rfl
  | .infinity .negative, .finite .positive .., rfl | .infinity .negative, .finite .negative .., rfl
  | .finite .negative .., .infinity .positive, rfl | .finite .negative .., .zero _, rfl
  | .finite .negative .., .finite .positive .., rfl | .zero _, .infinity .positive, rfl
  | .zero _, .finite .positive .., rfl | .finite .positive .., .infinity .positive, rfl =>
    toLex_lt_of_fst (by decide)

theorem placeOf_le_top : (u : UnpackedFloat) → placeOf u ≤ placeOf (.infinity .positive)
  | .infinity .positive => le_refl _
  | .finite .positive .. | .zero _ | .notANumber | .finite .negative .. | .infinity .negative =>
    le_of_lt (toLex_lt_of_fst (by decide))

theorem bottom_le_placeOf : (u : UnpackedFloat) → placeOf (.infinity .negative) ≤ placeOf u
  | .infinity .negative => le_refl _
  | .finite .positive .. | .zero _ | .notANumber | .finite .negative .. | .infinity .positive =>
    le_of_lt (toLex_lt_of_fst (by decide))

theorem compare_eq_none_iff {u v : UnpackedFloat} :
    u.compare v = none ↔ u.isNaN = true ∨ v.isNaN = true := by
  constructor
  · intro h
    unfold UnpackedFloat.compare at h
    split at h
    · exact .inl rfl
    · exact .inr rfl
    all_goals cases h
  · rintro (h | h)
    · cases u with
      | notANumber => cases v <;> rfl
      | _ => cases h
    · cases v with
      | notANumber => cases u <;> rfl
      | _ => cases h

/-! ## Comparing -/

section
variable {a b : Float}

theorem exists_compare (ha : a.isNaN = false) (hb : b.isNaN = false) :
    ∃ o, a.toModel.unpack.compare b.toModel.unpack = some o ∧ o.Compares (place a) (place b) := by
  cases h : a.toModel.unpack.compare b.toModel.unpack with
  | some o => exact ⟨o, rfl, compares_place h⟩
  | none =>
    rcases compare_eq_none_iff.1 h with h | h
    · cases ha.symm.trans h
    · cases hb.symm.trans h

theorem lt_iff_place (ha : a.isNaN = false) (hb : b.isNaN = false) : a < b ↔ place a < place b := by
  obtain ⟨o, ho, hplace⟩ := exists_compare ha hb
  change decide ((a.toModel.unpack.compare b.toModel.unpack == some .lt) = true) = true ↔ _
  rw [ho, ← hplace.eq_lt]
  simp

theorem le_iff_place (ha : a.isNaN = false) (hb : b.isNaN = false) : a ≤ b ↔ place a ≤ place b := by
  obtain ⟨o, ho, hplace⟩ := exists_compare ha hb
  change decide ((a.toModel.unpack.compare b.toModel.unpack).any (·.isLE) = true) = true ↔ _
  rw [ho, ← not_lt, ← hplace.eq_gt]
  cases o <;> simp

theorem beq_iff_place (ha : a.isNaN = false) (hb : b.isNaN = false) :
    (a == b) = true ↔ place a = place b := by
  obtain ⟨o, ho, hplace⟩ := exists_compare ha hb
  change (a.toModel.unpack.compare b.toModel.unpack == some .eq) = true ↔ _
  rw [ho, ← hplace.eq_eq]
  simp

theorem le_trans_of_number {c : Float} (ha : a.isNaN = false) (hb : b.isNaN = false)
    (hc : c.isNaN = false) (hab : a ≤ b) (hbc : b ≤ c) : a ≤ c :=
  (le_iff_place ha hc).2 (((le_iff_place ha hb).1 hab).trans ((le_iff_place hb hc).1 hbc))

theorem beq_of_le_of_le (ha : a.isNaN = false) (hb : b.isNaN = false) (hab : a ≤ b) (hba : b ≤ a) :
    (a == b) = true :=
  (beq_iff_place ha hb).2 (((le_iff_place ha hb).1 hab).antisymm ((le_iff_place hb ha).1 hba))

theorem le_of_not_lt (ha : a.isNaN = false) (hb : b.isNaN = false) (h : ¬ a < b) : b ≤ a :=
  (le_iff_place hb ha).2 (not_lt.1 (mt (lt_iff_place ha hb).2 h))

theorem le_of_lt_of_number (ha : a.isNaN = false) (hb : b.isNaN = false) (h : a < b) : a ≤ b :=
  (le_iff_place ha hb).2 ((lt_iff_place ha hb).1 h).le

theorem beq_of_isNaN (h : a.isNaN = true ∨ b.isNaN = true) : (a == b) = false := by
  change (a.toModel.unpack.compare b.toModel.unpack == some .eq) = false
  rw [compare_eq_none_iff.2 h]
  rfl

theorem place_le_top {y : Float} (h : a.toModel.unpack = .infinity .positive) :
    place y ≤ place a := by
  rw [place, place, h]
  exact placeOf_le_top _

theorem bottom_le_place {y : Float} (h : a.toModel.unpack = .infinity .negative) :
    place a ≤ place y := by
  rw [place, place, h]
  exact bottom_le_placeOf _

/-- Equality of floats is symmetric, although not every float equals itself. -/
theorem float_beq_comm (a b : Float) : (a == b) = (b == a) := by
  cases ha : a.isNaN with
  | true => rw [beq_of_isNaN (.inl ha), beq_of_isNaN (.inr ha)]
  | false =>
    cases hb : b.isNaN with
    | true => rw [beq_of_isNaN (.inr hb), beq_of_isNaN (.inl hb)]
    | false => rw [Bool.eq_iff_iff, beq_iff_place ha hb, beq_iff_place hb ha, eq_comm]

end

end ArrayGraph
