import ArrayGraph.Value
import ArrayGraph.Operator
import Mathlib
/-!
# Integers as floats

What becomes of a machine integer that is compared as a float. The conversion rounds to a
mantissa of 53 bits, so great integers fall together, but it keeps the exponent: an integer
of two or more bits has an exponent above those of zero and one (`unpack_floatOfInt`). So no
rounding makes an integer equal to zero or one or takes it to their other side, and against
a truth value every comparison comes out as that of the integers (`apply_floatOfInt_bool`).
-/

namespace ArrayGraph

open Float.Model Float.Model.UnpackedFloat

/-! ## Shifts -/

theorem shiftRight_mantissa (em : ExtendedMantissa) (k : Nat) :
    (em >>> k).mantissa = em.mantissa / 2 ^ k := by
  induction k with
  | zero => simp [HShiftRight.hShiftRight, Nat.repeat]
  | succ k ih =>
    change (em >>> k).mantissa / 2 = _
    rw [ih, Nat.div_div_eq_div_mul, Nat.pow_succ]

theorem mantissa_of_accuracy (m : Nat) (a : Accuracy) :
    (ExtendedMantissa.ofMantissaAndAccuracy m a).mantissa = m := by
  unfold ExtendedMantissa.ofMantissaAndAccuracy
  split <;> rfl

theorem le_roundedMantissa (em : ExtendedMantissa) :
    em.mantissa ≤ em.roundedMantissa ∧ em.roundedMantissa ≤ em.mantissa + 1 := by
  unfold ExtendedMantissa.roundedMantissa Accuracy.roundToNearestEven
  split <;> omega

/-- A mantissa of 53 bits or more is cut down to 53, and the exponent goes up with it. -/
theorem shiftToTarget_great {m : Nat} {e : Int} (hm : 2 ^ 52 ≤ m) (he : -1000 ≤ e) (a : Accuracy) :
    ∃ em, shiftToTargetExponent .binary64 m e a = (em, e + (m.log2 - 52 : Nat)) ∧
      em.mantissa.log2 = 52 := by
  have hne : m ≠ 0 := by omega
  have hlog : 52 ≤ m.log2 := (Nat.le_log2 hne).2 hm
  have htarget : Format.binary64.targetExponent (totalExponent m e) = e + (m.log2 - 52 : Nat) := by
    simp only [Format.targetExponent, totalExponent, Format.mantissaBits, Format.minExponent]
    norm_num
    omega
  have hamount : (e + (m.log2 - 52 : Nat) - e).toNat = m.log2 - 52 := by omega
  refine ⟨_, by simp only [shiftToTargetExponent, shiftToExponent, htarget, hamount]; rfl, ?_⟩
  rw [shiftRight_mantissa, mantissa_of_accuracy]
  have hpow : ∀ k, 2 ^ k * 2 ^ (m.log2 - 52) = 2 ^ (k + (m.log2 - 52)) :=
    fun k => (Nat.pow_add ..).symm
  have hlower : 2 ^ 52 ≤ m / 2 ^ (m.log2 - 52) := by
    rw [Nat.le_div_iff_mul_le (Nat.two_pow_pos _), hpow, Nat.add_sub_cancel' hlog]
    exact Nat.log2_self_le hne
  have hupper : m / 2 ^ (m.log2 - 52) < 2 ^ 53 := by
    rw [Nat.div_lt_iff_lt_mul (Nat.two_pow_pos _), hpow,
      show 53 + (m.log2 - 52) = m.log2 + 1 by omega]
    exact Nat.lt_log2_self
  exact (Nat.log2_eq_iff (by omega)).2 ⟨hlower, hupper⟩

/-! ## Rounding -/

theorem roundWithAccuracy_great (sign : Sign) {m : Nat} {e : Int} (hm : 2 ^ 52 ≤ m)
    (he : -1000 ≤ e) :
    ∃ m' e' h, roundWithAccuracy .binary64 sign m e .exact = .finite sign m' e' h ∧
      m'.log2 = 52 ∧ e ≤ e' ∧ e' ≤ e + (m.log2 - 52 : Nat) + 1 := by
  obtain ⟨em, hshift, hlog⟩ := shiftToTarget_great hm he .exact
  obtain ⟨hlow, hhigh⟩ := le_roundedMantissa em
  have hbounds := (Nat.log2_eq_iff (n := em.mantissa) (by rintro h; simp [h] at hlog)).1 hlog
  -- rounding up may take one bit more, which the second shift cuts off
  have hlog' : em.roundedMantissa.log2 < 54 := (Nat.log2_lt (by omega)).2 (by omega)
  obtain ⟨em', hshift', hmantissa⟩ :=
    shiftToTarget_great (m := em.roundedMantissa) (e := e + (m.log2 - 52 : Nat)) (by omega)
      (by omega) .exact
  have hne : em'.mantissa ≠ 0 := by
    intro h
    simp [h] at hmantissa
  refine ⟨em'.mantissa, e + (m.log2 - 52 : Nat) + (em.roundedMantissa.log2 - 52 : Nat),
    Nat.pos_of_ne_zero hne, ?_, hmantissa, by omega, by omega⟩
  simp only [roundWithAccuracy, hshift, hshift', dif_neg hne]

/-- The exponent of an integer of two or more bits that is rounded. -/
theorem round_integer (sign : Sign) {n : Nat} (hn : 2 ≤ n) (hn' : n < 2 ^ 64) :
    ∃ m e h, UnpackedFloat.round .binary64 sign n 0 = .finite sign m e h ∧ m.log2 = 52 ∧
      -51 ≤ e ∧ e ≤ 12 := by
  have hne : n ≠ 0 := by omega
  have hlog : 1 ≤ n.log2 := (Nat.le_log2 hne).2 (by omega)
  have hlog' : n.log2 < 64 := (Nat.log2_lt hne).2 hn'
  have htarget : Format.binary64.targetExponent (totalExponent n 0) = (n.log2 : Int) - 52 := by
    simp only [Format.targetExponent, totalExponent, Format.mantissaBits, Format.minExponent]
    norm_num
    omega
  have hshift : decreaseExponent n 0 ((n.log2 : Int) - 52) =
      (n <<< (52 - n.log2), -((52 - n.log2 : Nat) : Int)) := by
    have hamount : (0 - ((n.log2 : Int) - 52)).toNat = 52 - n.log2 := by omega
    rw [decreaseExponent, hamount, Int.zero_sub]
  -- the bits of the mantissa are those of `n`, or as many as a mantissa has if `n` has fewer
  have hm : 2 ^ 52 ≤ n <<< (52 - n.log2) := by
    rw [Nat.shiftLeft_eq]
    calc 2 ^ 52 ≤ 2 ^ (n.log2 + (52 - n.log2)) := Nat.pow_le_pow_right (by decide) (by omega)
      _ = 2 ^ n.log2 * 2 ^ (52 - n.log2) := Nat.pow_add ..
      _ ≤ n * 2 ^ (52 - n.log2) := Nat.mul_le_mul_right _ (Nat.log2_self_le hne)
  have hmlog : (n <<< (52 - n.log2)).log2 < 64 := by
    rw [Nat.log2_lt (by omega), Nat.shiftLeft_eq]
    calc n * 2 ^ (52 - n.log2) < 2 ^ (n.log2 + 1) * 2 ^ (52 - n.log2) :=
          Nat.mul_lt_mul_of_pos_right Nat.lt_log2_self (Nat.two_pow_pos _)
      _ = 2 ^ (n.log2 + 1 + (52 - n.log2)) := (Nat.pow_add ..).symm
      _ ≤ 2 ^ 64 := Nat.pow_le_pow_right (by decide) (by omega)
  obtain ⟨m, e, h, hround, hmantissa, hlow, hhigh⟩ :=
    roundWithAccuracy_great sign hm (e := -((52 - n.log2 : Nat) : Int)) (by omega)
  refine ⟨m, e, h, ?_, hmantissa, by omega, by omega⟩
  simp only [UnpackedFloat.round, htarget, hshift]
  exact hround

/-! ## Packing -/

/-- Packing loses nothing of a float with a mantissa of 53 bits. -/
theorem unpack_pack (sign : Sign) {m : Nat} {e : Int} (h : 0 < m) (hm : m.log2 = 52)
    (he : -1000 ≤ e) (he' : e ≤ 900) :
    (pack (.finite sign m e h)).unpack = .finite sign m e h := by
  obtain ⟨b, hb⟩ : ∃ b : Nat, (b : Int) = e + 1075 := ⟨(e + 1075).toNat, by omega⟩
  have hbiased : (e + Format.binary64.exponentBias +
      Format.binary64.mantissaBitsWithoutImplicit).toNat = b := by
    simp only [Format.exponentBias]
    omega
  have hpack : UnpackedFloat.pack .binary64 (.finite sign m e h) =
      packComponents .binary64 sign (.ofNat 11 b) (.ofNat 52 m) := by
    simp only [UnpackedFloat.pack, hbiased]
    rw [if_neg (by omega), if_pos (by rw [hm]; rfl)]
  have hexponent : (BitVec.ofNat 11 b).toNat = b :=
    BitVec.toNat_ofNat .. ▸ Nat.mod_eq_of_lt (by omega)
  have hnormal : ∀ v : BitVec 11, v.toNat ≠ b → BitVec.ofNat 11 b ≠ v := by
    rintro _ hv rfl
    exact hv hexponent
  have hunpack : (pack (.finite sign m e h)).unpack = unpack .binary64
      (packComponents .binary64 sign (.ofNat 11 b) (.ofNat 52 m)) := by
    rw [← hpack]
    rfl
  rw [hunpack, UnpackedFloat.unpack]
  simp only [unpackMantissa_packComponents, unpackExponent_packComponents,
    unpackSign_packComponents, Sign.ofBitVec_toBitVec]
  have hones : (-1#11).toNat = 2047 := rfl
  rw [if_neg (hnormal (-1#11) (by omega)), if_neg (hnormal 0#11 (by simp; omega))]
  have he : (b : Int) -
      (Format.binary64.exponentBias + Format.binary64.mantissaBitsWithoutImplicit) = e := by
    simp only [Format.exponentBias]
    omega
  have hmantissa : (1#1 ++ BitVec.ofNat 52 m).toNat = m := by
    obtain ⟨hlow, hhigh⟩ := (Nat.log2_eq_iff (Nat.ne_of_gt h)).1 hm
    rw [BitVec.toNat_append, ← Nat.shiftLeft_add_eq_or_of_lt (BitVec.isLt _), BitVec.toNat_ofNat,
      BitVec.toNat_ofNat, Nat.shiftLeft_eq]
    omega
  simp only [hexponent, he, hmantissa]

/-! ## The conversion -/

theorem floatOfBool_eq (b : Bool) : floatOfBool b = floatOfInt (if b then 1 else 0) := by
  cases b <;> decide

/-- An integer of two or more bits keeps its sign, and its exponent is above that of one. -/
theorem unpack_floatOfInt {i : Int64} (hi : 2 ≤ i.toInt.natAbs) :
    ∃ m e h, (floatOfInt i).toModel.unpack =
      .finite (if i.toInt < 0 then .negative else .positive) m e h ∧ -51 ≤ e := by
  have hlow := i.le_toInt
  have hhigh := i.toInt_lt
  have hunpack : (floatOfInt i).toModel.unpack =
      (pack (UnpackedFloat.normalize .binary64 i.toInt 0 .positive)).unpack := rfl
  rw [hunpack]
  by_cases hneg : i.toInt < 0
  · obtain ⟨m, e, h, hround, hm, he, he'⟩ :=
      round_integer .negative (n := (-i.toInt).toNat) (by omega) (by omega)
    rw [if_pos hneg, UnpackedFloat.normalize, Int.compare_eq_lt.2 hneg]
    dsimp only
    rw [hround, unpack_pack _ h hm (by omega) (by omega)]
    exact ⟨m, e, h, rfl, he⟩
  · obtain ⟨m, e, h, hround, hm, he, he'⟩ :=
      round_integer .positive (n := i.toInt.toNat) (by omega) (by omega)
    rw [if_neg hneg, UnpackedFloat.normalize, Int.compare_eq_gt.2 (by omega)]
    dsimp only
    rw [hround, unpack_pack _ h hm (by omega) (by omega)]
    exact ⟨m, e, h, rfl, he⟩

/-! ## Comparisons -/

/-- Two floats that compare as two integers do, from either side. -/
structure ComparesAs (a b : Float) (x y : Int) : Prop where
  forward : a.toModel.unpack.compare b.toModel.unpack = some (compare x y)
  backward : b.toModel.unpack.compare a.toModel.unpack = some (compare y x)

theorem ComparesAs.symm {a b : Float} {x y : Int} (h : ComparesAs a b x y) : ComparesAs b a y x :=
  ⟨h.backward, h.forward⟩

theorem ComparesAs.lt {a b : Float} {x y : Int} (h : ComparesAs a b x y) : a < b ↔ x < y := by
  change decide ((a.toModel.unpack.compare b.toModel.unpack == some .lt) = true) = true ↔ _
  rw [h.forward]
  simp [Int.compare_eq_lt]

theorem ComparesAs.le {a b : Float} {x y : Int} (h : ComparesAs a b x y) : a ≤ b ↔ x ≤ y := by
  change decide ((a.toModel.unpack.compare b.toModel.unpack).any (·.isLE) = true) = true ↔ _
  rw [h.forward]
  simp [Int.isLE_compare]

theorem ComparesAs.beq {a b : Float} {x y : Int} (h : ComparesAs a b x y) :
    (a == b) = (x == y) := by
  change (a.toModel.unpack.compare b.toModel.unpack == some .eq) = _
  rw [h.forward, Bool.eq_iff_iff]
  simp

theorem ComparesAs.apply {a b : Float} {x y : Int} (h : ComparesAs a b x y) (op : CompareOp) :
    op.apply a b = op.apply x y := by
  cases op with
  | greater => exact decide_eq_decide.2 h.symm.lt
  | greaterEqual => exact decide_eq_decide.2 h.symm.le
  | less => exact decide_eq_decide.2 h.lt
  | lessEqual => exact decide_eq_decide.2 h.le
  | equal => exact h.beq
  | notEqual => exact congrArg (!·) h.beq

theorem unpack_floatOfBool (b : Bool) : (floatOfBool b).toModel.unpack =
    if b then .finite .positive (2 ^ 52) (-52) (by decide) else .zero .positive := by
  cases b <;> rfl

/-- Against a truth value an integer compares as a float as it does as an integer. -/
theorem integer_comparesAs_bit (i : Int64) (b : Bool) :
    ComparesAs (floatOfInt i) (floatOfBool b) i.toInt b.toInt := by
  have hb : 0 ≤ b.toInt ∧ b.toInt ≤ 1 := by cases b <;> decide
  by_cases hi : 2 ≤ i.toInt.natAbs
  · obtain ⟨m, e, h, hunpack, he⟩ := unpack_floatOfInt hi
    by_cases hneg : i.toInt < 0
    · rw [if_pos hneg] at hunpack
      have hlt : compare i.toInt b.toInt = .lt := Int.compare_eq_lt.2 (by omega)
      have hgt : compare b.toInt i.toInt = .gt := Int.compare_eq_gt.2 (by omega)
      constructor
      · rw [hunpack, unpack_floatOfBool, hlt]
        cases b <;> rfl
      · rw [hunpack, unpack_floatOfBool, hgt]
        cases b <;> rfl
    · rw [if_neg hneg] at hunpack
      have hgt : compare i.toInt b.toInt = .gt := Int.compare_eq_gt.2 (by omega)
      have hlt : compare b.toInt i.toInt = .lt := Int.compare_eq_lt.2 (by omega)
      -- the exponent alone decides against one
      have hgt' : compare e (-52) = .gt := Int.compare_eq_gt.2 (by omega)
      have hlt' : compare (-52) e = .lt := Int.compare_eq_lt.2 (by omega)
      constructor
      · rw [hunpack, unpack_floatOfBool, hgt]
        cases b with
        | false => rfl
        | true => exact congrArg (fun o => some (o.then (compare m (2 ^ 52)))) hgt'
      · rw [hunpack, unpack_floatOfBool, hlt]
        cases b with
        | false => rfl
        | true => exact congrArg (fun o => some (o.then (compare (2 ^ 52) m))) hlt'
  · have hcases : i.toInt = (-1 : Int64).toInt ∨ i.toInt = (0 : Int64).toInt ∨
        i.toInt = (1 : Int64).toInt := by
      simp only [Int64.reduceToInt]
      omega
    simp only [Int64.toInt_inj] at hcases
    obtain rfl | rfl | rfl := hcases
    all_goals cases b <;> exact ⟨by decide, by decide⟩

theorem apply_floatOfInt_bool (op : CompareOp) (i : Int64) (b : Bool) :
    op.apply (floatOfInt i) (floatOfBool b) = op.apply i.toInt b.toInt :=
  (integer_comparesAs_bit i b).apply op

theorem apply_bool_floatOfInt (op : CompareOp) (b : Bool) (i : Int64) :
    op.apply (floatOfBool b) (floatOfInt i) = op.apply b.toInt i.toInt :=
  (integer_comparesAs_bit i b).symm.apply op

theorem apply_bools (op : CompareOp) (b b' : Bool) :
    op.apply (floatOfBool b) (floatOfBool b') = op.apply b.toInt b'.toInt := by
  rw [floatOfBool_eq b, apply_floatOfInt_bool]
  cases b <;> rfl

end ArrayGraph
