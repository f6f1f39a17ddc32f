import ArrayGraph.Proofs.Value.FloatOrder
import ArrayGraph.Statistic.Reducer
/-!
# Least and greatest floats

Two zeros are one number and some floats are none, so the least float of a sequence is told by
the numbers that lie below it (`Infimum`). To fold `leastFloat` from the greatest number
arrives there (`Picks.extreme_foldl`), and so does folding over the parts of a sequence and
then over what they gave (`Extreme.flatten`). The greatest float is the least in the opposite
order.
-/

namespace ArrayGraph

/-- A number that has below it what all numbers of the sequence have below them. -/
def Extreme (below : Float → Float → Prop) (xs : List Float) (x : Float) : Prop :=
  x.isNaN = false ∧ ∀ b, b.isNaN = false → (below b x ↔ ∀ y ∈ xs, y.isNaN = false → below b y)

/-- The greatest lower bound of the numbers in a sequence. -/
def Infimum : List Float → Float → Prop := Extreme (· ≤ ·)

/-- The least upper bound of the numbers in a sequence. -/
def Supremum : List Float → Float → Prop := Extreme (· ≥ ·)

/-- Picks of two numbers one that is below the other, and never what is no number, in an order
where every number is below the start. -/
structure Picks (below : Float → Float → Prop) (op : Float → Float → Float) (start : Float) :
    Prop where
  below_trans {a b c : Float} : a.isNaN = false → b.isNaN = false → c.isNaN = false →
    below a b → below b c → below a c
  below_antisymm {a b : Float} : a.isNaN = false → b.isNaN = false →
    below a b → below b a → (a == b) = true
  start_number : start.isNaN = false
  below_start {b : Float} : b.isNaN = false → below b start
  op_of_isNaN {a y : Float} : a.isNaN = false → y.isNaN = true → op a y = a
  op_of_number {a y : Float} : a.isNaN = false → y.isNaN = false →
    op a y = a ∧ below a y ∨ op a y = y ∧ below y a

section
variable {below : Float → Float → Prop} {op : Float → Float → Float} {start x y : Float}
  {xs ys : List Float}

theorem Picks.below_refl (h : Picks below op start) (hx : x.isNaN = false) : below x x := by
  rcases h.op_of_number hx hx with ⟨-, h⟩ | ⟨-, h⟩
  · exact h
  · exact h

/-- What is below the number picked is below both. -/
theorem Picks.below_op (h : Picks below op start) (hx : x.isNaN = false) :
    (op x y).isNaN = false ∧ ∀ b, b.isNaN = false →
      (below b (op x y) ↔ below b x ∧ (y.isNaN = false → below b y)) := by
  cases hy : y.isNaN with
  | true =>
    rw [h.op_of_isNaN hx hy]
    exact ⟨hx, fun b _ => by simp⟩
  | false =>
    rcases h.op_of_number hx hy with ⟨hop, hbelow⟩ | ⟨hop, hbelow⟩
    · rw [hop]
      exact ⟨hx, fun b hb => ⟨fun hbx => ⟨hbx, fun _ => h.below_trans hb hx hy hbx hbelow⟩,
        And.left⟩⟩
    · rw [hop]
      exact ⟨hy, fun b hb => ⟨fun hby => ⟨h.below_trans hb hy hx hby hbelow, fun _ => hby⟩,
        fun hboth => hboth.2 rfl⟩⟩

theorem Picks.below_foldl (h : Picks below op start) {acc : Float} (hacc : acc.isNaN = false)
    (xs : List Float) : (xs.foldl op acc).isNaN = false ∧ ∀ b, b.isNaN = false →
      (below b (xs.foldl op acc) ↔ below b acc ∧ ∀ y ∈ xs, y.isNaN = false → below b y) := by
  induction xs generalizing acc with
  | nil => exact ⟨hacc, fun b _ => by simp⟩
  | cons y xs ih =>
    obtain ⟨hnumber, hop⟩ := h.below_op (y := y) hacc
    obtain ⟨hfold, hbelow⟩ := ih hnumber
    refine ⟨hfold, fun b hb => ?_⟩
    rw [List.foldl_cons, hbelow b hb, hop b hb, List.forall_mem_cons, and_assoc]

theorem Picks.extreme_foldl (h : Picks below op start) (xs : List Float) :
    Extreme below xs (xs.foldl op start) := by
  obtain ⟨hnumber, hbelow⟩ := h.below_foldl h.start_number xs
  exact ⟨hnumber, fun b hb => by rw [hbelow b hb, and_iff_right (h.below_start hb)]⟩

theorem Picks.beq_of_extreme (h : Picks below op start) (hx : Extreme below xs x)
    (hy : Extreme below xs y) : (x == y) = true := by
  have hxy : below x y := (hy.2 x hx.1).2 ((hx.2 x hx.1).1 (h.below_refl hx.1))
  have hyx : below y x := (hx.2 y hy.1).2 ((hy.2 y hy.1).1 (h.below_refl hy.1))
  exact h.below_antisymm hx.1 hy.1 hxy hyx

theorem Extreme.perm (h : Extreme below xs x) (hperm : xs.Perm ys) : Extreme below ys x := by
  refine ⟨h.1, fun b hb => (h.2 b hb).trans ?_⟩
  simp only [hperm.mem_iff]

/-- What is extreme among the extremes of the parts is so in the whole. -/
theorem Extreme.flatten {g : List Float → Float} {xss : List (List Float)}
    (hparts : ∀ xs ∈ xss, Extreme below xs (g xs)) (h : Extreme below (xss.map g) x) :
    Extreme below xss.flatten x := by
  refine ⟨h.1, fun b hb => (h.2 b hb).trans ?_⟩
  rw [List.forall_mem_map]
  constructor
  · intro hall y hy
    obtain ⟨xs, hxs, hmem⟩ := List.mem_flatten.1 hy
    have hpart := hparts xs hxs
    exact (hpart.2 b hb).1 (hall xs hxs hpart.1) y hmem
  · intro hall xs hxs _
    exact ((hparts xs hxs).2 b hb).2 fun y hy => hall y (List.mem_flatten.2 ⟨xs, hxs, hy⟩)

end

theorem picks_leastFloat : Picks (· ≤ ·) leastFloat RealScalar.top where
  below_trans := le_trans_of_number
  below_antisymm := beq_of_le_of_le
  start_number := rfl
  below_start hb := (le_iff_place hb rfl).2 (place_le_top rfl)
  op_of_isNaN ha hy := by simp only [leastFloat, ha, hy, Bool.false_eq_true, if_false, if_true]
  op_of_number ha hy := by
    simp only [leastFloat, ha, hy, Bool.false_eq_true, if_false]
    split
    · next h => exact .inr ⟨rfl, le_of_lt_of_number hy ha h⟩
    · next h => exact .inl ⟨rfl, le_of_not_lt hy ha h⟩

theorem picks_greatestFloat : Picks (· ≥ ·) greatestFloat RealScalar.bottom where
  below_trans ha hb hc hab hbc := le_trans_of_number hc hb ha hbc hab
  below_antisymm ha hb hab hba := beq_of_le_of_le ha hb hba hab
  start_number := rfl
  below_start hb := (le_iff_place rfl hb).2 (bottom_le_place rfl)
  op_of_isNaN ha hy := by simp only [greatestFloat, ha, hy, Bool.false_eq_true, if_false, if_true]
  op_of_number ha hy := by
    simp only [greatestFloat, ha, hy, Bool.false_eq_true, if_false]
    split
    · next h => exact .inr ⟨rfl, le_of_lt_of_number ha hy h⟩
    · next h => exact .inl ⟨rfl, le_of_not_lt ha hy h⟩

end ArrayGraph
