import ArrayGraph.Evaluation.Job
import ArrayGraph.Proofs.Value.FloatOrder
import ArrayGraph.Proofs.Value.Pairing
/-!
# Comparisons turned round

To exchange the operands of a comparison is to turn its operator round
(`Pair.compare_swap`), for broadcasting treats both sides alike: it is the same table of
shapes and the same element at each index, and only the words of an error differ
(`broadcast_swap`). Inequality is the negation of equality element by element, and where no
element is a float "at least" is that of "less" (`comparison_duality`).
-/

namespace ArrayGraph

/-! ## Operators -/

namespace CompareOp

/-- The operator for the operands in the other order. -/
def converse : CompareOp → CompareOp
  | greater => less
  | greaterEqual => lessEqual
  | less => greater
  | lessEqual => greaterEqual
  | equal => equal
  | notEqual => notEqual

/-- Of any two elements one operator holds if the other does not. -/
def Opposes (α : Type) [LT α] [DecidableLT α] [LE α] [DecidableLE α] [BEq α]
    (op op' : CompareOp) : Prop :=
  ∀ a b : α, op'.apply a b = !op.apply a b

section
variable {α : Type} [LT α] [DecidableLT α] [LE α] [DecidableLE α] [BEq α]

theorem apply_converse (hcomm : ∀ x y : α, (x == y) = (y == x)) (op : CompareOp) (a b : α) :
    op.converse.apply b a = op.apply a b := by
  cases op with
  | greater | greaterEqual | less | lessEqual => rfl
  | equal => exact hcomm b a
  | notEqual => exact congrArg (!·) (hcomm b a)

theorem equal_opposes : Opposes α equal notEqual := fun _ _ => rfl

theorem less_opposes (h : ∀ a b : α, b ≤ a ↔ ¬ a < b) : Opposes α less greaterEqual := by
  intro a b
  simp only [apply, h, decide_not]

end

end CompareOp

/-! ## Exchanged operands -/

namespace Pair

def swap : Pair → Pair
  | texts s t => texts t s
  | ints s t => ints t s
  | floats s t => floats t s
  | unrelated lhs rhs => unrelated rhs lhs

theorem answers_swap {α : Type} {f g : α → α → Bool} (h : ∀ a b, g b a = f a b) (s t : Tensor α) :
    Answers Eq (((s.broadcast f t).map .ofBools).mapError .unmatched)
      (((t.broadcast g s).map .ofBools).mapError .unmatched) := by
  have hg : g = fun b a => f a b := funext fun b => funext fun a => h a b
  rw [hg, Tensor.broadcast_swap f s t]
  cases s.broadcast f t with
  | ok u => exact .ok rfl
  | error m => exact .error m.kind_swap.symm

theorem compare_swap (op : CompareOp) (p : Pair) :
    Answers Eq (p.compare op) (p.swap.compare op.converse) := by
  cases p with
  | texts s t =>
    rw [compare, swap, compare, CompareOp.apply_converse fun _ _ => BEq.comm]
    exact .ok rfl
  | ints s t => exact answers_swap (CompareOp.apply_converse (fun _ _ => BEq.comm) op) s t
  | floats s t => exact answers_swap (CompareOp.apply_converse float_beq_comm op) s t
  | unrelated lhs rhs => exact .error rfl

end Pair

theorem Value.pair_swap (a b : Value) : b.pair a = (a.pair b).swap := by
  simp only [pair, pairNumbers]
  cases a.asText? <;> cases b.asText? <;> cases a.toInts? <;> cases b.toInts? <;>
    cases a.toNumeric? <;> cases b.toNumeric? <;> rfl

/-! ## Negated elements -/

/-- Truth values of one shape, each the negation of the other at its index. -/
def Negates (v w : Value) : Prop := ∃ t : Tensor Bool, v = .ofBools t ∧ w = .ofBools (t.map (!·))

theorem answers_negated {α : Type} {f g : α → α → Bool} (h : ∀ a b, g a b = !f a b)
    (s t : Tensor α) :
    Answers Negates (((s.broadcast f t).map .ofBools).mapError .unmatched)
      (((s.broadcast g t).map .ofBools).mapError .unmatched) := by
  have hg : g = fun a b => !f a b := funext fun a => funext fun b => h a b
  rw [hg, Tensor.broadcast_then (!·)]
  cases s.broadcast f t with
  | ok u => exact .ok ⟨u, rfl, rfl⟩
  | error m => exact .error rfl

theorem negates_bool (b : Bool) : Negates (.bool b) (.bool !b) :=
  ⟨.scalar b, rfl, by rw [Tensor.map_scalar]; rfl⟩

open CompareOp in
theorem Pair.texts_negated {op op' : CompareOp} (h : Opposes String op op') (s t : String) :
    Answers Negates ((texts s t).compare op) ((texts s t).compare op') := by
  rw [compare, compare, h]
  exact .ok (negates_bool _)

open CompareOp in
theorem Pair.compare_negated (p : Pair) :
    Answers Negates (p.compare .equal) (p.compare .notEqual) := by
  cases p with
  | texts s t => exact texts_negated equal_opposes s t
  | ints s t => exact answers_negated equal_opposes s t
  | floats s t => exact answers_negated equal_opposes s t
  | unrelated lhs rhs => exact .error rfl

/-! ## Values without floats -/

namespace Value

/-- A float or an array of floats. -/
def HoldsFloats : Value → Prop
  | float _ | array (.float _) => True
  | _ => False

theorem toNumeric?_of_not_exact {v : Value} (hv : ¬ v.HoldsFloats) (hx : v.asExact? = none) :
    v.toNumeric? = none := by
  cases v with
  | array a =>
    cases a with
    | float t => exact absurd trivial hv
    | int | bool => cases hx
  | float x => exact absurd trivial hv
  | bool | int => cases hx
  | empty | str | list | node => rfl

theorem pair_floats {a b : Value} {s t : Tensor Float} (h : a.pair b = .floats s t) :
    a.toNumeric? = some s ∧ b.toNumeric? = some t := by
  unfold pair pairNumbers at h
  split at h
  · cases h
  · split at h
    · cases h
    · split at h
      · next hs ht =>
        cases h
        exact ⟨hs, ht⟩
      · cases h

/-- Elements that are no floats are ordered, even those that are compared as floats. -/
theorem compare_negated_of_exact {a b : Value} (ha : ¬ a.HoldsFloats) (hb : ¬ b.HoldsFloats) :
    Answers Negates (a.compare .less b) (a.compare .greaterEqual b) := by
  by_cases hfloats : ∃ s t, a.pair b = .floats s t
  · obtain ⟨s, t, h⟩ := hfloats
    obtain ⟨hs, ht⟩ := pair_floats h
    obtain ⟨x, hx⟩ : ∃ x, a.asExact? = some x := by
      refine Option.ne_none_iff_exists'.1 fun hx => ?_
      cases hs.symm.trans (toNumeric?_of_not_exact ha hx)
    obtain ⟨y, hy⟩ : ∃ y, b.asExact? = some y := by
      refine Option.ne_none_iff_exists'.1 fun hy => ?_
      cases ht.symm.trans (toNumeric?_of_not_exact hb hy)
    rw [compare_of_exact _ hx hy, compare_of_exact _ hx hy, Exact.compare_eq, Exact.compare_eq]
    exact answers_negated (CompareOp.less_opposes fun _ _ => not_lt.symm) x.integers y.integers
  · have htexts : CompareOp.Opposes String .less .greaterEqual :=
      CompareOp.less_opposes fun _ _ => not_lt.symm
    have hints : CompareOp.Opposes Int64 .less .greaterEqual :=
      CompareOp.less_opposes fun _ _ => Int64.not_lt.symm
    rw [compare_eq_pair, compare_eq_pair]
    cases hp : a.pair b with
    | texts s t => exact Pair.texts_negated htexts s t
    | ints s t => exact answers_negated hints s t
    | floats s t => exact absurd ⟨s, t, hp⟩ hfloats
    | unrelated lhs rhs => exact .error rfl

end Value

/-! ## Main statement -/

/-- Outcomes of one site that correspond: values that are related, or errors of one kind that
were raised there. -/
inductive Corresponds (site : Site) (R : Value → Value → Prop) : Outcome → Outcome → Prop
  | ok {v w : Value} (h : R v w) : Corresponds site R (.ok v) (.ok w)
  | fail {c d : Cause} (h : c.kind = d.kind) : Corresponds site R (.fail site c) (.fail site d)

theorem Answers.ofKernel {R : Value → Value → Prop} {r r' : Except Cause Value}
    (h : Answers R r r') (site : Site) :
    Corresponds site R (.ofKernel site r) (.ofKernel site r') := by
  cases h with
  | ok h => exact .ok h
  | error h => exact .fail h

/-- Whatever is compared, the operands in the other order give the same truth values under the
converse operator, and inequality gives the negations of those of equality. Without floats
"at least" gives the negations of those of "less". Where one side fails, so does the other,
at the same site with an error of the same kind. -/
theorem comparison_duality (site : Site) (a b : Value) :
    (∀ op : CompareOp, Corresponds site Eq (.ofKernel site (a.compare op b))
      (.ofKernel site (b.compare op.converse a))) ∧
    Corresponds site Negates (.ofKernel site (a.compare .equal b))
      (.ofKernel site (a.compare .notEqual b)) ∧
    (¬ a.HoldsFloats → ¬ b.HoldsFloats →
      Corresponds site Negates (.ofKernel site (a.compare .less b))
        (.ofKernel site (a.compare .greaterEqual b))) := by
  refine ⟨fun op => ?_, ?_, fun ha hb => ?_⟩
  · rw [Value.compare_eq_pair, Value.compare_eq_pair, Value.pair_swap a b]
    exact ((a.pair b).compare_swap op).ofKernel site
  · rw [Value.compare_eq_pair, Value.compare_eq_pair]
    exact (a.pair b).compare_negated.ofKernel site
  · exact (Value.compare_negated_of_exact ha hb).ofKernel site

/-- Truth values in two rows against a row of integers, none of them floats. -/
theorem flags_duality :
    ¬ Value.flags.HoldsFloats ∧ ¬ Value.neighbours.HoldsFloats ∧
    Corresponds ⟨"ge", "flags"⟩ Negates
      (.ofKernel ⟨"ge", "flags"⟩ (Value.flags.compare .less Value.neighbours))
      (.ofKernel ⟨"ge", "flags"⟩ (Value.flags.compare .greaterEqual Value.neighbours)) ∧
    Corresponds ⟨"ge", "flags"⟩ Eq
      (.ofKernel ⟨"ge", "flags"⟩ (Value.flags.compare .greaterEqual Value.neighbours))
      (.ofKernel ⟨"ge", "flags"⟩ (Value.neighbours.compare .lessEqual Value.flags)) := by
  obtain ⟨hconverse, -, hopposite⟩ :=
    comparison_duality ⟨"ge", "flags"⟩ Value.flags Value.neighbours
  exact ⟨id, id, hopposite id id, hconverse .greaterEqual⟩

end ArrayGraph
