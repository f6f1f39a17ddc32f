import ArrayGraph.Proofs.Value.Comparison
/-!
# What a comparison reads

Two values are compared as texts, as integers or as floats, or they don't compare at all:
`Value.pair` says which, from the views of the two, and the comparison is that of the pair
(`compare_eq_pair`). `Answers` relates the answers of two kernels whose errors may be worded
differently.
-/

namespace ArrayGraph

/-! ## Answers -/

/-- Answers that correspond: values that are related, or causes of one kind. -/
inductive Answers (R : Value → Value → Prop) : Except Cause Value → Except Cause Value → Prop
  | ok {v w : Value} (h : R v w) : Answers R (.ok v) (.ok w)
  | error {c d : Cause} (h : c.kind = d.kind) : Answers R (.error c) (.error d)

theorem answers_refl (r : Except Cause Value) : Answers Eq r r := by
  cases r with
  | ok v => exact .ok rfl
  | error c => exact .error rfl

/-! ## Pairs -/

/-- What a comparison reads of two values. -/
inductive Pair
  | texts (s t : String)
  | ints (s t : Tensor Int64)
  | floats (s t : Tensor Float)
  /-- Values of these kinds don't compare. -/
  | unrelated (lhs rhs : Kind)

/-- The comparison of what was read. -/
def Pair.compare (op : CompareOp) : Pair → Except Cause Value
  | texts s t => .ok (.bool (op.apply s t))
  | ints s t => ((s.broadcast op.apply t).map .ofBools).mapError .unmatched
  | floats s t => ((s.broadcast op.apply t).map .ofBools).mapError .unmatched
  | unrelated lhs rhs => .error (.unrelatedKinds op.symbol lhs rhs)

namespace Value

/-- The numbers of two values, as integers if both have integers only. -/
def pairNumbers (a b : Value) : Pair :=
  match a.toInts?, b.toInts? with
  | some s, some t => .ints s t
  | _, _ =>
    match a.toNumeric?, b.toNumeric? with
    | some s, some t => .floats s t
    | _, _ => .unrelated a.kind b.kind

def pair (a b : Value) : Pair :=
  match a.asText?, b.asText? with
  | some s, some t => .texts s t
  | _, _ => a.pairNumbers b

theorem asText?_eq_some {a : Value} {s : String} : a.asText? = some s ↔ a = .str s := by
  cases a <;> simp [asText?]

theorem pair_of_not_texts {a b : Value} (h : ∀ s t, a = .str s → b = .str t → False) :
    a.pair b = a.pairNumbers b := by
  unfold pair
  split
  · next s t hs ht => exact (h s t (asText?_eq_some.1 hs) (asText?_eq_some.1 ht)).elim
  · rfl

/-- Two integers make no exception, for an integer is an array of rank 0. -/
theorem compare_eq_pair (op : CompareOp) (a b : Value) :
    a.compare op b = (a.pair b).compare op := by
  unfold compare
  split
  · rfl
  · simp only [pair, asText?, pairNumbers, toInts?, Pair.compare, Tensor.broadcast_scalar]
    rfl
  · next htexts _ =>
    rw [pair_of_not_texts htexts, pairNumbers]
    cases a.toInts? <;> cases b.toInts? <;> cases a.toNumeric? <;> cases b.toNumeric? <;> rfl

end Value

end ArrayGraph
