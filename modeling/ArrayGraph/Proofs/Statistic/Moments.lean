import ArrayGraph.Statistic.Reducer
import Mathlib.Algebra.BigOperators.Group.Multiset.Basic
import Mathlib.Algebra.Field.Rat
import Mathlib.Algebra.Order.BigOperators.Group.Multiset
import Mathlib.Algebra.Order.Ring.Rat
import Mathlib.Logic.Function.Basic
import Mathlib.Tactic.FieldSimp
import Mathlib.Tactic.LinearCombination
import Mathlib.Tactic.NormNum
import Mathlib.Tactic.Positivity
import Mathlib.Tactic.Ring
/-!
# Exact moments

Over exact numbers the running moments of `Welford` are no approximation:
`Welford.ofMultiset` is the state that the numbers taken in determine, by their count,
their mean and the sum of their squared deviations from it. To push a number is to add
it to the multiset (`push_ofMultiset`), to merge two states is to add their multisets
(`merge_ofMultiset`). Registers that are pushed to, merged and reset in any order stay
summaries of what they hold, and that makes merging commutative and associative:
`registers_summarize`.
-/

namespace ArrayGraph

/-- Exact arithmetic. -/
instance : Scalar ℚ where
  zero := 0
  one := 1
  ofCount n := n

/-! ## Exact statistics -/

/-- The arithmetic mean, zero of nothing. -/
def average (s : Multiset ℚ) : ℚ := s.sum / s.card

/-- The sum of the squared deviations from a number. -/
def squaredDeviations (s : Multiset ℚ) (c : ℚ) : ℚ := (s.map fun x => (x - c) ^ 2).sum

/-- The variance of a whole population, from the mean in a second pass. -/
def populationVariance (s : Multiset ℚ) : ℚ := squaredDeviations s (average s) / s.card

theorem card_mul_average (s : Multiset ℚ) : s.card * average s = s.sum := by
  rcases s.empty_or_exists_mem with rfl | ⟨x, hx⟩
  · simp
  · have hcard : (s.card : ℚ) ≠ 0 := by
      have := Multiset.card_pos_iff_exists_mem.2 ⟨x, hx⟩
      positivity
    exact mul_div_cancel₀ _ hcard

theorem squaredDeviations_eq (s : Multiset ℚ) (c : ℚ) :
    squaredDeviations s c = (s.map (· ^ 2)).sum - 2 * c * s.sum + s.card * c ^ 2 := by
  induction s using Multiset.induction with
  | empty => simp [squaredDeviations]
  | cons x s ih =>
    simp only [squaredDeviations, Multiset.map_cons, Multiset.sum_cons, Multiset.card_cons] at ih ⊢
    push_cast
    linear_combination ih

/-- About the mean the cross term cancels half of itself. -/
theorem squaredDeviations_average (s : Multiset ℚ) :
    squaredDeviations s (average s) = (s.map (· ^ 2)).sum - s.card * average s ^ 2 := by
  rw [squaredDeviations_eq]
  linear_combination 2 * average s * card_mul_average s

theorem squaredDeviations_nonneg (s : Multiset ℚ) (c : ℚ) : 0 ≤ squaredDeviations s c := by
  refine Multiset.sum_nonneg fun y hy => ?_
  obtain ⟨x, -, rfl⟩ := Multiset.mem_map.1 hy
  positivity

namespace Welford

/-! ## Summaries -/

/-- The state that has taken in these numbers. -/
def ofMultiset (s : Multiset ℚ) : Welford ℚ := ⟨s.card, average s, squaredDeviations s (average s)⟩

/-- A state is the summary of the numbers if it has their count, if its mean adds up to
their sum, and if it has the deviations from that mean. -/
theorem eq_ofMultiset {w : Welford ℚ} {s : Multiset ℚ} (hc : w.count = s.card) (hn : s.card ≠ 0)
    (hm : s.card * w.mean = s.sum) (h₂ : w.m2 = (s.map (· ^ 2)).sum - s.card * w.mean ^ 2) :
    w = ofMultiset s := by
  obtain ⟨count, mean, m2⟩ := w
  have hcard : (s.card : ℚ) ≠ 0 := by exact_mod_cast hn
  have he : mean = average s := by
    apply mul_left_cancel₀ hcard
    rw [hm, card_mul_average]
  dsimp only at hc h₂
  rw [ofMultiset, squaredDeviations_average, h₂, hc, he]

theorem empty_eq : (empty : Welford ℚ) = ofMultiset 0 := by
  simp [empty, ofMultiset, average, squaredDeviations, Scalar.zero]

theorem push_ofMultiset (s : Multiset ℚ) (x : ℚ) : (ofMultiset s).push x = ofMultiset (x ::ₘ s) := by
  have hn : (s.card : ℚ) + 1 ≠ 0 := by positivity
  have hsum := card_mul_average s
  have hdev := squaredDeviations_average s
  -- the mean moves by the share that the new number has in the count
  have hmean : ((s.card : ℚ) + 1) * ((ofMultiset s).push x).mean = x + s.sum := by
    simp only [push, ofMultiset, Scalar.ofCount]
    push_cast
    rw [← hsum]
    field_simp
    ring
  refine eq_ofMultiset ?_ ?_ ?_ ?_
  · simp [push, ofMultiset]
  · simp
  · simpa using hmean
  · have hm₂ : ((ofMultiset s).push x).m2 =
        squaredDeviations s (average s) + (x - average s) * (x - ((ofMultiset s).push x).mean) := rfl
    rw [hm₂, hdev, Multiset.map_cons, Multiset.sum_cons, Multiset.card_cons]
    push_cast
    linear_combination (((ofMultiset s).push x).mean + average s) * (hmean - hsum)

theorem merge_ofMultiset (s t : Multiset ℚ) :
    (ofMultiset s).merge (ofMultiset t) = ofMultiset (s + t) := by
  by_cases ht : t.card = 0
  · obtain rfl := Multiset.card_eq_zero.1 ht
    simp [merge, ofMultiset]
  by_cases hs : s.card = 0
  · obtain rfl := Multiset.card_eq_zero.1 hs
    simp [merge, ofMultiset, ht]
  have hn : (s.card : ℚ) + t.card ≠ 0 := by positivity
  have hmerge : (ofMultiset s).merge (ofMultiset t) =
      ⟨s.card + t.card, average s + (average t - average s) * t.card / (s.card + t.card),
        squaredDeviations s (average s) + (squaredDeviations t (average t)
          + (average t - average s) * (average t - average s) * s.card * t.card
            / (s.card + t.card))⟩ := by
    simp [merge, ofMultiset, hs, ht, Scalar.ofCount]
  rw [hmerge]
  refine eq_ofMultiset ?_ ?_ ?_ ?_
  · exact (Multiset.card_add s t).symm
  · rw [Multiset.card_add]
    omega
  · rw [Multiset.card_add, Multiset.sum_add, ← card_mul_average s, ← card_mul_average t]
    push_cast
    field_simp
    ring
  · rw [squaredDeviations_average, squaredDeviations_average, Multiset.card_add, Multiset.map_add,
      Multiset.sum_add]
    push_cast
    field_simp
    ring

/-- Numbers pushed one after the other are summarized. -/
theorem foldl_push (xs : List ℚ) : xs.foldl push empty = ofMultiset xs := by
  have h : ∀ s : Multiset ℚ, xs.foldl push (ofMultiset s) = ofMultiset (s + xs) := by
    induction xs with
    | nil => simp
    | cons x xs ih =>
      intro s
      rw [List.foldl_cons, push_ofMultiset, ih, ← Multiset.cons_coe, Multiset.cons_add,
        Multiset.add_cons]
  rw [empty_eq, h, zero_add]

theorem variance_ofMultiset (s : Multiset ℚ) :
    (ofMultiset s).variance s.card =
      if s = 0 then .error .emptySequence else .ok (populationVariance s) := by
  rcases hn : s.card with _ | _ | n
  · obtain rfl := Multiset.card_eq_zero.1 hn
    rfl
  · -- a single number deviates from itself by nothing
    obtain ⟨x, rfl⟩ := Multiset.card_eq_one.1 hn
    simp [variance, populationVariance, squaredDeviations, average, Scalar.zero]
  · have hs : s ≠ 0 := by
      rintro rfl
      cases hn
    simp [variance, populationVariance, ofMultiset, hs, hn, Scalar.ofCount]

/-- One pass over a sequence gives the variance of two passes. -/
theorem variance_reduce (xs : List ℚ) :
    Reducer.variance.reduce xs =
      if xs = [] then .error .emptySequence else .ok (populationVariance xs) := by
  have h := variance_ofMultiset xs
  rw [← foldl_push] at h
  simpa [Reducer.reduce, Reducer.variance] using h

/-! ## Registers -/

variable {ι : Type} [DecidableEq ι]

/-- What is done to states that are held in registers. -/
inductive Instruction (ι α : Type)
  | push (target : ι) (x : α)
  /-- Takes a copy of the source into the target. -/
  | merge (target source : ι)
  | reset (target : ι)

/-- The registers after an instruction. -/
def execute {α : Type} [Scalar α] (registers : ι → Welford α) : Instruction ι α → ι → Welford α
  | .push target x => Function.update registers target ((registers target).push x)
  | .merge target source =>
    Function.update registers target ((registers target).merge (registers source))
  | .reset target => Function.update registers target empty

/-- The numbers that registers have taken in since their last reset, after an
instruction. -/
def hold {α : Type} (held : ι → Multiset α) : Instruction ι α → ι → Multiset α
  | .push target x => Function.update held target (x ::ₘ held target)
  | .merge target source => Function.update held target (held target + held source)
  | .reset target => Function.update held target 0

/-- The registers after a program. Each is empty at first. -/
def registersAfter {α : Type} [Scalar α] (program : List (Instruction ι α)) : ι → Welford α :=
  program.foldl execute fun _ => empty

def heldAfter {α : Type} (program : List (Instruction ι α)) : ι → Multiset α :=
  program.foldl hold fun _ => 0

/-- An instruction keeps registers summaries of what they hold. -/
theorem execute_ofMultiset (held : ι → Multiset ℚ) (i : Instruction ι ℚ) :
    execute (ofMultiset ∘ held) i = ofMultiset ∘ hold held i := by
  cases i with
  | push target x =>
    rw [execute, hold, Function.comp_update, Function.comp_apply, push_ofMultiset]
  | merge target source =>
    rw [execute, hold, Function.comp_update, Function.comp_apply, Function.comp_apply,
      merge_ofMultiset]
  | reset target => rw [execute, hold, Function.comp_update, empty_eq]

theorem foldl_execute (held : ι → Multiset ℚ) (program : List (Instruction ι ℚ)) :
    program.foldl execute (ofMultiset ∘ held) = ofMultiset ∘ program.foldl hold held := by
  induction program generalizing held with
  | nil => rfl
  | cons i program ih => rw [List.foldl_cons, List.foldl_cons, execute_ofMultiset, ih]

theorem registersAfter_eq (program : List (Instruction ι ℚ)) (i : ι) :
    registersAfter program i = ofMultiset (heldAfter program i) := by
  have hstart : (fun _ : ι => (empty : Welford ℚ)) = ofMultiset ∘ fun _ => 0 :=
    funext fun _ => empty_eq
  rw [registersAfter, hstart, foldl_execute]
  rfl

/-! ## Partial states -/

/-- Parts of a sequence that are each summarized on their own, and how the partial states
are merged. -/
inductive Partials (α : Type)
  | part (xs : List α)
  | merge (left right : Partials α)

namespace Partials

def values {α : Type} : Partials α → List α
  | part xs => xs
  | merge left right => left.values ++ right.values

def state {α : Type} [Scalar α] : Partials α → Welford α
  | part xs => xs.foldl push empty
  | merge left right => left.state.merge right.state

theorem state_eq (p : Partials ℚ) : p.state = ofMultiset p.values := by
  induction p with
  | part xs => exact foldl_push xs
  | merge left right ihl ihr =>
    rw [state, ihl, ihr, merge_ofMultiset, values, Multiset.coe_add]

end Partials

/-! ## Main statement -/

/-- After any program every register holds the count, the mean and the squared deviations
of the numbers that it has taken in since its last reset. So registers can be merged in
any order, parts of a sequence merged in any tree give what a single pass over it gives,
deviations are never negative, and the variance, of a register or of a sequence, is that
of two passes, without a value for no numbers only. -/
theorem registers_summarize (program : List (Instruction ι ℚ)) :
    (∀ i, registersAfter program i = ofMultiset (heldAfter program i)) ∧
    (∀ i j, (registersAfter program i).merge (registersAfter program j) =
      (registersAfter program j).merge (registersAfter program i)) ∧
    (∀ i j k, ((registersAfter program i).merge (registersAfter program j)).merge
        (registersAfter program k) =
      (registersAfter program i).merge
        ((registersAfter program j).merge (registersAfter program k))) ∧
    (∀ (p : Partials ℚ) (xs : List ℚ), p.values.Perm xs → p.state = xs.foldl push empty) ∧
    (∀ i, 0 ≤ (registersAfter program i).m2) ∧
    (∀ i, (registersAfter program i).variance (heldAfter program i).card =
      if heldAfter program i = 0 then .error .emptySequence
      else .ok (populationVariance (heldAfter program i))) ∧
    (∀ i, (heldAfter program i).card = 1 →
      (registersAfter program i).variance (heldAfter program i).card = .ok 0) ∧
    (∀ xs : List ℚ, Reducer.variance.reduce xs =
      if xs = [] then .error .emptySequence else .ok (populationVariance xs)) ∧
    ∀ i n, (registersAfter program i).variance n = .error .emptySequence ↔ n = 0 := by
  have hsummary := registersAfter_eq program
  refine ⟨hsummary, ?_, ?_, ?_, ?_, ?_, ?_, variance_reduce, fun _ _ => variance_eq_error_iff⟩
  · intro i j
    rw [hsummary, hsummary, merge_ofMultiset, merge_ofMultiset, add_comm]
  · intro i j k
    simp only [hsummary, merge_ofMultiset, add_assoc]
  · intro p xs hp
    rw [p.state_eq, foldl_push, Multiset.coe_eq_coe.2 hp]
  · intro i
    rw [hsummary]
    exact squaredDeviations_nonneg _ _
  · intro i
    rw [hsummary, variance_ofMultiset]
  · intro i hi
    rw [hi]
    rfl

/-- A register takes in a copy of another one, and then one of itself, before the other is
reset. -/
def copies : List (Instruction Bool ℚ) :=
  [.push false 2, .push false 4, .merge true false, .merge true true, .reset false]

/-- Both copies count, and parts merged out of order give what a single pass gives. -/
theorem copies_summarized :
    registersAfter copies true = ofMultiset {4, 2, 4, 2} ∧
    (registersAfter copies true).variance 4 = .ok 1 ∧
    (Partials.merge (.part [9, 2]) (.merge (.part []) (.part [4]))).state =
      [2, 4, 9].foldl push (empty : Welford ℚ) := by
  obtain ⟨hsummary, -, -, hparts, -, hvariance, -⟩ := registers_summarize copies
  have hheld : heldAfter copies true = {4, 2, 4, 2} := rfl
  have hpopulation : populationVariance {4, 2, 4, 2} = 1 := by
    norm_num [populationVariance, squaredDeviations, average]
  have hne : ({4, 2, 4, 2} : Multiset ℚ) ≠ 0 := Multiset.cons_ne_zero
  have h := hvariance true
  rw [hheld, if_neg hne, hpopulation] at h
  exact ⟨by rw [hsummary, hheld], h, hparts _ _ (by decide)⟩

end Welford

end ArrayGraph
