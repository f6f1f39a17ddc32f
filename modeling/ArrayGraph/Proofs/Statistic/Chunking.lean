import ArrayGraph.Proofs.Statistic.Reduction
/-!
# Sequences in chunks

A caller folds chunks into one accumulator and adds up the counts that come back
(`Reducer.combineAll`). A chunk is folded element by element, so how a sequence is cut up
makes no difference: the folds come in the same order and the counts have the same sum
(`combineAll_eq`). Nothing is asked of the arithmetic. Running moments count their elements
themselves, and their count is the caller's.
-/

namespace ArrayGraph

/-- The elements of all chunks, those of each in row-major order. -/
def elementsOf {α : Type} (chunks : List (Chunk α)) : List α := chunks.flatMap Chunk.toList

theorem elementsOf_scalars {α : Type} (xs : List α) : elementsOf (xs.map Chunk.scalar) = xs := by
  induction xs with
  | nil => rfl
  | cons x xs ih => exact congrArg (x :: ·) ih

/-! ## The accumulator and the count -/

namespace Reducer

variable {α β : Type} {r : Reducer α β} {chunks : List (Chunk α)}

/-- The chunks folded one after another from the start, and the sum of the counts that came
back. -/
def combineAll (r : Reducer α β) (chunks : List (Chunk α)) : β × Nat :=
  chunks.foldl (fun sofar c =>
    let (acc, count) := r.combine sofar.1 c
    (acc, sofar.2 + count)) (r.identity, 0)

theorem combine_eq (r : Reducer α β) (acc : β) (c : Chunk α) :
    r.combine acc c = (c.toList.foldl r.fold acc, c.toList.length) := by
  cases c with
  | scalar x => rfl
  | array t => exact Prod.ext (Array.foldl_toList _).symm Array.length_toList.symm

theorem combineAll_eq (r : Reducer α β) (chunks : List (Chunk α)) :
    r.combineAll chunks =
      ((elementsOf chunks).foldl r.fold r.identity, (elementsOf chunks).length) := by
  -- from any accumulator and count, since only the first chunk meets those of the start
  have hfrom : ∀ acc n, chunks.foldl (fun sofar c =>
      let (acc, count) := r.combine sofar.1 c
      (acc, sofar.2 + count)) (acc, n) =
        ((elementsOf chunks).foldl r.fold acc, n + (elementsOf chunks).length) := by
    induction chunks with
    | nil => exact fun _ _ => rfl
    | cons c chunks ih =>
      intro acc n
      rw [List.foldl_cons, combine_eq, ih]
      simp only [elementsOf, List.flatMap_cons, List.foldl_append, List.length_append,
        Nat.add_assoc]
  rw [combineAll, hfrom, Nat.zero_add]

theorem combineAll_one_by_one (r : Reducer α β) (chunks : List (Chunk α)) :
    r.combineAll chunks = r.combineAll ((elementsOf chunks).map .scalar) := by
  rw [combineAll_eq, combineAll_eq, elementsOf_scalars]

/-- What the accumulator of chunks is finalized to is the reduction of all elements. -/
theorem finalize_combineAll (r : Reducer α β) (chunks : List (Chunk α)) :
    r.finalize (r.combineAll chunks).1 (r.combineAll chunks).2 =
      r.reduce (Tensor.vector (elementsOf chunks).toArray).toList := by
  rw [combineAll_eq]
  rfl

end Reducer

/-- Each number that is pushed is counted. -/
theorem Welford.count_foldl_push {α : Type} [Scalar α] (xs : List α) (w : Welford α) :
    (xs.foldl push w).count = w.count + xs.length := by
  induction xs generalizing w with
  | nil => rfl
  | cons x xs ih =>
    rw [List.foldl_cons, ih, List.length_cons]
    exact Nat.add_right_comm ..

/-! ## The eight statistics -/

section
variable {α β : Type} [RealScalar α]

/-- Chunks come to what all their elements come to one at a time, and are finalized to the
statistic of the array of rank 1 that has all of them. Only a statistic that needs elements
fails, and only for want of them. -/
structure ChunksAsOne (s : Statistic) (r : Reducer α β) (chunks : List (Chunk α)) : Prop where
  flat : r.combineAll chunks =
    ((elementsOf chunks).foldl r.fold r.identity, (elementsOf chunks).length)
  one_by_one : r.combineAll chunks = r.combineAll ((elementsOf chunks).map .scalar)
  finalized : r.finalize (r.combineAll chunks).1 (r.combineAll chunks).2 =
    s.reduce (Tensor.vector (elementsOf chunks).toArray).toList
  fails_iff : r.finalize (r.combineAll chunks).1 (r.combineAll chunks).2 =
    .error .emptySequence ↔ s.NeedsElements ∧ (r.combineAll chunks).2 = 0

theorem chunksAsOne_of_reduce {s : Statistic} {r : Reducer α β}
    (h : ∀ xs, s.reduce xs = r.reduce xs) (chunks : List (Chunk α)) : ChunksAsOne s r chunks where
  flat := r.combineAll_eq chunks
  one_by_one := r.combineAll_one_by_one chunks
  finalized := (r.finalize_combineAll chunks).trans (h _).symm
  fails_iff := by
    rw [r.finalize_combineAll, ← h, Statistic.reduce_eq_error_iff, r.combineAll_eq,
      List.length_eq_zero_iff]
    rfl

/-- However a sequence is cut into chunks, a reducer comes to the same, and the count that
running moments keep is the sum of those that came back. -/
theorem chunks_combine_as_one (s : Statistic) (chunks : List (Chunk α)) :
    match (s.reducer : AnyReducer α) with
    | .number r => ChunksAsOne s r chunks
    | .moments r =>
      ChunksAsOne s r chunks ∧ (r.combineAll chunks).1.count = (r.combineAll chunks).2 := by
  have hcount : ∀ r : Reducer α (Welford α), r.identity = .empty → r.fold = Welford.push →
      (r.combineAll chunks).1.count = (r.combineAll chunks).2 := by
    intro r hstart hfold
    rw [r.combineAll_eq, hstart, hfold]
    exact (Welford.count_foldl_push _ _).trans (Nat.zero_add _)
  cases s with
  | minimum | maximum | sum | product | logSumExp | mean =>
    exact chunksAsOne_of_reduce (fun _ => rfl) chunks
  | variance | standardDeviation =>
    exact ⟨chunksAsOne_of_reduce (fun _ => rfl) chunks, hcount _ rfl rfl⟩

end

end ArrayGraph
