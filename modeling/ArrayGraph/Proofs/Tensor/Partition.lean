import ArrayGraph.Proofs.Tensor.Lane
import Mathlib.Data.Multiset.Bind
import Mathlib.Data.List.Perm.Basic
/-!
# Lanes part an array

The lanes along an axis hold every element of the array once: together they are its elements
in some order (`flatten_lanes_perm`). It comes from the indices, of which each arises once by
putting a place on the axis into an index of the other axes (`put_indices_perm`).
-/

namespace ArrayGraph

namespace Shape

/-- Two axes may be counted in either order. -/
theorem flatMap_comm_perm {α β γ : Type} (xs : List α) (ys : List β) (f : α → β → γ) :
    (xs.flatMap fun x => ys.map (f x)).Perm (ys.flatMap fun y => xs.map (f · y)) := by
  have h := Multiset.bind_map_comm (xs : Multiset α) (ys : Multiset β) (f := f)
  simp only [Multiset.map_coe, Multiset.coe_bind] at h
  exact Multiset.coe_eq_coe.1 h

theorem put_indices_perm (shape : Shape) {k : Nat} (hk : k < shape.length) :
    ((indices (shape.eraseIdx k)).flatMap fun index =>
      (List.range shape[k]).map fun n => index.insertIdx k n).Perm shape.indices := by
  induction shape generalizing k with
  | nil => cases hk
  | cons m shape ih =>
    cases k with
    | zero => exact flatMap_comm_perm (indices shape) (List.range m) fun index n => n :: index
    | succ k =>
      have hk' : k < shape.length := Nat.lt_of_succ_lt_succ hk
      rw [List.eraseIdx_cons_succ, indices, indices, List.flatMap_assoc]
      refine List.Perm.flatMap_left _ fun i _ => ?_
      -- the place of the first axis stands before those that are put in
      have hcons : ((indices (shape.eraseIdx k)).map (i :: ·)).flatMap (fun index =>
          (List.range (m :: shape)[k + 1]).map fun n => index.insertIdx (k + 1) n) =
          ((indices (shape.eraseIdx k)).flatMap fun index =>
            (List.range shape[k]).map fun n => index.insertIdx k n).map (i :: ·) := by
        simp [List.flatMap_map, List.map_flatMap, Function.comp_def]
      rw [hcons]
      exact (ih hk').map _

theorem length_indices (shape : Shape) : shape.indices.length = shape.size := by
  have h := congrArg List.length (map_position_indices shape)
  rwa [List.length_map, List.length_range] at h

theorem size_pos {shape : Shape} (h : ∀ n ∈ shape, 0 < n) : 0 < shape.size := by
  induction shape with
  | nil => exact Nat.one_pos
  | cons n shape ih =>
    rw [List.forall_mem_cons] at h
    exact Nat.mul_pos h.1 (ih h.2)

end Shape

namespace Tensor

variable {α : Type} {t : Tensor α} {k : Nat}

theorem length_of_mem_lanes {hk : k < t.shape.length} {xs : List α} (h : xs ∈ t.lanes k hk) :
    xs.length = t.shape[k] := by
  obtain ⟨i, rfl⟩ := List.mem_ofFn.1 h
  exact List.length_ofFn

/-- The lanes stand in the order of the indices of the other axes. -/
theorem map_lanes (t : Tensor α) (hk : k < t.shape.length) :
    (t.lanes k hk).map (List.map some) = (Shape.indices (t.shape.eraseIdx k)).map fun index =>
      (List.range t.shape[k]).map fun n => t.at? (index.insertIdx k n) := by
  have hlen : (t.lanes k hk).length = (Shape.indices (t.shape.eraseIdx k)).length := by
    rw [length_lanes, Shape.length_indices, Shape.laneCount]
  refine List.ext_getElem (by simpa using hlen) fun p hp hp' => ?_
  rw [List.length_map] at hp hp'
  have hposition : Shape.position (t.shape.eraseIdx k)
      (Shape.indices (t.shape.eraseIdx k))[p] = p := by
    have h := congrArg (·[p]?) (Shape.map_position_indices (t.shape.eraseIdx k))
    have hsize : p < Shape.size (t.shape.eraseIdx k) := by rwa [← Shape.length_indices]
    simpa [hp', hsize] using h
  have hlane := laneAt_lane hk (List.getElem_mem hp')
  simp only [hposition, LaneAt] at hlane
  simpa [lanes, hk] using hlane

theorem flatten_lanes_perm (t : Tensor α) (hk : k < t.shape.length) :
    (t.lanes k hk).flatten.Perm t.toList := by
  refine (List.map_perm_map_iff (Option.some_injective α)).1 ?_
  rw [List.map_flatten, map_lanes, ← map_at?_indices]
  have h := (Shape.put_indices_perm t.shape hk).map t.at?
  rw [List.map_flatMap] at h
  simpa [List.flatMap, Function.comp_def] using h

end Tensor

end ArrayGraph
