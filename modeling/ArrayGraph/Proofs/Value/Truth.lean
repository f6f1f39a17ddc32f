import ArrayGraph.Proofs.Value.Pairing
/-!
# Conditions and zero

A number or an array holds as a condition if some element is not zero, and so does what comes
of comparing it with zero (`compare_zero`). The one looks for an element that is not zero of
its own type. The other repeats zero to the shape of the array, compares integers as they are
and everything else as floats, and looks for a truth value that holds.
-/

namespace ArrayGraph

namespace Tensor

variable {α β γ : Type}

/-- An array repeated to its own shape. -/
theorem repeatTo?_self (t : Tensor α) : t.repeatTo? t.shape = some ⟨t, rfl⟩ := by
  have hs : t.shape = t.shape.drop (t.shape.length - t.rank) := by
    rw [rank, Nat.sub_self, List.drop_zero]
  rw [repeatTo?, dif_pos hs]
  refine congrArg some (Subtype.ext (eq_of_data rfl (Array.ext ?_ fun i hi hi' => ?_)))
  · simp [t.size_eq]
  · have hlt : i < t.shape.size := t.size_eq ▸ hi'
    simp [Nat.mod_eq_of_lt hlt]

/-- A single element repeated to a shape. -/
theorem repeatTo?_single (a : α) (shape : Shape) : (scalar a).repeatTo? shape =
    some ⟨⟨shape, Array.replicate shape.size a, Array.size_replicate⟩, rfl⟩ := by
  have hs : (scalar a).shape = shape.drop (shape.length - (scalar a).rank) :=
    List.drop_length.symm
  rw [repeatTo?, dif_pos hs]
  refine congrArg some (Subtype.ext (eq_of_data rfl (Array.ext ?_ fun i hi hi' => ?_)))
  · simp
  · simp [scalar]

/-- A single element goes with each element of an array of at most two axes. -/
theorem broadcast_single (f : α → β → γ) (t : Tensor α) (b : β) (h : t.rank ≤ 2) :
    t.broadcast f (scalar b) = .ok (t.map (f · b)) := by
  have hc : Compatible t.shape [] := ⟨⟨h, Nat.zero_le 2⟩, .inr (.inl rfl)⟩
  have hshape : broadcastShape t.shape (scalar b).shape = .ok t.shape :=
    broadcastShape_of_compatible hc
  simp only [broadcast, hshape, repeatTo?_self, repeatTo?_single]
  refine congrArg Except.ok (eq_of_data rfl (Array.ext ?_ fun i hi hi' => ?_))
  · simp [zipWith, map, t.size_eq]
  · simp [zipWith, map]

theorem any_map (f : α → β) (p : β → Bool) (t : Tensor α) : (t.map f).any p = t.any (p ∘ f) :=
  Array.any_map

end Tensor

/-! ## Comparisons with zero -/

namespace Value

theorem truthy_ofBools (t : Tensor Bool) : (ofBools t).truthy? = some (t.any id) := by
  unfold ofBools
  split
  · next h =>
    have hitem : t = .scalar (t.item h) := Tensor.eq_scalar_of_item? (t.item?_eq_some_item h)
    have hany : t.any id = t.item h := (congrArg (Tensor.any id) hitem).trans (Tensor.any_scalar ..)
    exact congrArg some hany.symm
  · rfl

theorem tells_zero {α : Type} (differs : α → α → Bool) (zero : α) {t : Tensor α}
    (h : t.rank ≤ 2) :
    ∃ c, ((t.broadcast differs (.scalar zero)).map ofBools).mapError Cause.unmatched = .ok c ∧
      c.truthy? = some (t.any (differs · zero)) := by
  refine ⟨ofBools (t.map (differs · zero)), ?_, ?_⟩
  · rw [Tensor.broadcast_single _ _ _ h]
    rfl
  · rw [truthy_ofBools, Tensor.any_map]
    rfl

/-- As floats, zero is compared with after its conversion. -/
theorem floats_tell_zero {t : Tensor Float} (h : t.rank ≤ 2) :
    ∃ c, (Pair.floats t (.scalar (floatOfInt 0))).compare .notEqual = .ok c ∧
      c.truthy? = some (t.any (· != 0)) := by
  have hzero : floatOfInt 0 = 0 := by decide
  rw [hzero]
  exact tells_zero (fun x y => x != y) 0 h

theorem floatOfBool_bne (b : Bool) : (floatOfBool b != 0) = b := by
  cases b <;> decide

/-- A number, or an array of at most two axes. -/
def IsCondition (v : Value) : Prop := ∃ k, v.rank? = some k ∧ k ≤ 2

/-- A number or an array of at most two axes can be compared with zero, and holds as a
condition just when the result of "not equal" does. -/
theorem compare_zero {v : Value} (hv : v.IsCondition) :
    ∃ c, v.compare .notEqual (int 0) = .ok c ∧ c.truthy? = v.truthy? := by
  obtain ⟨k, hk, hrank⟩ := hv
  have hscalar : ∀ {α : Type} (a : α), (Tensor.scalar a).rank ≤ 2 := fun _ => Nat.zero_le 2
  rw [compare_eq_pair]
  cases v with
  | empty | str | list | node => cases hk
  | int i =>
    obtain ⟨c, hc, ht⟩ := tells_zero (fun i j => i != j) 0 (hscalar i)
    exact ⟨c, hc, by rw [ht, Tensor.any_scalar]; rfl⟩
  | float x =>
    obtain ⟨c, hc, ht⟩ := floats_tell_zero (hscalar x)
    exact ⟨c, hc, by rw [ht, Tensor.any_scalar]; rfl⟩
  | bool b =>
    obtain ⟨c, hc, ht⟩ := floats_tell_zero (hscalar (floatOfBool b))
    exact ⟨c, hc, by rw [ht, Tensor.any_scalar, floatOfBool_bne]; rfl⟩
  | array a =>
    obtain rfl : a.rank = k := Option.some.inj hk
    cases a with
    | int t => exact tells_zero (fun i j => i != j) 0 hrank
    | float t => exact floats_tell_zero hrank
    | bool t =>
      obtain ⟨c, hc, ht⟩ := floats_tell_zero (t := t.map floatOfBool) hrank
      have hany : (· != 0) ∘ floatOfBool = id := funext floatOfBool_bne
      exact ⟨c, hc, by rw [ht, Tensor.any_map, hany]; rfl⟩

end Value

end ArrayGraph
