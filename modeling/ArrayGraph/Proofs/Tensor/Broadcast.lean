import ArrayGraph.Error
import ArrayGraph.Proofs.Tensor.Index
/-!
# Which shapes broadcast, and to what

`Verdict` says what becomes of every pair of shapes. Two shapes that go together both end
the one with more axes (`Compatible.suffix`), so an index of the result ends in an index of
each operand (`operandIndex_append`), and an operand repeated along the axes in front holds
its own element there (`repeatTo?_append`). Broadcasting goes along with conversions
(`broadcast_converted`) and treats both sides alike (`broadcast_swap`).
-/

namespace ArrayGraph

/-! ## Shapes that go together -/

/-- A vector with one element for each column of a matrix. -/
def RowOf (vector matrix : Shape) : Prop :=
  ∃ rows columns, vector = [columns] ∧ matrix = [rows, columns]

/-- A single element goes with anything up to a matrix, equal shapes go together, and a
vector goes over the rows of a matrix. -/
def Compatible (lhs rhs : Shape) : Prop :=
  (lhs.length ≤ 2 ∧ rhs.length ≤ 2) ∧
    (lhs = [] ∨ rhs = [] ∨ lhs = rhs ∨ RowOf lhs rhs ∨ RowOf rhs lhs)

/-- The shape with more axes. -/
def widerShape (lhs rhs : Shape) : Shape := if lhs.length < rhs.length then rhs else lhs

section
variable {lhs rhs : Shape}

theorem Compatible.length_le (h : Compatible lhs rhs) : (widerShape lhs rhs).length ≤ 2 := by
  unfold widerShape
  split
  · exact h.1.2
  · exact h.1.1

theorem Compatible.suffix (h : Compatible lhs rhs) :
    lhs <:+ widerShape lhs rhs ∧ rhs <:+ widerShape lhs rhs := by
  obtain ⟨-, rfl | rfl | rfl | ⟨rows, columns, rfl, rfl⟩ | ⟨rows, columns, rfl, rfl⟩⟩ := h
  · cases rhs with
    | nil => exact ⟨List.suffix_rfl, List.suffix_rfl⟩
    | cons n rhs => exact ⟨List.nil_suffix, List.suffix_rfl⟩
  · exact ⟨List.suffix_rfl, List.nil_suffix⟩
  · rw [widerShape, if_neg (Nat.lt_irrefl _)]
    exact ⟨List.suffix_rfl, List.suffix_rfl⟩
  · exact ⟨List.suffix_cons .., List.suffix_rfl⟩
  · exact ⟨List.suffix_rfl, List.suffix_cons ..⟩

theorem compatible_of_length_eq (hlen : lhs.length = rhs.length) (h : lhs.length ≤ 2) :
    Compatible lhs rhs ↔ lhs = rhs := by
  constructor
  · rintro ⟨-, rfl | rfl | rfl | ⟨rows, columns, rfl, rfl⟩ | ⟨rows, columns, rfl, rfl⟩⟩
    · exact (List.length_eq_zero_iff.1 hlen.symm).symm
    · exact List.length_eq_zero_iff.1 hlen
    · rfl
    · cases hlen
    · cases hlen
  · rintro rfl
    exact ⟨⟨h, h⟩, .inr (.inr (.inl rfl))⟩

theorem compatible_vector_matrix {n rows columns : Nat} :
    Compatible [n] [rows, columns] ↔ n = columns := by
  constructor
  · rintro ⟨-, h | h | h | ⟨_, _, h, h'⟩ | ⟨_, _, h, h'⟩⟩ <;> cases h
    cases h'
    rfl
  · rintro rfl
    exact ⟨⟨Nat.le_succ 1, Nat.le_refl 2⟩, .inr (.inr (.inr (.inl ⟨rows, n, rfl, rfl⟩)))⟩

theorem Compatible.symm (h : Compatible lhs rhs) : Compatible rhs lhs := by
  obtain ⟨⟨hl, hr⟩, h | h | h | h | h⟩ := h
  · exact ⟨⟨hr, hl⟩, .inr (.inl h)⟩
  · exact ⟨⟨hr, hl⟩, .inl h⟩
  · exact ⟨⟨hr, hl⟩, .inr (.inr (.inl h.symm))⟩
  · exact ⟨⟨hr, hl⟩, .inr (.inr (.inr (.inr h)))⟩
  · exact ⟨⟨hr, hl⟩, .inr (.inr (.inr (.inl h)))⟩

theorem compatible_matrix_vector {n rows columns : Nat} :
    Compatible [rows, columns] [n] ↔ n = columns :=
  ⟨fun h => compatible_vector_matrix.1 h.symm, fun h => (compatible_vector_matrix.2 h).symm⟩

end

/-- What becomes of two shapes: they go together, an extent differs, or one has too many
axes. -/
inductive Verdict (lhs rhs : Shape) : Except Mismatch Shape → Prop
  | agreed (h : Compatible lhs rhs) : Verdict lhs rhs (.ok (widerShape lhs rhs))
  | extent {m : Mismatch} (hlen : lhs.length ≤ 2 ∧ rhs.length ≤ 2) (h : ¬ Compatible lhs rhs)
      (hkind : m.kind = .shapeMismatch) (hm : ∀ shape, m ≠ .repetition shape) :
      Verdict lhs rhs (.error m)
  | rank (h : 2 < lhs.length ∨ 2 < rhs.length) :
      Verdict lhs rhs (.error (.ranks lhs.length rhs.length))

theorem Verdict.of_iff {lhs rhs : Shape} {p : Prop} [Decidable p] {m : Mismatch}
    (hlen : lhs.length ≤ 2 ∧ rhs.length ≤ 2) (h : Compatible lhs rhs ↔ p)
    (hkind : m.kind = .shapeMismatch) (hm : ∀ shape, m ≠ .repetition shape) :
    Verdict lhs rhs (if p then .ok (widerShape lhs rhs) else .error m) := by
  split
  · next hp => exact .agreed (h.2 hp)
  · next hp => exact .extent hlen (mt h.1 hp) hkind hm

/-- The cases are those of `broadcastShape`. -/
theorem broadcastShape_verdict : (lhs rhs : Shape) → Verdict lhs rhs (broadcastShape lhs rhs)
  | [], [] | [], [_] | [], [_, _] => .agreed ⟨by simp, .inl rfl⟩
  | [_], [] | [_, _], [] => .agreed ⟨by simp, .inr (.inl rfl)⟩
  | [a], [b] => by
    have h : Compatible [a] [b] ↔ [a] = [b] := compatible_of_length_eq rfl (Nat.le_succ 1)
    rw [List.cons.injEq, and_iff_left rfl] at h
    exact .of_iff (by simp) h rfl nofun
  | [_, _], [_, _] => .of_iff (by simp) (compatible_of_length_eq rfl (Nat.le_refl 2)) rfl nofun
  | [_], [_, _] => .of_iff (by simp) compatible_vector_matrix rfl nofun
  | [_, _], [_] => .of_iff (by simp) compatible_matrix_vector rfl nofun
  | _ :: _ :: _ :: _, [] | _ :: _ :: _ :: _, [_] | _ :: _ :: _ :: _, [_, _]
  | _ :: _ :: _ :: _, _ :: _ :: _ :: _ => .rank (.inl (by simp))
  | [], _ :: _ :: _ :: _ | [_], _ :: _ :: _ :: _ | [_, _], _ :: _ :: _ :: _ =>
    .rank (.inr (by simp))

theorem broadcastShape_of_compatible {lhs rhs : Shape} (h : Compatible lhs rhs) :
    broadcastShape lhs rhs = .ok (widerShape lhs rhs) := by
  have hverdict := broadcastShape_verdict lhs rhs
  generalize broadcastShape lhs rhs = s at hverdict
  cases hverdict with
  | agreed => rfl
  | extent _ hn => exact absurd h hn
  | rank hn =>
    have hlen := h.1
    omega

theorem compatible_of_broadcastShape {lhs rhs shape : Shape}
    (h : broadcastShape lhs rhs = .ok shape) : Compatible lhs rhs := by
  have hverdict := broadcastShape_verdict lhs rhs
  rw [h] at hverdict
  cases hverdict with
  | agreed hc => exact hc

/-- The mismatch of the same shapes in the other order. -/
def Mismatch.swap : Mismatch → Mismatch
  | extents lhs rhs => extents rhs lhs
  | vectorOverMatrix elements columns => matrixOverVector columns elements
  | matrixOverVector columns elements => vectorOverMatrix elements columns
  | ranks lhs rhs => ranks rhs lhs
  | repetition shape => repetition shape

theorem Mismatch.kind_swap (m : Mismatch) : m.swap.kind = m.kind := by
  cases m <;> rfl

/-- The cases are those of `broadcastShape`. -/
theorem broadcastShape_swap : (lhs rhs : Shape) →
    broadcastShape rhs lhs = (broadcastShape lhs rhs).mapError Mismatch.swap
  | [], [] | [], [_] | [], [_, _] | [_], [] | [_, _], [] => rfl
  | [a], [b] => by
    by_cases h : a = b
    · rw [h, broadcastShape, if_pos rfl]
      rfl
    · rw [broadcastShape, broadcastShape, if_neg h, if_neg (Ne.symm h)]
      rfl
  | [a, b], [c, d] => by
    by_cases h : [a, b] = [c, d]
    · rw [h, broadcastShape, if_pos rfl]
      rfl
    · rw [broadcastShape, broadcastShape, if_neg h, if_neg (Ne.symm h)]
      rfl
  | [n], [_, columns] | [_, columns], [n] => by
    by_cases h : n = columns
    · rw [broadcastShape, broadcastShape, if_pos h, if_pos h]
      rfl
    · rw [broadcastShape, broadcastShape, if_neg h, if_neg h]
      rfl
  | _ :: _ :: _ :: _, [] | _ :: _ :: _ :: _, [_] | _ :: _ :: _ :: _, [_, _]
  | _ :: _ :: _ :: _, _ :: _ :: _ :: _ => rfl
  | [], _ :: _ :: _ :: _ | [_], _ :: _ :: _ :: _ | [_, _], _ :: _ :: _ :: _ => rfl

/-! ## Reading an operand -/

/-- Where an operand is read for an index of the result: a single element at its only
index, a vector at the column, and everything else at the index itself. -/
def operandIndex : Shape → List Nat → List Nat
  | [], _ => []
  | [_], [_, column] => [column]
  | _, index => index

theorem operandIndex_append {shape : Shape} {i j : List Nat} (hlen : (i ++ j).length ≤ 2)
    (hj : j.length = shape.length) : operandIndex shape (i ++ j) = j := by
  rw [List.length_append] at hlen
  rcases shape with _ | ⟨a, _ | ⟨b, shape⟩⟩
  · rw [List.length_eq_zero_iff.1 hj]
    rfl
  · obtain ⟨column, rfl⟩ := List.length_eq_one_iff.1 hj
    rcases i with _ | ⟨row, _ | ⟨k, i⟩⟩
    · rfl
    · rfl
    · simp at hlen
  · have hi : i = [] := by
      rw [hj] at hlen
      simp only [List.length_cons] at hlen
      exact List.length_eq_zero_iff.1 (by omega)
    rw [hi]
    rfl

namespace Tensor

variable {α α' β β' γ δ : Type} {t : Tensor α} {shape : Shape}

/-- An array can be repeated to every shape that ends in its own, and then holds its own
element at every index that ends in one of its own. -/
theorem repeatTo?_append {outer : Shape} (h : shape = outer ++ t.shape) :
    ∃ r, t.repeatTo? shape = some r ∧
      ∀ i ∈ outer.indices, ∀ j ∈ t.shape.indices, r.1.at? (i ++ j) = t.at? j := by
  subst h
  have hdrop : t.shape = (outer ++ t.shape).drop ((outer ++ t.shape).length - t.rank) := by
    rw [List.length_append, rank, Nat.add_sub_cancel, List.drop_left]
  rw [repeatTo?, dif_pos hdrop]
  refine ⟨_, rfl, fun i hi j hj => ?_⟩
  have hij : i ++ j ∈ (outer ++ t.shape).indices := Shape.mem_indices_append.2 ⟨i, hi, j, hj, rfl⟩
  have hlt := Shape.position_lt hij
  have hmod : (outer ++ t.shape).position (i ++ j) % t.shape.size = t.shape.position j := by
    rw [Shape.position_append (Shape.length_of_mem_indices hi), Nat.mul_add_mod',
      Nat.mod_eq_of_lt (Shape.position_lt hj)]
  have hpos : t.shape.position j < t.data.size := by
    rw [t.size_eq]
    exact Shape.position_lt hj
  rw [at?_of_mem hj, at?_of_mem hij, Array.getElem?_eq_getElem hpos]
  simp [hlt, hmod]

/-- An operand as it is read at each index of a matrix or a vector that ends in its shape. -/
theorem repeatTo?_of_suffix (h : t.shape <:+ shape) (hlen : shape.length ≤ 2) :
    ∃ r, t.repeatTo? shape = some r ∧ ∀ index ∈ shape.indices, ∃ a,
      t.at? (operandIndex t.shape index) = some a ∧ r.1.at? index = some a := by
  obtain ⟨outer, h⟩ := h
  obtain ⟨r, hr, hat⟩ := repeatTo?_append h.symm
  refine ⟨r, hr, fun index hindex => ?_⟩
  rw [← Shape.length_of_mem_indices hindex] at hlen
  rw [← h] at hindex
  obtain ⟨i, hi, j, hj, rfl⟩ := Shape.mem_indices_append.1 hindex
  obtain ⟨a, ha⟩ := exists_at? hj
  rw [operandIndex_append hlen (Shape.length_of_mem_indices hj), hat i hi j hj]
  exact ⟨a, ha, ha⟩

theorem zipWith_at? (f : α → β → γ) {a : Tensor α} {b : Tensor β} (h : a.shape = b.shape)
    {index : List Nat} {x : α} {y : β} (hx : a.at? index = some x) (hy : b.at? index = some y) :
    (zipWith f a b h).at? index = some (f x y) := by
  have hmem : index ∈ a.shape.indices := mem_of_at? hx
  have hmem' : index ∈ b.shape.indices := h ▸ hmem
  have hmem'' : index ∈ (zipWith f a b h).shape.indices := hmem
  rw [at?_of_mem hmem] at hx
  rw [at?_of_mem hmem', ← h] at hy
  rw [at?_of_mem hmem'', zipWith, Array.getElem?_zipWith, hx, hy]

/-! ## Converted elements and exchanged sides -/

theorem repeatTo?_map (f : α → β) (t : Tensor α) (shape : Shape) :
    (t.map f).repeatTo? shape = (t.repeatTo? shape).map fun r => ⟨r.1.map f, r.2⟩ := by
  by_cases hs : t.shape = shape.drop (shape.length - t.rank)
  · have hs' : (t.map f).shape = shape.drop (shape.length - (t.map f).rank) := hs
    rw [repeatTo?, repeatTo?, dif_pos hs, dif_pos hs', Option.map_some]
    refine congrArg some (Subtype.ext (eq_of_data rfl (Array.ext ?_ ?_)))
    · simp [map]
    · simp [map]
  · have hs' : ¬ (t.map f).shape = shape.drop (shape.length - (t.map f).rank) := hs
    rw [repeatTo?, repeatTo?, dif_neg hs, dif_neg hs', Option.map_none]

/-- Elements may be converted before they are combined, and results after. -/
theorem broadcast_converted (g : γ → δ) (op : α' → β' → γ) (f : α → α') (f' : β → β')
    (s : Tensor α) (t : Tensor β) : (s.map f).broadcast (fun a b => g (op a b)) (t.map f') =
      (s.broadcast (fun a b => op (f a) (f' b)) t).map (·.map g) := by
  simp only [broadcast, shape_map, repeatTo?_map]
  cases broadcastShape s.shape t.shape with
  | error m => rfl
  | ok shape =>
    dsimp only
    generalize s.repeatTo? shape = a
    generalize t.repeatTo? shape = b
    cases a with
    | none => rfl
    | some a =>
      cases b with
      | none => rfl
      | some b =>
        refine congrArg Except.ok (eq_of_data rfl (Array.ext ?_ ?_))
        · simp [zipWith, map]
        · simp [zipWith, map]

theorem broadcast_map (op : α' → β' → γ) (f : α → α') (f' : β → β') (s : Tensor α) (t : Tensor β) :
    (s.map f).broadcast op (t.map f') = s.broadcast (fun a b => op (f a) (f' b)) t := by
  have h := broadcast_converted id op f f' s t
  simp only [id_eq, map_id] at h
  rw [h]
  cases s.broadcast (fun a b => op (f a) (f' b)) t <;> rfl

theorem broadcast_then (g : γ → δ) (f : α → β → γ) (s : Tensor α) (t : Tensor β) :
    s.broadcast (fun a b => g (f a b)) t = (s.broadcast f t).map (·.map g) := by
  simpa only [map_id, id_eq] using broadcast_converted g f id id s t

theorem zipWith_swap (f : α → β → γ) (s : Tensor α) (t : Tensor β) (h : s.shape = t.shape) :
    zipWith (fun b a => f a b) t s h.symm = zipWith f s t h :=
  eq_of_data h.symm Array.zipWith_comm.symm

/-- Neither side of a broadcast has a part of its own. -/
theorem broadcast_swap (f : α → β → γ) (s : Tensor α) (t : Tensor β) :
    t.broadcast (fun b a => f a b) s = (s.broadcast f t).mapError Mismatch.swap := by
  simp only [broadcast, broadcastShape_swap s.shape t.shape]
  cases broadcastShape s.shape t.shape with
  | error m => rfl
  | ok shape =>
    have hok : (Except.ok shape).mapError Mismatch.swap = .ok shape := rfl
    simp only [hok]
    cases s.repeatTo? shape with
    | none => cases t.repeatTo? shape <;> rfl
    | some a =>
      cases t.repeatTo? shape with
      | none => rfl
      | some b => exact congrArg Except.ok (zipWith_swap f a.1 b.1 (a.2.trans b.2.symm))

theorem repeatTo?_scalar (a : α) : (scalar a).repeatTo? [] = some ⟨scalar a, rfl⟩ := by
  have hs : (scalar a).shape = ([] : Shape).drop (([] : Shape).length - (scalar a).rank) := rfl
  rw [repeatTo?, dif_pos hs]
  refine congrArg some (Subtype.ext (eq_of_data rfl (Array.ext rfl fun i _ hi => ?_)))
  obtain rfl : i = 0 := Nat.lt_one_iff.1 hi
  simp [scalar]

theorem broadcast_scalar (op : α → β → γ) (a : α) (b : β) :
    (scalar a).broadcast op (scalar b) = .ok (scalar (op a b)) := by
  have hshape : broadcastShape (scalar a).shape (scalar b).shape = .ok [] := rfl
  simp only [broadcast, hshape, repeatTo?_scalar]
  simp [zipWith, scalar]

/-! ## The kernel -/

theorem broadcast_of_error {f : α → β → γ} {lhs : Tensor α} {rhs : Tensor β} {m : Mismatch}
    (h : broadcastShape lhs.shape rhs.shape = .error m) : broadcast f lhs rhs = .error m := by
  simp only [broadcast, h]

/-- An array of the wider shape that holds at every index what `f` makes of both operands. -/
def Combines (f : α → β → γ) (lhs : Tensor α) (rhs : Tensor β) (t : Tensor γ) : Prop :=
  t.shape = widerShape lhs.shape rhs.shape ∧ t.size = t.shape.size ∧
    ∀ index ∈ t.shape.indices, ∃ a b, lhs.at? (operandIndex lhs.shape index) = some a ∧
      rhs.at? (operandIndex rhs.shape index) = some b ∧ t.at? index = some (f a b)

theorem broadcast_of_ok (f : α → β → γ) {lhs : Tensor α} {rhs : Tensor β}
    (h : Compatible lhs.shape rhs.shape)
    (hs : broadcastShape lhs.shape rhs.shape = .ok (widerShape lhs.shape rhs.shape)) :
    ∃ t, broadcast f lhs rhs = .ok t ∧ Combines f lhs rhs t := by
  obtain ⟨l, hl, hlat⟩ := repeatTo?_of_suffix h.suffix.1 h.length_le
  obtain ⟨r, hr, hrat⟩ := repeatTo?_of_suffix h.suffix.2 h.length_le
  have hlr : l.1.shape = r.1.shape := l.2.trans r.2.symm
  refine ⟨zipWith f l.1 r.1 hlr, by simp only [broadcast, hs, hl, hr], l.2,
    (zipWith f l.1 r.1 hlr).size_eq, fun index hindex => ?_⟩
  have hmem : index ∈ (widerShape lhs.shape rhs.shape).indices := l.2 ▸ hindex
  obtain ⟨a, ha, hla⟩ := hlat index hmem
  obtain ⟨b, hb, hrb⟩ := hrat index hmem
  exact ⟨a, b, ha, hb, zipWith_at? f hlr hla hrb⟩

/-- Of all pairs of arrays exactly those of compatible shapes combine, element by element
into an array of the wider shape. The others fail because an extent differs or because of
an operand with more than two axes, and never after a shape was agreed on. -/
theorem broadcast_kernel (f : α → β → γ) (lhs : Tensor α) (rhs : Tensor β) :
    ((∃ t, broadcast f lhs rhs = .ok t) ↔ Compatible lhs.shape rhs.shape) ∧
    (∀ t, broadcast f lhs rhs = .ok t → Combines f lhs rhs t) ∧
    (lhs.rank ≤ 2 ∧ rhs.rank ≤ 2 → ¬ Compatible lhs.shape rhs.shape →
      ∃ m, broadcast f lhs rhs = .error m ∧ (Cause.unmatched m).kind = .shapeMismatch) ∧
    (2 < lhs.rank ∨ 2 < rhs.rank →
      ∃ m, broadcast f lhs rhs = .error m ∧ (Cause.unmatched m).kind = .incompatibleOperands) ∧
    ∀ shape, broadcast f lhs rhs ≠ .error (.repetition shape) := by
  have hrank : (2 < lhs.rank ∨ 2 < rhs.rank) ↔ ¬ (lhs.rank ≤ 2 ∧ rhs.rank ≤ 2) := by omega
  have hverdict := broadcastShape_verdict lhs.shape rhs.shape
  generalize hs : broadcastShape lhs.shape rhs.shape = s at hverdict
  cases hverdict with
  | agreed h =>
    obtain ⟨t, ht, hcombines⟩ := broadcast_of_ok f h hs
    rw [ht]
    refine ⟨iff_of_true ⟨t, rfl⟩ h, ?_, fun _ hn => absurd h hn, fun hwide => ?_, nofun⟩
    · rintro _ ⟨⟩
      exact hcombines
    · exact absurd h.1 (hrank.1 hwide)
  | @extent m hlen h hkind hm =>
    rw [broadcast_of_error hs]
    refine ⟨iff_of_false nofun h, nofun, fun _ _ => ⟨m, rfl, hkind⟩, fun hwide => ?_, ?_⟩
    · exact absurd hlen (hrank.1 hwide)
    · rintro shape ⟨⟩
      exact hm shape rfl
  | rank h =>
    rw [broadcast_of_error hs]
    have hlen : ¬ (lhs.rank ≤ 2 ∧ rhs.rank ≤ 2) := hrank.1 h
    exact ⟨iff_of_false nofun fun hc => hlen hc.1, nofun, fun h' => absurd h' hlen,
      fun _ => ⟨_, rfl, rfl⟩, nofun⟩

/-- Three rows of two columns. -/
def threeRows : Tensor Int := ⟨[3, 2], #[0, 3, 1, 1, 2, 2], rfl⟩

/-- A vector is subtracted from and by the rows of a matrix, in this order and not by the
columns, a longer vector does not go over them, and no rank above 2 goes with a number. -/
theorem threeRows_minus_vector :
    (∃ t, broadcast (· - ·) (vector #[1, 2]) threeRows = .ok t ∧ t.shape = [3, 2] ∧
      t.at? [2, 0] = some (-1)) ∧
    (∃ t, broadcast (· - ·) threeRows (vector #[1, 2]) = .ok t ∧ t.at? [2, 0] = some 1) ∧
    (∃ m, broadcast (· - ·) (vector #[1, 2, 3]) threeRows = .error m ∧
      (Cause.unmatched m).kind = .shapeMismatch) ∧
    ∃ m, broadcast (· - ·) (scalar 1) (⟨[1, 1, 0], #[], rfl⟩ : Tensor Int) = .error m ∧
      (Cause.unmatched m).kind = .incompatibleOperands := by
  have hrow : Compatible [2] [3, 2] := compatible_vector_matrix.2 rfl
  have hlong : ¬ Compatible [3] [3, 2] := mt compatible_vector_matrix.1 (by decide)
  have hmem : [2, 0] ∈ Shape.indices [3, 2] := by decide
  obtain ⟨hok, hat, -⟩ := broadcast_kernel (· - ·) (vector #[1, 2]) threeRows
  obtain ⟨hok', hat', -⟩ := broadcast_kernel (· - ·) threeRows (vector #[1, 2])
  refine ⟨?_, ?_, (broadcast_kernel _ _ _).2.2.1 ⟨by decide, by decide⟩ hlong,
    (broadcast_kernel _ _ _).2.2.2.1 (.inr (by decide))⟩
  · obtain ⟨t, ht⟩ := hok.2 hrow
    obtain ⟨hshape, -, hcombines⟩ := hat t ht
    obtain ⟨a, b, ha, hb, htab⟩ := hcombines [2, 0] (hshape ▸ hmem)
    obtain rfl : 1 = a := Option.some.inj ha
    obtain rfl : 2 = b := Option.some.inj hb
    exact ⟨t, ht, hshape, htab⟩
  · obtain ⟨t, ht⟩ := hok'.2 hrow.symm
    obtain ⟨hshape, -, hcombines⟩ := hat' t ht
    obtain ⟨a, b, ha, hb, htab⟩ := hcombines [2, 0] (hshape ▸ hmem)
    obtain rfl : 2 = a := Option.some.inj ha
    obtain rfl : 1 = b := Option.some.inj hb
    exact ⟨t, ht, htab⟩

end Tensor

end ArrayGraph
