import ArrayGraph.Proofs.Evaluation.Exchange
/-!
# Blocks in blocks

A block among the operands of a block may be opened: its own operands take its place, and so
on to any depth (`Graph.Opens`). The operands are then evaluated in the same order, and a
failure cuts them off at the same one. Of an inner block only the last value is seen, and only
where the block is the last operand itself, so all that sequences must have in common is the
last value (`SameLast`). Two sequences that follow two others stay alike, and so does a block
for its operands; the rest is an induction on the opened blocks (`opened_simulates`).
-/

namespace ArrayGraph

variable {g : Graph} {args operands leaves : List Value} {w z : World} {h h' : Handle}
  {n n' : Node}

/-! ## Opened blocks -/

/-- The second list has the operands of the first, but for some blocks that are opened: it has
what their operands come to in the same way. -/
inductive Graph.Opens (g : Graph) : List Value → List Value → Prop
  | nil : Opens g [] []
  | kept {v operands leaves} : Opens g operands leaves → Opens g (v :: operands) (v :: leaves)
  | opened {h n inner within operands leaves} : g.Hosts h n .block inner →
      Opens g inner within → Opens g operands leaves →
      Opens g (.node h :: operands) (within ++ leaves)

/-! ## One sequence after another -/

theorem exists_sequence_append {xs ys : List Value} {P : Except Halt (List Value) → Prop} :
    (∃ s, g.Sequence args (xs ++ ys) w s z ∧ P s) ↔ ∃ s₁ w₁, g.Sequence args xs w s₁ w₁ ∧
      match s₁ with
      | .ok values => ∃ s, g.Sequence args ys w₁ s z ∧ P (s.map (values ++ ·))
      | .error e => P (.error e) ∧ z = w₁ := by
  induction xs generalizing w P with
  | nil =>
    constructor
    · rintro ⟨s, hs, hp⟩
      refine ⟨_, w, .nil, s, hs, ?_⟩
      cases s <;> exact hp
    · rintro ⟨s₁, w₁, hnil, hrest⟩
      obtain ⟨rfl, rfl⟩ := sequence_nil.1 hnil
      obtain ⟨s, hs, hp⟩ := hrest
      refine ⟨s, hs, ?_⟩
      cases s <;> exact hp
  | cons x xs ih =>
    rw [List.cons_append, exists_sequence_cons]
    constructor
    · rintro ⟨r₁, w₁, hx, hrest⟩
      cases r₁ with
      | error e => exact ⟨_, w₁, .halt hx, hrest⟩
      | ok a =>
        obtain ⟨s₁, w₂, hs₁, hrest⟩ := ih.1 hrest
        refine ⟨_, w₂, .cons hx hs₁, ?_⟩
        cases s₁ with
        | error e => exact hrest
        | ok values =>
          obtain ⟨s, hs, hp⟩ := hrest
          refine ⟨s, hs, ?_⟩
          cases s <;> exact hp
    · rintro ⟨s₁, w₁, hxs, hrest⟩
      cases hxs with
      | halt hx => exact ⟨_, w₁, hx, hrest⟩
      | @cons _ _ _ a w' s₁ _ hx hs₁ =>
        refine ⟨_, w', hx, ih.2 ⟨s₁, w₁, hs₁, ?_⟩⟩
        cases s₁ with
        | error e => exact hrest
        | ok values =>
          obtain ⟨s, hs, hp⟩ := hrest
          refine ⟨s, hs, ?_⟩
          cases s <;> exact hp

/-- Both have a last value and it is the same, or neither has one. -/
def SameLast (values values' : List Value) : Prop := values.getLast? = values'.getLast?

theorem SameLast.lastValue {values values' : List Value} (h : SameLast values values') :
    lastValue values = lastValue values' :=
  congrArg (·.getD .empty) h

theorem SameLast.symm {values values' : List Value} (h : SameLast values values') :
    SameLast values' values :=
  Eq.symm h

theorem SameLast.append {xs xs' ys ys' : List Value} (hx : SameLast xs xs')
    (hy : SameLast ys ys') : SameLast (xs ++ ys) (xs' ++ ys') := by
  rw [SameLast, List.getLast?_append, List.getLast?_append, hx, hy]

/-- The one value of a block has the last value of its operands for its last. -/
theorem sameLast_lastValue {values : List Value} (h : values ≠ []) :
    SameLast values [lastValue values] := by
  rw [SameLast, List.getLast?_singleton, ArrayGraph.lastValue, List.getLast?_eq_some_getLast h]
  rfl

theorem values_ne_nil {values : List Value} (h : g.Sequence args operands w (.ok values) z)
    (hne : operands ≠ []) : values ≠ [] := by
  rintro rfl
  exact hne (List.length_eq_zero_iff.1 (sequence_length h).symm)

theorem simulates_append {like : World → World → Prop} {xs xs' ys ys' : List Value}
    (hx : Simulates like (g.Sequence args xs) (g.Sequence args xs') SameLast)
    (hy : Simulates like (g.Sequence args ys) (g.Sequence args ys') SameLast) :
    Simulates like (g.Sequence args (xs ++ ys)) (g.Sequence args (xs' ++ ys')) SameLast := by
  intro u u' s z hu hs
  obtain ⟨s₁, v, hs₁, hrest⟩ := (exists_sequence_append (P := (· = s))).1 ⟨s, hs, rfl⟩
  obtain ⟨s₁', v', hs₁', hv, hr⟩ := hx u u' s₁ v hu hs₁
  cases hr with
  | error =>
    obtain ⟨rfl, rfl⟩ := hrest
    obtain ⟨s', hs', rfl⟩ :=
      (exists_sequence_append (P := (· = .error _))).2 ⟨_, v', hs₁', rfl, rfl⟩
    exact ⟨_, v', hs', hv, .error⟩
  | @ok values values' hlast =>
    obtain ⟨s₂, hs₂, rfl⟩ := hrest
    obtain ⟨s₂', z', hs₂', hz, hr'⟩ := hy v v' s₂ z hv hs₂
    obtain ⟨s', hs', rfl⟩ := (exists_sequence_append (P := (· = s₂'.map (values' ++ ·)))).2
      ⟨_, v', hs₁', s₂', hs₂', rfl⟩
    refine ⟨_, z', hs', hz, ?_⟩
    cases hr' with
    | error => exact .error
    | ok hlast' => exact .ok (hlast.append hlast')

/-- What a second way comes to, a third one may come to instead. -/
theorem simulates_trans {vs xs ys : List Value}
    (h : Simulates g.Alike (g.Sequence args vs) (g.Sequence args xs) SameLast)
    (h' : Simulates g.Alike (g.Sequence args xs) (g.Sequence args ys) SameLast) :
    Simulates g.Alike (g.Sequence args vs) (g.Sequence args ys) SameLast := by
  intro u u' s z hu hs
  -- the sequence in the middle starts where the first one does
  obtain ⟨t, y, ht, hy, hst⟩ := h u u s z ⟨hu.wired, rfl⟩ hs
  obtain ⟨s', z', hs', hz, hts⟩ := h' u u' t y hu ht
  refine ⟨s', z', hs', ⟨hy.wired, hy.slots.trans hz.slots⟩, ?_⟩
  cases hst with
  | error =>
    cases hts
    exact .error
  | ok hlast =>
    cases hts with
    | ok hlast' => exact .ok (Eq.trans hlast hlast')

/-! ## A block for its operands -/

section Opened

variable (hb : g.Builtin) (ha : ∀ a ∈ args, a.Below g.nodes.size)

include hb ha

theorem operands_to_block (hn : g.Hosts h n .block operands) (hne : operands ≠ []) :
    Simulates g.Alike (g.Sequence args operands) (g.Sequence args [.node h]) SameLast := by
  intro u u' s z hu hs
  obtain ⟨s', z', hs', hz, hr⟩ := sequence_to_block hb ha hn u u' s z hu hs
  refine ⟨s', z', hs', hz, ?_⟩
  cases hr with
  | error => exact .error
  | ok he =>
    subst he
    exact .ok (sameLast_lastValue (values_ne_nil hs hne))

theorem block_to_operands (hn : g.Hosts h n .block operands) (hne : operands ≠ []) :
    Simulates g.Alike (g.Sequence args [.node h]) (g.Sequence args operands) SameLast := by
  intro u u' s z hu hs
  obtain ⟨s', z', hs', hz, hr⟩ := block_to_sequence hb ha hn u u' s z hu hs
  refine ⟨s', z', hs', hz, ?_⟩
  cases hr with
  | error => exact .error
  | ok he =>
    subst he
    exact .ok (sameLast_lastValue (values_ne_nil hs' hne)).symm

end Opened

theorem operands_ne_nil (hw : g.Wired w) (hn : g.Hosts h n .block operands) : operands ≠ [] := by
  rintro rfl
  have hchecked := hw.checked n (Array.mem_of_getElem? hn.node)
  rw [hn.primitive, hn.operands] at hchecked
  cases hchecked

/-- Sequences agree when one has the blocks of the other opened. -/
theorem opened_simulates (hw : g.Wired w) (ha : ∀ a ∈ args, a.Below g.nodes.size)
    (ho : g.Opens operands leaves) :
    Simulates g.Alike (g.Sequence args operands) (g.Sequence args leaves) SameLast ∧
      Simulates g.Alike (g.Sequence args leaves) (g.Sequence args operands) SameLast := by
  have hb := hw.builtin
  have hself : ∀ vs, Simulates g.Alike (g.Sequence args vs) (g.Sequence args vs) SameLast :=
    fun vs => (sequence_simulates fun v _ => evaluates_alike_states hb v).imp
      fun _ _ => congrArg List.getLast?
  induction ho with
  | nil => exact ⟨hself [], hself []⟩
  | @kept v operands leaves _ ih =>
    exact ⟨simulates_append (hself [v]) ih.1, simulates_append (hself [v]) ih.2⟩
  | opened hn _ _ ihinner ihrest =>
    have hne := operands_ne_nil hw hn
    have hto := simulates_trans (block_to_operands hb ha hn hne) ihinner.1
    have hfrom := simulates_trans ihinner.2 (operands_to_block hb ha hn hne)
    exact ⟨simulates_append hto ihrest.1, simulates_append hfrom ihrest.2⟩

/-- A block and the same block with blocks in it opened both end or both go on for ever, and
with the same outcome they leave the same in the slots. -/
theorem nested_blocks_flatten (hw : g.Wired w) (ha : ∀ a ∈ args, a.Below g.nodes.size)
    (hn : g.Hosts h n .block operands) (hn' : g.Hosts h' n' .block leaves)
    (ho : g.Opens operands leaves) :
    ((∃ r z, g.Evaluates (.node h) args w r z) ↔ ∃ r z, g.Evaluates (.node h') args w r z) ∧
    ∀ r slots, (∃ z, g.Evaluates (.node h) args w r z ∧ z.slots = slots) ↔
      ∃ z, g.Evaluates (.node h') args w r z ∧ z.slots = slots := by
  obtain ⟨hopen, hclose⟩ := opened_simulates hw ha ho
  have hstates : g.Alike (n.entered w) (n'.entered w) :=
    Graph.Alike.of_entered (Graph.Alike.entered ⟨hw, rfl⟩ n') n
  have hsame : ∀ r slots, (∃ z, g.Evaluates (.node h) args w r z ∧ z.slots = slots) ↔
      ∃ z, g.Evaluates (.node h') args w r z ∧ z.slots = slots := by
    intro r slots
    simp only [evaluates_block_hosted hw ha hn, evaluates_block_hosted hw ha hn']
    exact slots_iff hopen hclose (fun _ _ hl => SameLast.lastValue hl)
      (fun _ _ hl => SameLast.lastValue hl) hstates
  refine ⟨⟨?_, ?_⟩, hsame⟩
  · rintro ⟨r, z, he⟩
    obtain ⟨z', he', -⟩ := (hsame r z.slots).1 ⟨z, he, rfl⟩
    exact ⟨r, z', he'⟩
  · rintro ⟨r, z, he⟩
    obtain ⟨z', he', -⟩ := (hsame r z.slots).2 ⟨z, he, rfl⟩
    exact ⟨r, z', he'⟩

/-- A store and a variable in a block in a block on a pool, and all in one block. -/
def nested : Graph where
  nodes := #[⟨.variable, [.int 1], ⟨"slot", "sample"⟩, .here⟩,
    ⟨.store, [.node ⟨0, "slot"⟩, .int 2], ⟨"two", "sample"⟩, .here⟩,
    ⟨.block, [.node ⟨0, "slot"⟩], ⟨"inner", "sample"⟩, .here⟩,
    ⟨.block, [.node ⟨1, "two"⟩, .node ⟨2, "inner"⟩], ⟨"middle", "sample"⟩,
      ⟨⟨1⟩, .pool 2 "pool"⟩⟩,
    ⟨.block, [.int 9, .node ⟨3, "middle"⟩], ⟨"outer", "sample"⟩, .here⟩,
    ⟨.block, [.int 9, .node ⟨1, "two"⟩, .node ⟨0, "slot"⟩], ⟨"flat", "sample"⟩, .here⟩]

/-- The variable is read after the store either way. -/
theorem nested_flattened : ∃ z, nested.Evaluates (.node ⟨5, "flat"⟩) [] ⟨#[.int 1], #[]⟩
    (.ok (.int 2)) z ∧ z.slots = #[.int 2] := by
  have hw : nested.Wired ⟨#[.int 1], #[]⟩ := by
    refine ⟨by decide, ?_, by decide, fun i _ _ _ => ?_⟩
    · simp only [nested, List.mem_toArray, List.forall_mem_cons]
      exact ⟨rfl, rfl, rfl, rfl, rfl, rfl, List.forall_mem_nil _⟩
    · exact below_slot (by simp [Value.Below]) i
  have hpool : Locality.Served ⟨⟨1⟩, .pool 2 "pool"⟩ := @served_of_pool ⟨2, "pool"⟩ ⟨1⟩ _ rfl
  have hinner : nested.Hosts ⟨2, "inner"⟩ _ .block _ := ⟨rfl, served_of_inline rfl, rfl, rfl⟩
  have hmiddle : nested.Hosts ⟨3, "middle"⟩ _ .block _ := ⟨rfl, hpool, rfl, rfl⟩
  have houter : nested.Hosts ⟨4, "outer"⟩ _ .block _ := ⟨rfl, served_of_inline rfl, rfl, rfl⟩
  have hflat : nested.Hosts ⟨5, "flat"⟩ _ .block _ := ⟨rfl, served_of_inline rfl, rfl, rfl⟩
  have hopens : nested.Opens [.int 9, .node ⟨3, "middle"⟩]
      [.int 9, .node ⟨1, "two"⟩, .node ⟨0, "slot"⟩] :=
    .kept (.opened hmiddle (.kept (.opened hinner (.kept .nil) .nil)) .nil)
  have hsame := (nested_blocks_flatten hw (List.forall_mem_nil _) houter hflat hopens).2
  exact (hsame _ _).1 ⟨_, ⟨40, rfl⟩, rfl⟩

end ArrayGraph
