import ArrayGraph.Proofs.Evaluation.Agreement
import ArrayGraph.Proofs.Evaluation.Reach
/-!
# Operands in sequence

`Graph.Sequence` evaluates operands one after the other, each on the state that the last
one left. That is what a block does. A join makes the jobs of all its operands before
any of them runs, but to make a job reads the state for a variable only: without loops
the operands of a join run in sequence as well, only that a variable among them gives
what its slot held at first (`Graph.seen`). See `join_in_sequence`.
-/

namespace ArrayGraph

variable {g : Graph}

/-- Operands evaluated one after the other, up to the first that has no value. -/
inductive Graph.Sequence (g : Graph) (args : List Value) :
    List Value → World → Except Halt (List Value) → World → Prop
  | nil {w} : Sequence g args [] w (.ok []) w
  | cons {v vs w x w' r z} : g.Evaluates v args w (.ok x) w' → Sequence g args vs w' r z →
      Sequence g args (v :: vs) w (r.map (x :: ·)) z
  | halt {v vs w e z} : g.Evaluates v args w (.error e) z →
      Sequence g args (v :: vs) w (.error e) z

theorem sequence_nil {args : List Value} {w z : World} {s : Except Halt (List Value)} :
    g.Sequence args [] w s z ↔ s = .ok [] ∧ z = w := by
  constructor
  · intro h
    cases h
    exact ⟨rfl, rfl⟩
  · rintro ⟨rfl, rfl⟩
    exact .nil

theorem exists_sequence_nil {args : List Value} {w z : World}
    {P : Except Halt (List Value) → Prop} :
    (∃ s, g.Sequence args [] w s z ∧ P s) ↔ P (.ok []) ∧ z = w := by
  constructor
  · rintro ⟨s, hs, hp⟩
    obtain ⟨rfl, rfl⟩ := sequence_nil.1 hs
    exact ⟨hp, rfl⟩
  · rintro ⟨hp, rfl⟩
    exact ⟨_, .nil, hp⟩

theorem exists_sequence_cons {v : Value} {vs args : List Value} {w z : World}
    {P : Except Halt (List Value) → Prop} :
    (∃ s, g.Sequence args (v :: vs) w s z ∧ P s) ↔ ∃ r₁ w₁, g.Evaluates v args w r₁ w₁ ∧
      match r₁ with
      | .ok x => ∃ s, g.Sequence args vs w₁ s z ∧ P (s.map (x :: ·))
      | .error e => P (.error e) ∧ z = w₁ := by
  constructor
  · rintro ⟨s, hs, hp⟩
    cases hs with
    | cons hv hs => exact ⟨_, _, hv, _, hs, hp⟩
    | halt hv => exact ⟨_, _, hv, hp, rfl⟩
  · rintro ⟨r₁, w₁, hv, h⟩
    cases r₁ with
    | ok x =>
      obtain ⟨s, hs, hp⟩ := h
      exact ⟨_, .cons hv hs, hp⟩
    | error e =>
      obtain ⟨hp, rfl⟩ := h
      exact ⟨_, .halt hv, hp⟩

theorem sequence_length {vs args values : List Value} {w z : World}
    (h : g.Sequence args vs w (.ok values) z) : values.length = vs.length := by
  generalize hs : Except.ok values = s at h
  induction h generalizing values with
  | nil => cases hs; rfl
  | @cons v vs w x w' r z _ _ ih =>
    cases r with
    | error e => cases hs
    | ok values' =>
      cases hs
      exact congrArg (· + 1) (ih rfl)
  | halt => cases hs

theorem evaluates_unique {v : Value} {args : List Value} {w z z' : World} {r r' : Outcome}
    (h : g.Evaluates v args w r z) (h' : g.Evaluates v args w r' z') : r = r' ∧ z = z' :=
  Job.Runs.unique h h'

theorem sequence_unique {vs args : List Value} {w z z' : World} {s s' : Except Halt (List Value)}
    (h : g.Sequence args vs w s z) (h' : g.Sequence args vs w s' z') : s = s' ∧ z = z' := by
  induction h generalizing s' with
  | nil =>
    obtain ⟨rfl, rfl⟩ := sequence_nil.1 h'
    exact ⟨rfl, rfl⟩
  | cons hv _ ih =>
    cases h' with
    | cons hv' hvs' =>
      obtain ⟨he, rfl⟩ := evaluates_unique hv hv'
      cases he
      obtain ⟨rfl, rfl⟩ := ih hvs'
      exact ⟨rfl, rfl⟩
    | halt hv' => cases (evaluates_unique hv hv').1
  | halt hv =>
    cases h' with
    | cons hv' hvs' => cases (evaluates_unique hv hv').1
    | halt hv' =>
      obtain ⟨he, rfl⟩ := evaluates_unique hv hv'
      cases he
      exact ⟨rfl, rfl⟩

/-! ## Blocks -/

def lastValue (values : List Value) : Value := values.getLast?.getD .empty

theorem lastValue_cons {x : Value} {values : List Value} (h : values ≠ []) :
    lastValue (x :: values) = lastValue values := by
  cases values with
  | nil => exact absurd rfl h
  | cons y values => simp [lastValue, List.getLast?_cons_cons]

theorem map_lastValue {v x : Value} {vs args : List Value} {w z : World}
    {s : Except Halt (List Value)} (h : g.Sequence args (v :: vs) w s z) :
    (s.map (x :: ·)).map lastValue = s.map lastValue := by
  cases s with
  | error e => rfl
  | ok values =>
    have hl := sequence_length h
    have hne : values ≠ [] := by
      rintro rfl
      cases hl
    exact congrArg Except.ok (lastValue_cons hne)

theorem runs_done {r r' : Outcome} {w z : World} : (Job.done r').Runs g w r z ↔ r = r' ∧ z = w :=
  Job.runs_step rfl

/-- The operands of a block are evaluated in sequence. -/
theorem runs_block {args rest : List Value} {v : Value} {w z : World} {r : Outcome} :
    (g.await (.block args rest) v args w).1.Runs g (g.await (.block args rest) v args w).2 r z ↔
      ∃ s, g.Sequence args (v :: rest) w s z ∧ r = s.map lastValue := by
  induction rest generalizing v w with
  | nil =>
    rw [runs_await, exists_sequence_cons]
    refine exists_congr fun r₁ => exists_congr fun w₁ => and_congr_right fun _ => ?_
    cases r₁ with
    | error e => exact Iff.rfl
    | ok x =>
      dsimp only
      rw [exists_sequence_nil]
      exact runs_done
  | cons next rest ih =>
    rw [runs_await, exists_sequence_cons]
    refine exists_congr fun r₁ => exists_congr fun w₁ => and_congr_right fun _ => ?_
    cases r₁ with
    | error e => exact Iff.rfl
    | ok x =>
      refine Iff.trans ih ?_
      refine exists_congr fun s => and_congr_right fun hs => ?_
      rw [map_lastValue hs]

/-! ## Jobs made before their turn -/

/-- Every node runs where its caller stands. -/
def Graph.Inline (g : Graph) : Prop := ∀ n ∈ g.nodes, n.locality.isInline = true

instance (g : Graph) : Decidable g.Inline :=
  inferInstanceAs (Decidable (∀ n ∈ g.nodes, n.locality.isInline = true))

/-- What an operand stands for when its job is made: a variable for what its slot holds. -/
def Graph.seen (g : Graph) (w : World) (v : Value) : Value :=
  match v with
  | .node h => if g.isVariable v then w.slot h.index else v
  | v => v

theorem dispatch_inline {l : Locality} (h : l.isInline = true) (site : Site) (j : Job) (w : World) :
    l.dispatch site j w = (j, w) := by
  unfold Locality.isInline at h
  split at h
  · rename_i ht
    simp only [Locality.dispatch, ht]
  · cases h

/-- To make a job has no effect. -/
theorem launch_inline (hi : g.Inline) (v : Value) (args : List Value) (w : World) :
    (g.launch v args w).2 = w := by
  cases v with
  | node h =>
    simp only [Graph.launch]
    split
    · rename_i n hn
      rw [dispatch_inline (hi n (Array.mem_of_getElem? hn))]
    · rfl
  | _ => rfl

theorem launchAll_inline (hi : g.Inline) (args vs : List Value) (w : World) :
    (g.launchAll args vs w).2 = w := by
  induction vs with
  | nil => rfl
  | cons v vs ih => simp only [Graph.launchAll, launch_inline hi, ih]

/-- The slot of a node that is no variable does not matter to it. -/
theorem run_content {n : Node} (hn : n.primitive ≠ .variable) (c c' : Value) (args : List Value)
    (w : World) : n.run g c args w = n.run g c' args w := by
  obtain ⟨p, operands, site, locality⟩ := n
  cases p with
  | «variable» => exact absurd rfl hn
  | _ => rfl

theorem evaluates_node {h : Handle} {n : Node} {args : List Value} {w z : World} {r : Outcome}
    (hn : g.node? h = some n) (hi : n.locality.isInline = true) :
    g.Evaluates (.node h) args w r z ↔
      (n.run g (w.slot h.index) args w).1.Runs g (n.run g (w.slot h.index) args w).2 r z := by
  rw [evaluates_iff]
  simp only [Graph.launch, hn, dispatch_inline hi]
  exact Job.runs_step rfl

/-- A job made on one state and run on another does what its operand, seen on the first,
does on the second. -/
theorem runs_launch_seen (hi : g.Inline) {v : Value} {args : List Value} {w₀ w z : World}
    {r : Outcome} :
    (g.launch v args w₀).1.Runs g w r z ↔ g.Evaluates (g.seen w₀ v) args w r z := by
  cases v with
  | node h =>
    cases hn : g.node? h with
    | none =>
      have hv : g.isVariable (.node h) = false := by simp [Graph.isVariable, hn]
      simp [Graph.launch, Graph.seen, evaluates_iff, hn, hv]
    | some n =>
      have hloc := hi n (Array.mem_of_getElem? hn)
      have hl : (g.launch (.node h) args w₀).1 = .start n (w₀.slot h.index) args := by
        simp only [Graph.launch, hn, dispatch_inline hloc]
      rw [hl]
      by_cases hp : n.primitive = .variable
      · -- the content is launched only now, but it is that of `w₀`
        have hv : g.isVariable (.node h) = true := by simp [Graph.isVariable, hn, hp]
        simp only [Graph.seen, hv, if_true]
        have hs : (Job.start n (w₀.slot h.index) args).step g w =
            (.moved (g.launch (w₀.slot h.index) args w).1,
              (g.launch (w₀.slot h.index) args w).2) := by
          simp only [Job.step, Node.run, hp]
        exact Job.runs_step hs
      · have hv : g.isVariable (.node h) = false := by simp [Graph.isVariable, hn, hp]
        simp only [Graph.seen, hv, Bool.false_eq_true, if_false]
        rw [evaluates_node hn hloc, run_content hp (w.slot h.index) (w₀.slot h.index)]
        exact Job.runs_step rfl
  | _ => exact Iff.rfl

/-! ## Joins -/

section Joins

variable {S : Scope} {args : List Value} {w₀ : World} (hi : g.Inline) (hc : S.Closed g w₀)
  (ha : S.Given args)

include hi hc ha

theorem runs_joined_launch {k : Join} {turned coming : List Job} {o : Value} {w z : World}
    {r : Outcome} (hl : ¬ S.loops) (ho : o.Within S) (hk : w₀.Kept S w) :
    (Job.joined k turned (g.launch o args w₀).1 coming).Runs g w r z ↔
      ∃ r₁ w₁, g.Evaluates (g.seen w₀ o) args w r₁ w₁ ∧
        (k.after turned coming (.finished r₁)).Runs g w₁ r z := by
  have hj : (g.launch o args w₀).1.Within S := launch_within hc ho ha
  rw [runs_joined (quiet_of_within hj (hc.kept hk) hl)]
  simp only [runs_launch_seen hi]

theorem evaluates_seen_kept {o : Value} {w z : World} {r : Outcome} (ho : o.Within S)
    (hk : w₀.Kept S w)
    (h : g.Evaluates (g.seen w₀ o) args w r z) : w₀.Kept S z := by
  have hrun := (runs_launch_seen hi).2 h
  exact hk.trans (runs_within hrun (launch_within hc ho ha) (hc.kept hk)).2

/-- The operands of a join from the turn of one of them on, where `vs` are the values of
those before it. -/
theorem runs_joined_sequence (vs : List Value) {k : Join} {os : List Value} {o : Value}
    {w z : World} {r : Outcome} (hl : ¬ S.loops) (ho : WithinAll S (o :: os)) (hk : w₀.Kept S w) :
    (Job.joined k (Job.finished vs).reverse (g.launch o args w₀).1
        (os.map fun v => (g.launch v args w₀).1)).Runs g w r z ↔
      ∃ s, g.Sequence args ((o :: os).map (g.seen w₀)) w s z ∧
        r = s.bind fun values => k.finish (vs ++ values) := by
  -- the scope stays closed from operand to operand, since each keeps `w₀`
  induction os generalizing vs o w with
  | nil =>
    rw [withinAll_cons] at ho
    rw [runs_joined_launch hi hc ha hl ho.1 hk, List.map_cons (f := g.seen w₀),
      exists_sequence_cons]
    refine exists_congr fun r₁ => exists_congr fun w₁ => and_congr_right fun _ => ?_
    cases r₁ with
    | error e => exact Iff.rfl
    | ok x =>
      simp only [Join.after, List.map_nil, finished_snoc, turn_finished]
      rw [exists_sequence_nil]
      exact Iff.rfl
  | cons o' os ih =>
    rw [withinAll_cons] at ho
    rw [runs_joined_launch hi hc ha hl ho.1 hk, List.map_cons (f := g.seen w₀),
      exists_sequence_cons]
    refine exists_congr fun r₁ => exists_congr fun w₁ => and_congr_right fun hv => ?_
    cases r₁ with
    | error e => exact Iff.rfl
    | ok x =>
      have hk' := evaluates_seen_kept hi hc ha ho.1 hk hv
      simp only [Join.after, finished_snoc]
      refine Iff.trans (ih (vs ++ [x]) ho.2 hk') ?_
      refine exists_congr fun s => and_congr_right fun _ => ?_
      cases s with
      | error e => exact Iff.rfl
      | ok values => simp only [Except.map, Except.bind, List.append_assoc, List.cons_append,
          List.nil_append]

theorem runs_join {k : Join} {os : List Value} {z : World} {r : Outcome} (hl : ¬ S.loops)
    (ho : WithinAll S os) :
    (g.join k os args w₀).1.Runs g (g.join k os args w₀).2 r z ↔
      ∃ s, g.Sequence args (os.map (g.seen w₀)) w₀ s z ∧ r = s.bind k.finish := by
  rw [join_eq, launchAll_inline hi, launchAll_jobs rfl]
  cases os with
  | nil =>
    rw [List.map_nil, List.map_nil, exists_sequence_nil]
    exact runs_done
  | cons o os => exact runs_joined_sequence hi hc ha [] hl ho (.refl w₀)

end Joins

/-! ## Nodes that join -/

theorem runs_join_of_not_loops {k : Join} {os args : List Value} {w z : World} {r : Outcome}
    (hb : g.Builtin) (hi : g.Inline) (hl : ¬ g.Loops w (os ++ args)) :
    (g.join k os args w).1.Runs g (g.join k os args w).2 r z ↔
      ∃ s, g.Sequence args (os.map (g.seen w)) w s z ∧ r = s.bind k.finish := by
  have hc : (g.reach w (os ++ args)).Closed g w := closed_reach hb
  have hargs : (g.reach w (os ++ args)).Given args :=
    (withinAll_reach fun v => List.mem_append_right os).given
  have hos : WithinAll (g.reach w (os ++ args)) os :=
    withinAll_reach fun v => List.mem_append_left args
  exact runs_join hi hc hargs hl hos

theorem seen_of_not_variable {v : Value} (h : g.isVariable v = false) (w : World) :
    g.seen w v = v := by
  cases v with
  | node h' => simp [Graph.seen, h]
  | _ => rfl

theorem map_seen {os : List Value} (h : ∀ v ∈ os, g.isVariable v = false) (w : World) :
    os.map (g.seen w) = os := by
  calc os.map (g.seen w) = os.map id :=
        List.map_congr_left fun v hv => seen_of_not_variable (h v hv) w
    _ = os := List.map_id os

theorem evaluates_block {h : Handle} {n : Node} {args : List Value} {w z : World} {r : Outcome}
    (hn : g.node? h = some n) (hi : n.locality.isInline = true) (hp : n.primitive = .block) :
    g.Evaluates (.node h) args w r z ↔
      ∃ s, g.Sequence args n.operands w s z ∧ r = s.map lastValue := by
  rw [evaluates_node hn hi]
  simp only [Node.run, hp]
  cases n.operands with
  | nil =>
    rw [exists_sequence_nil]
    exact runs_done
  | cons v rest => exact runs_block

/-- A join whose operands reach no loop evaluates them in sequence, each on the state that
the last one left and up to the first error, but a variable among them for what its slot
held at first. So a parallel block of no variables does what a block of the same operands
does. -/
theorem join_in_sequence (hb : g.Builtin) (hi : g.Inline) :
    (∀ h n k args w, g.node? h = some n → n.join? = some k → n.operands ≠ [] →
      n.primitive.accepts n.operands.length = true → ¬ g.Loops w (n.operands ++ args) →
      ∀ r z, g.Evaluates (.node h) args w r z ↔
        ∃ s, g.Sequence args (n.operands.map (g.seen w)) w s z ∧ r = s.bind k.finish) ∧
    (∀ h n h' n' args w, g.node? h = some n → g.node? h' = some n' →
      n.primitive = .parallelBlock → n'.primitive = .block → n.operands = n'.operands →
      (∀ v ∈ n.operands, g.isVariable v = false) → ¬ g.Loops w (n.operands ++ args) →
      ∀ r z, g.Evaluates (.node h) args w r z ↔ g.Evaluates (.node h') args w r z) := by
  constructor
  · intro h n k args w hn hk hne ha hl r z
    rw [evaluates_node hn (hi n (Array.mem_of_getElem? hn)), run_join hk hne ha]
    exact runs_join_of_not_loops hb hi hl
  · intro h n h' n' args w hn hn' hp hp' ho hv hl r z
    rw [evaluates_node hn (hi n (Array.mem_of_getElem? hn)),
      evaluates_block hn' (hi n' (Array.mem_of_getElem? hn')) hp', ← ho]
    simp only [Node.run, hp]
    rw [runs_join_of_not_loops hb hi hl, map_seen hv]
    refine exists_congr fun s => and_congr_right fun _ => ?_
    cases s <;> exact Iff.rfl

/-- A variable that holds one, two stores into it, and what stands them side by side. -/
def sharedSlot : Graph where
  nodes := #[⟨.variable, [.int 1], ⟨"slot", "sample"⟩, .here⟩,
    ⟨.store, [.node ⟨0, "slot"⟩, .int 2], ⟨"two", "sample"⟩, .here⟩,
    ⟨.store, [.node ⟨0, "slot"⟩, .int 3], ⟨"three", "sample"⟩, .here⟩,
    ⟨.parallelBlock, [.node ⟨1, "two"⟩, .node ⟨2, "three"⟩, .node ⟨0, "slot"⟩],
      ⟨"all", "sample"⟩, .here⟩,
    ⟨.parallelBlock, [.node ⟨1, "two"⟩, .node ⟨2, "three"⟩], ⟨"stores", "sample"⟩, .here⟩,
    ⟨.block, [.node ⟨1, "two"⟩, .node ⟨2, "three"⟩], ⟨"block", "sample"⟩, .here⟩]

/-- The variable gives its first content though both stores run before it, and the last
store wins side by side as it does in a block. -/
theorem sharedSlot_in_sequence :
    (∃ s, sharedSlot.Sequence [] [.node ⟨1, "two"⟩, .node ⟨2, "three"⟩, .int 1] ⟨#[.int 1], #[]⟩
        s ⟨#[.int 3], #[]⟩ ∧ Except.ok (.int 1) = s.bind Join.last.finish) ∧
      sharedSlot.Evaluates (.node ⟨5, "block"⟩) [] ⟨#[.int 1], #[]⟩ (.ok .empty)
        ⟨#[.int 3], #[]⟩ := by
  have hb : sharedSlot.Builtin := by decide
  have hi : sharedSlot.Inline := by decide
  have hl : sharedSlot.LoopFree := by decide
  obtain ⟨hjoin, hblock⟩ := join_in_sequence hb hi
  constructor
  · have he : sharedSlot.Evaluates (.node ⟨3, "all"⟩) [] ⟨#[.int 1], #[]⟩ (.ok (.int 1))
        ⟨#[.int 3], #[]⟩ := ⟨20, rfl⟩
    exact (hjoin ⟨3, "all"⟩ _ .last [] _ rfl rfl nofun rfl (not_loops_of_loopFree hl) _ _).1 he
  · have hv : ∀ v ∈ [Value.node ⟨1, "two"⟩, .node ⟨2, "three"⟩], sharedSlot.isVariable v = false :=
      List.forall_mem_cons.2 ⟨rfl, List.forall_mem_singleton.2 rfl⟩
    have he : sharedSlot.Evaluates (.node ⟨4, "stores"⟩) [] ⟨#[.int 1], #[]⟩ (.ok .empty)
        ⟨#[.int 3], #[]⟩ := ⟨20, rfl⟩
    exact (hblock ⟨4, "stores"⟩ _ ⟨5, "block"⟩ _ [] _ rfl rfl rfl rfl rfl hv
      (not_loops_of_loopFree hl) _ _).1 he

end ArrayGraph
