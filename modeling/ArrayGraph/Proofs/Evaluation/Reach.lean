import ArrayGraph.Proofs.Evaluation.Scope
/-!
# What operands reach

An operand reaches the nodes that its evaluation may come to: through operands, and
through what the slots of variables hold. `Graph.reach` is the scope of all that some
operands reach, and it is closed in every graph of tame nodes, such as those of built-in
primitives.
-/

namespace ArrayGraph

variable {g : Graph} {w : World} {roots : List Value}

/-- The nodes that the roots reach, by their places in the graph. -/
inductive Graph.Reaches (g : Graph) (w : World) (roots : List Value) : Nat → Prop
  | root {h} : .node h ∈ roots → Reaches g w roots h.index
  | operand {i n h} : Reaches g w roots i → g.nodes[i]? = some n → .node h ∈ n.operands →
      Reaches g w roots h.index
  | content {i n h} : Reaches g w roots i → g.nodes[i]? = some n → n.primitive = .variable →
      w.slot i = .node h → Reaches g w roots h.index

/-- A store that the roots reach has this target. -/
def Graph.Writes (g : Graph) (w : World) (roots : List Value) (i : Nat) : Prop :=
  ∃ k n h rest, g.Reaches w roots k ∧ g.nodes[k]? = some n ∧ n.primitive = .store ∧
    n.operands = .node h :: rest ∧ h.index = i

def Graph.Loops (g : Graph) (w : World) (roots : List Value) : Prop :=
  ∃ k n, g.Reaches w roots k ∧ g.nodes[k]? = some n ∧ n.primitive.isLoop = true

def Graph.TakesArgs (g : Graph) (w : World) (roots : List Value) : Prop :=
  ∃ k n, g.Reaches w roots k ∧ g.nodes[k]? = some n ∧ n.TakesArgs

def Graph.reach (g : Graph) (w : World) (roots : List Value) : Scope :=
  ⟨g.Reaches w roots, g.Writes w roots, g.Loops w roots, g.TakesArgs w roots⟩

/-- No node of the graph is a loop. -/
def Graph.LoopFree (g : Graph) : Prop := ∀ n ∈ g.nodes, n.primitive.isLoop = false

instance (g : Graph) : Decidable g.LoopFree :=
  inferInstanceAs (Decidable (∀ n ∈ g.nodes, n.primitive.isLoop = false))

theorem not_loops_of_loopFree (h : g.LoopFree) : ¬ g.Loops w roots := by
  rintro ⟨k, n, -, hn, hl⟩
  rw [h n (Array.mem_of_getElem? hn)] at hl
  cases hl

theorem within_reach {v : Value} (hv : v ∈ roots) : v.Within (g.reach w roots) := by
  rintro h rfl
  exact .root hv

theorem withinAll_reach {vs : List Value} (hv : ∀ v ∈ vs, v ∈ roots) :
    WithinAll (g.reach w roots) vs := fun v hm => within_reach (hv v hm)

theorem Graph.Tame.closed_reach (ht : g.Tame) : (g.reach w roots).Closed g w := by
  intro i n hi hn
  refine ⟨⟨ht n (Array.mem_of_getElem? hn), ?_, ?_, ?_, ?_⟩, ?_⟩
  · rintro v hv h rfl
    exact .operand hi hn hv
  · intro h rest hp ho
    exact ⟨i, n, h, rest, hi, hn, hp, ho, rfl⟩
  · intro hl
    exact ⟨i, n, hi, hn, hl⟩
  · intro hr
    exact ⟨i, n, hi, hn, hr⟩
  · intro hp h he
    exact .content hi hn hp he

theorem closed_reach (hb : g.Builtin) : (g.reach w roots).Closed g w := hb.tame.closed_reach

theorem reaches_of_writes {i : Nat} (h : g.Writes w roots i) : g.Reaches w roots i := by
  obtain ⟨k, n, t, rest, hk, hn, -, ho, rfl⟩ := h
  exact .operand hk hn (by rw [ho]; exact List.mem_cons_self)

theorem reaches_of_closed {S : Scope} (hc : S.Closed g w) (hr : WithinAll S roots) {i : Nat}
    (h : g.Reaches w roots i) : S.node i := by
  induction h with
  | root hm => exact hr _ hm _ rfl
  | operand _ hn hm ih => exact (hc _ _ ih hn).1.operands _ hm _ rfl
  | content _ hn hp he ih => exact (hc _ _ ih hn).2 hp _ he

/-! ## An operand under arguments -/

/-- What an operand reaches under arguments: these too, if it reaches a node that
evaluates arguments. -/
def Graph.span (g : Graph) (w : World) (v : Value) (args : List Value) : Scope where
  node i := g.Reaches w [v] i ∨ g.TakesArgs w [v] ∧ g.Reaches w args i
  slot i := g.Writes w [v] i ∨ g.TakesArgs w [v] ∧ g.Writes w args i
  loops := True
  takes := g.TakesArgs w [v]

theorem within_span (v : Value) (args : List Value) : v.Within (g.span w v args) := by
  rintro h rfl
  exact .inl (.root List.mem_cons_self)

theorem given_span (v : Value) (args : List Value) : (g.span w v args).Given args :=
  fun ht _ ha _ he => .inr ⟨ht, .root (he ▸ ha)⟩

theorem Graph.Tame.closed_span (ht : g.Tame) (v : Value) (args : List Value) :
    (g.span w v args).Closed g w := by
  rintro i n (hi | ⟨hargs, hi⟩) hn
  · obtain ⟨⟨htame, ho, hs, -, htakes⟩, hc⟩ := ht.closed_reach i n hi hn
    refine ⟨⟨htame, fun a ha h he => .inl (ho a ha h he),
      fun h rest hp he => .inl (hs h rest hp he), fun _ => trivial, htakes⟩,
      fun hp h he => .inl (hc hp h he)⟩
  · obtain ⟨⟨htame, ho, hs, -, -⟩, hc⟩ := ht.closed_reach i n hi hn
    refine ⟨⟨htame, fun a ha h he => .inr ⟨hargs, ho a ha h he⟩,
      fun h rest hp he => .inr ⟨hargs, hs h rest hp he⟩, fun _ => trivial, fun _ => hargs⟩,
      fun hp h he => .inr ⟨hargs, hc hp h he⟩⟩

theorem node_of_slot_span {v : Value} {args : List Value} {i : Nat}
    (h : (g.span w v args).slot i) : (g.span w v args).node i :=
  h.imp reaches_of_writes fun h => ⟨h.1, reaches_of_writes h.2⟩

/-- The span is the least closed scope of the operand and its arguments. -/
theorem span_le {S : Scope} (hc : S.Closed g w) {v : Value} {args : List Value}
    (hv : v.Within S) (ha : S.Given args) {i : Nat} (h : (g.span w v args).node i) : S.node i := by
  have hroot : WithinAll S [v] := List.forall_mem_singleton.2 hv
  rcases h with h | ⟨⟨k, n, hk, hn, htakes⟩, h⟩
  · exact reaches_of_closed hc hroot h
  · have hS : S.takes := (hc k n (reaches_of_closed hc hroot hk) hn).1.takes htakes
    exact reaches_of_closed hc (ha hS) h

/-! ## Checking what is reached -/

def Value.leadsInto (ks : List Nat) : Value → Bool
  | .node h => ks.contains h.index
  | _ => true

theorem leadsInto_of_plain {v : Value} (h : v.Plain) (ks : List Nat) : v.leadsInto ks = true := by
  cases v with
  | node t => cases h
  | _ => rfl

/-- Nothing leads out of these nodes. -/
def Graph.closedOn (g : Graph) (w : World) (ks : List Nat) : Bool :=
  ks.all fun k => (w.slot k).leadsInto ks &&
    match g.nodes[k]? with
    | some n => n.operands.all (·.leadsInto ks)
    | none => true

theorem mem_of_leadsInto {ks : List Nat} {h : Handle} (hl : (Value.node h).leadsInto ks = true) :
    h.index ∈ ks := List.contains_iff_mem.1 hl

theorem mem_of_reaches {ks : List Nat} (hr : roots.all (·.leadsInto ks) = true)
    (hc : g.closedOn w ks = true) {i : Nat} (hi : g.Reaches w roots i) : i ∈ ks := by
  have hc' : ∀ k ∈ ks, (w.slot k).leadsInto ks = true ∧
      ∀ n, g.nodes[k]? = some n → ∀ v ∈ n.operands, v.leadsInto ks = true := by
    intro k hk
    have h := List.all_eq_true.1 hc k hk
    rw [Bool.and_eq_true] at h
    refine ⟨h.1, fun n hn => ?_⟩
    rw [hn] at h
    exact List.all_eq_true.1 h.2
  induction hi with
  | root h => exact mem_of_leadsInto (List.all_eq_true.1 hr _ h)
  | operand _ hn ho ih => exact mem_of_leadsInto ((hc' _ ih).2 _ hn _ ho)
  | content _ _ _ he ih =>
    have h := (hc' _ ih).1
    rw [he] at h
    exact mem_of_leadsInto h

end ArrayGraph
