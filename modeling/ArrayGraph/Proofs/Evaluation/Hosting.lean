import ArrayGraph.Proofs.Evaluation.Bounds
import ArrayGraph.Proofs.Evaluation.Order
/-!
# Nodes on their localities

Where a node runs shows in the log and in how a panic is reported, and nowhere else. In a
`Wired` graph nothing panics, so a node that its transport reaches comes to what it does
first (`evaluates_hosted`), from the state with its entry in the log (`Node.entered`). A
value that it comes to there is its value in any graph (`evaluates_entered`).
-/

namespace ArrayGraph

variable {g : Graph} {w w' z : World} {args : List Value} {r : Outcome}

/-! ## Graphs without loose ends -/

/-- All nodes are of built-in primitives and have passed the check, and no handle in an
operand or a variable leads out of the graph. -/
structure Graph.Wired (g : Graph) (w : World) : Prop where
  builtin : g.Builtin
  checked : ∀ n ∈ g.nodes, g.check n.primitive n.operands = .ok ()
  operands : ∀ n ∈ g.nodes, ∀ v ∈ n.operands, v.Below g.nodes.size
  holds : g.Holds w

/-- That is so in every session that creations and evaluations lead to. -/
theorem reachable_wired {s : Session} (h : s.Reachable) : s.graph.Wired s.world :=
  have hs := (reachable_sound h).1
  ⟨hs.builtin, hs.checked, hs.below, hs.holds⟩

theorem Graph.Wired.kept (h : g.Wired w) (hk : w.Kept .all w') : g.Wired w' where
  builtin := h.builtin
  checked := h.checked
  operands := h.operands
  holds i n hn hp := by
    rcases hk.slot i with e | ⟨-, hplain⟩
    · rw [e]
      exact h.holds i n hn hp
    · exact below_of_plain hplain

theorem Graph.Wired.evaluates (h : g.Wired w) {v : Value} (he : g.Evaluates v args w r z) :
    g.Wired z :=
  h.kept (evaluates_builtin h.builtin he).2

theorem below_of_node {h : Handle} {n : Node} (hn : g.node? h = some n) :
    (Value.node h).Below g.nodes.size := by
  rintro h' ⟨⟩
  exact (Array.getElem?_eq_some_iff.1 hn).1

/-- The scope of all nodes of the graph. -/
def Graph.whole (g : Graph) : Scope := ⟨(· < g.nodes.size), fun _ => True, True, True⟩

theorem Graph.Wired.encloses (h : g.Wired w) : g.whole.Encloses g w where
  present _ hi := hi
  operands _ _ _ hn := h.operands _ (Array.mem_of_getElem? hn)
  content i n _ hn hp := h.holds i n hn hp

/-- No evaluation panics or is told of a panic. -/
theorem evaluates_unbroken (hw : g.Wired w) (ha : ∀ a ∈ args, a.Below g.nodes.size) {v : Value}
    (hv : v.Below g.nodes.size) (h : g.Evaluates v args w r z) : ¬ (Job.done r).Broken := by
  intro hbroken
  have hlaunch : (g.launch v args w).1.InBounds g g.whole := inBounds_launch hw.encloses hv ha
  have hin := scheduled_inBounds hw.checked (schedules_of_evaluates h) hlaunch
    (hw.encloses.of_slots (launch_slots ..))
  obtain ⟨i, n, -, hn, hp⟩ := explodes_of_broken hbroken hin
  have hb := hw.builtin n (Array.mem_of_getElem? hn)
  rw [hp] at hb
  cases hb

/-! ## One node -/

/-- The state in which a node begins to run: a recorder has made its entry. -/
def Node.entered (n : Node) (w : World) : World :=
  match n.locality.transport with
  | .recorder line => w.write (line n.locality.id n.site)
  | _ => w

@[simp] theorem slots_entered (n : Node) (w : World) : (n.entered w).slots = w.slots := by
  unfold Node.entered
  split <;> rfl

@[simp] theorem slot_entered (n : Node) (w : World) (i : Nat) :
    (n.entered w).slot i = w.slot i := by
  simp only [World.slot, slots_entered]

theorem Graph.Wired.entered (h : g.Wired w) (n : Node) : g.Wired (n.entered w) :=
  h.kept (.of_slots (slots_entered n w))

theorem reported_eq {id : LocalityId} {site : Site} (h : r ≠ .error .panic) :
    r.reported id site = r := by
  rcases r with (e | -) | v
  · rfl
  · exact absurd rfl h
  · rfl

/-- The node of this primitive and these operands, on a locality that its transport
reaches. -/
structure Graph.Hosts (g : Graph) (h : Handle) (n : Node) (p : Primitive)
    (operands : List Value) : Prop where
  node : g.node? h = some n
  served : n.locality.Served
  primitive : n.primitive = p
  operands : n.operands = operands

/-- What the caller of a node learns of how it ended: a pool reports a panic. -/
def Node.delivered (n : Node) (r : Outcome) : Outcome :=
  match n.locality.transport with
  | .pool _ _ => r.reported n.locality.id n.site
  | _ => r

theorem delivered_eq (n : Node) (h : r ≠ .error .panic) : n.delivered r = r := by
  unfold Node.delivered
  split
  · exact reported_eq h
  · rfl

theorem delivered_broken (n : Node) : (Job.done (n.delivered (.error .panic))).Broken := by
  unfold Node.delivered
  split
  · exact .incomplete
  · exact .panic

/-- A node that its transport reaches delivers what it comes to. -/
theorem evaluates_delivered {h : Handle} {n : Node} (hn : g.node? h = some n)
    (hs : n.locality.Served) : g.Evaluates (.node h) args w r z ↔
      ∃ r₁, (n.run g (w.slot h.index) args (n.entered w)).1.Runs g
        (n.run g (w.slot h.index) args (n.entered w)).2 r₁ z ∧ r = n.delivered r₁ := by
  simp only [← Job.runs_begin, evaluates_iff, Graph.launch, hn, Locality.dispatch, Node.entered,
    Node.delivered]
  cases ht : n.locality.transport with
  | inline | recorder line => simp
  | pool size name =>
    simp only [if_pos (hs size name ht)]
    exact runs_placed_iff

/-- So it does under any schedule. -/
theorem schedules_delivered {h : Handle} {n : Node} (hn : g.node? h = some n)
    (hs : n.locality.Served) : g.Schedules (.node h) args w (.done r) z ↔
      ∃ r₁, (n.run g (w.slot h.index) args (n.entered w)).1.Scheduled g
        (n.run g (w.slot h.index) args (n.entered w)).2 (.done r₁) z ∧ r = n.delivered r₁ := by
  simp only [← scheduled_begin, Graph.Schedules, Graph.launch, hn, Locality.dispatch, Node.entered,
    Node.delivered]
  cases ht : n.locality.transport with
  | inline | recorder line => simp
  | pool size name =>
    simp only [if_pos (hs size name ht)]
    exact scheduled_placed

/-- If it does not panic, it is evaluated to what its first action comes to. -/
theorem evaluates_run {h : Handle} {n : Node} (hn : g.node? h = some n)
    (hs : n.locality.Served)
    (hp : ∀ z, ¬ (n.run g (w.slot h.index) args (n.entered w)).1.Runs g
      (n.run g (w.slot h.index) args (n.entered w)).2 (.error .panic) z) :
    g.Evaluates (.node h) args w r z ↔
      (n.run g (w.slot h.index) args (n.entered w)).1.Runs g
        (n.run g (w.slot h.index) args (n.entered w)).2 r z := by
  rw [evaluates_delivered hn hs]
  have hne : ∀ {r₁}, (n.run g (w.slot h.index) args (n.entered w)).1.Runs g
      (n.run g (w.slot h.index) args (n.entered w)).2 r₁ z → r₁ ≠ .error .panic := by
    rintro _ hr rfl
    exact hp z hr
  constructor
  · rintro ⟨r₁, hr, rfl⟩
    rwa [delivered_eq n (hne hr)]
  · intro hr
    exact ⟨r, hr, (delivered_eq n (hne hr)).symm⟩

/-- A value that the first action of a node comes to is the value of the node, whatever else
the graph holds. -/
theorem evaluates_entered {h : Handle} {n : Node} {p : Primitive} {operands : List Value}
    {v : Value} (hn : g.Hosts h n p operands)
    (hrun : (n.run g (w.slot h.index) args (n.entered w)).1.Runs g
      (n.run g (w.slot h.index) args (n.entered w)).2 (.ok v) z) :
    g.Evaluates (.node h) args w (.ok v) z := by
  have hv : (.ok v : Outcome) ≠ .error .panic := nofun
  exact (evaluates_delivered hn.node hn.served).2 ⟨_, hrun, (delivered_eq n hv).symm⟩

/-- A node that its transport reaches comes to what its first action comes to. -/
theorem evaluates_hosted {h : Handle} {n : Node} {p : Primitive} {operands : List Value}
    (hw : g.Wired w) (ha : ∀ a ∈ args, a.Below g.nodes.size) (hn : g.Hosts h n p operands) :
    g.Evaluates (.node h) args w r z ↔
      (n.run g (w.slot h.index) args (n.entered w)).1.Runs g
        (n.run g (w.slot h.index) args (n.entered w)).2 r z := by
  refine evaluates_run hn.node hn.served fun z hz => ?_
  have he : g.Evaluates (.node h) args w (n.delivered (.error .panic)) z :=
    (evaluates_delivered hn.node hn.served).2 ⟨_, hz, rfl⟩
  exact evaluates_unbroken hw ha (below_of_node hn.node) he (delivered_broken n)

theorem evaluates_block_hosted {h : Handle} {n : Node} {operands : List Value} (hw : g.Wired w)
    (ha : ∀ a ∈ args, a.Below g.nodes.size) (hn : g.Hosts h n .block operands) :
    g.Evaluates (.node h) args w r z ↔
      ∃ s, g.Sequence args operands (n.entered w) s z ∧ r = s.map lastValue := by
  rw [evaluates_hosted hw ha hn]
  simp only [Node.run, hn.primitive, hn.operands]
  cases operands with
  | nil =>
    rw [exists_sequence_nil]
    exact runs_done
  | cons v rest => exact runs_block

end ArrayGraph
