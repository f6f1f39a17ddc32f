import ArrayGraph.Session
import ArrayGraph.Proofs.Evaluation.Scope
import ArrayGraph.Proofs.Registry.Lookup
/-!
# Sessions that can come about

`Session.Reachable` holds of the sessions that creations and evaluations lead to, from
a registry of built-in primitives on. Their graphs and slots are sound, as
`reachable_sound` says: each node passed the check and refers to older nodes only, and
the slot of a variable holds the operand that the variable was built with until a value
that is no handle takes its place.

Evaluating turns a handle into the value of its node, so handles stay in the graph:
`handles_never_escape`. No loop or choice then finds a handle where it looks for a
condition.
-/

namespace ArrayGraph

/-- The value is no handle, or a handle to one of the first `n` nodes. -/
def Value.Below (n : Nat) (v : Value) : Prop := ∀ h, v = .node h → h.index < n

instance (n : Nat) (v : Value) : Decidable (v.Below n) :=
  decidable_of_iff (v.asHandle?.all (·.index < n) = true)
    (by cases v <;> simp [Value.Below, Value.asHandle?])

/-- Sessions that creations and evaluations lead to. The operands of a new node refer
to nodes that are there, and an evaluation may be given up on its way. -/
inductive Session.Reachable : Session → Prop
  | start {registry : Registry} : (∀ p ∈ registry.patterns, p.primitive.isBuiltin = true) →
      Reachable (.ofRegistry registry)
  | create {s name operands locality codename} : Reachable s →
      (∀ v ∈ operands, v.Below s.graph.nodes.size) →
      Reachable (s.create name operands locality codename).2
  | createNamed {s name operands locality site} : Reachable s →
      (∀ v ∈ operands, v.Below s.graph.nodes.size) →
      Reachable (s.createNamed name operands locality site).2
  | evaluate {s limit v args r s'} : Reachable s → s.evaluate limit v args = some (r, s') →
      Reachable s'
  | abandon {s v args j w} : Reachable s →
      (s.graph.launch v args s.world).1.Steps s.graph (s.graph.launch v args s.world).2 j w →
      Reachable { s with world := w }

/-- What creations and evaluations keep up: nodes refer to older nodes, and variables hold
what they were built with or a value that is no handle. -/
structure Graph.Grounded (g : Graph) (w : World) : Prop where
  size : w.slots.size = g.nodes.size
  tame : g.Tame
  checked : ∀ n ∈ g.nodes, g.check n.primitive n.operands = .ok ()
  ordered : ∀ (i : Nat) (n : Node), g.nodes[i]? = some n → ∀ v ∈ n.operands, v.Below i
  slots : ∀ (i : Nat) (n : Node), g.nodes[i]? = some n → n.primitive = .variable →
    n.operands = [w.slot i] ∨ (w.slot i).Plain

/-- What they keep up where all patterns are built in. -/
structure Graph.Sound (g : Graph) (w : World) : Prop extends g.Grounded w where
  builtin : g.Builtin

/-! ## Checks as the graph grows -/

theorem node?_add {g : Graph} {m n : Node} {h : Handle} (hn : g.node? h = some n) :
    (g.add m).2.node? h = some n := by
  obtain ⟨hi, hn⟩ := Array.getElem?_eq_some_iff.1 hn
  simp only [Graph.node?, Graph.add, Array.getElem?_push]
  rw [if_neg (by omega), Array.getElem?_eq_getElem hi, hn]

theorem isVariable_add {g : Graph} {v : Value} (m : Node) (h : g.isVariable v = true) :
    (g.add m).2.isVariable v = true := by
  cases v with
  | node k =>
    simp only [Graph.isVariable, Option.any_eq_true] at h ⊢
    obtain ⟨n, hn, hp⟩ := h
    exact ⟨n, node?_add hn, hp⟩
  | _ => cases h

theorem check_add {g : Graph} {p : Primitive} {operands : List Value} (m : Node)
    (h : g.check p operands = .ok ()) : (g.add m).2.check p operands = .ok () := by
  rw [check_eq_ok_iff] at h ⊢
  obtain ⟨ha, hv, hs, hi⟩ := h
  exact ⟨ha, hv, fun hp v he => isVariable_add m (hs hp v he), hi⟩

/-! ## Soundness -/

section Grounded

variable {g : Graph} {S : Scope} {w w' : World}

theorem grounded_empty : Graph.empty.Grounded World.empty where
  size := rfl
  tame := by simp [Graph.Tame, Graph.empty]
  checked := by simp [Graph.empty]
  ordered := by simp [Graph.empty]
  slots := by simp [Graph.empty]

theorem sound_empty : Graph.empty.Sound World.empty :=
  ⟨grounded_empty, by simp [Graph.Builtin, Graph.empty]⟩

theorem Graph.Grounded.kept (h : g.Grounded w) (hk : w.Kept S w') : g.Grounded w' where
  size := hk.size.trans h.size
  tame := h.tame
  checked := h.checked
  ordered := h.ordered
  slots i n hn hp := by
    rcases hk.slot i with e | ⟨-, he⟩
    · rw [e]; exact h.slots i n hn hp
    · exact .inr he

theorem Graph.Sound.kept (h : g.Sound w) (hk : w.Kept S w') : g.Sound w' :=
  ⟨h.toGrounded.kept hk, h.builtin⟩

theorem Graph.Grounded.add {n : Node} (h : g.Grounded w) (ht : n.Tame)
    (hc : g.check n.primitive n.operands = .ok ()) (hr : ∀ v ∈ n.operands, v.Below g.nodes.size) :
    (g.add n).2.Grounded
      { w with slots := w.slots.push (Session.initialSlot n.primitive n.operands) } where
  size := by simp [Graph.add, h.size]
  tame m hm := by
    rcases Array.mem_push.1 hm with hm | rfl
    · exact h.tame m hm
    · exact ht
  checked m hm := by
    rcases Array.mem_push.1 hm with hm | rfl
    · exact check_add n (h.checked m hm)
    · exact check_add m hc
  ordered i m hm := by
    simp only [Graph.add, Array.getElem?_push] at hm
    split at hm
    · cases hm
      rename_i hi
      rw [hi]
      exact hr
    · exact h.ordered i m hm
  slots i m hm hp := by
    simp only [Graph.add, Array.getElem?_push] at hm
    simp only [World.slot, Array.getElem?_push, h.size]
    split at hm
    · cases hm
      rename_i hi
      -- the check lets a variable have one operand
      have hl := (check_eq_ok_iff.1 hc).1
      simp only [hp, Primitive.accepts, beq_iff_eq] at hl
      obtain ⟨v, hv⟩ := List.length_eq_one_iff.1 hl
      left
      simp [hi, hv, hp, Session.initialSlot]
    · rename_i hi
      rw [if_neg hi]
      exact h.slots i m hm hp

theorem below_of_plain {v : Value} {n : Nat} (h : v.Plain) : v.Below n := by
  rintro h' rfl
  cases h

theorem Value.Below.mono {v : Value} {m n : Nat} (h : v.Below m) (hle : m ≤ n) : v.Below n :=
  fun t he => Nat.lt_of_lt_of_le (h t he) hle

theorem Graph.Grounded.below (h : g.Grounded w) :
    ∀ n ∈ g.nodes, ∀ v ∈ n.operands, v.Below g.nodes.size := by
  intro n hn v hv
  obtain ⟨i, hi, rfl⟩ := Array.mem_iff_getElem.1 hn
  exact (h.ordered i _ (Array.getElem?_eq_getElem hi) v hv).mono (Nat.le_of_lt hi)

/-- Variables hold no handles but to nodes that are there. -/
def Graph.Holds (g : Graph) (w : World) : Prop :=
  ∀ (i : Nat) (n : Node), g.nodes[i]? = some n → n.primitive = .variable →
    (w.slot i).Below g.nodes.size

theorem Graph.Grounded.holds (h : g.Grounded w) : g.Holds w := by
  intro i n hn hp
  rcases h.slots i n hn hp with he | hplain
  · exact h.below n (Array.mem_of_getElem? hn) _ (by rw [he]; exact List.mem_singleton_self _)
  · exact below_of_plain hplain

theorem Graph.Holds.setSlot {i : Nat} {v : Value} (h : g.Holds w) (hv : v.Plain) :
    g.Holds (w.setSlot i v) := by
  intro k n hn hp
  rcases (w.kept_setSlot (S := .all) trivial hv).slot k with e | ⟨-, he⟩
  · rw [e]
    exact h k n hn hp
  · exact below_of_plain he

end Grounded

/-! ## Creations -/

theorem createNamed_eq {s : Session} {name : String} {operands : List Value} {locality : Locality}
    {site : Site} {p : Pattern} (hp : s.registry.get? name = some p)
    (hc : s.graph.check p.primitive operands = .ok ()) :
    s.createNamed name operands locality site = (.ok ⟨s.graph.nodes.size, site.name⟩,
      { s with
        graph := (s.graph.add ⟨p.primitive, operands, site, locality⟩).2
        world := { s.world with
          slots := s.world.slots.push (Session.initialSlot p.primitive operands) } }) := by
  simp only [Session.createNamed, hp, Graph.build, hc]
  rfl

theorem createNamed_registry (s : Session) (name : String) (operands : List Value)
    (locality : Locality) (site : Site) :
    (s.createNamed name operands locality site).2.registry = s.registry := by
  unfold Session.createNamed
  split
  · rfl
  · split <;> rfl

/-- A creation leaves the session as it is, or adds a node that passed the check. -/
theorem createNamed_cases (s : Session) (name : String) (operands : List Value)
    (locality : Locality) (site : Site) :
    (s.createNamed name operands locality site).2 = s ∨
      ∃ p, s.registry.get? name = some p ∧ s.graph.check p.primitive operands = .ok () := by
  unfold Session.createNamed
  split
  · exact .inl rfl
  · rename_i p hp
    unfold Graph.build
    dsimp only
    cases hc : s.graph.check p.primitive operands with
    | error c => exact .inl rfl
    | ok u => exact .inr ⟨p, hp, hc⟩

theorem createNamed_grounded {s : Session} {name : String} {operands : List Value}
    {locality : Locality} {site : Site} (h : s.graph.Grounded s.world)
    (ht : ∀ p, s.registry.get? name = some p → Node.Tame ⟨p.primitive, operands, site, locality⟩)
    (hr : ∀ v ∈ operands, v.Below s.graph.nodes.size) :
    (s.createNamed name operands locality site).2.graph.Grounded
      (s.createNamed name operands locality site).2.world := by
  rcases createNamed_cases s name operands locality site with he | ⟨p, hp, hc⟩
  · rw [he]
    exact h
  · rw [createNamed_eq hp hc]
    exact h.add (ht p hp) hc hr

theorem createNamed_sound {s : Session} {name : String} {operands : List Value}
    {locality : Locality} {site : Site} (h : s.graph.Sound s.world)
    (hb : ∀ p ∈ s.registry.patterns, p.primitive.isBuiltin = true)
    (hr : ∀ v ∈ operands, v.Below s.graph.nodes.size) :
    (s.createNamed name operands locality site).2.graph.Sound
      (s.createNamed name operands locality site).2.world := by
  refine ⟨createNamed_grounded h.toGrounded
    (fun p hp => tame_of_builtin (hb p (Registry.mem_of_get? hp))) hr, ?_⟩
  rcases createNamed_cases s name operands locality site with he | ⟨p, hp, hc⟩
  · rw [he]
    exact h.builtin
  · rw [createNamed_eq hp hc]
    intro m hm
    rcases Array.mem_push.1 hm with hm | rfl
    · exact h.builtin m hm
    · exact hb p (Registry.mem_of_get? hp)

theorem evaluate_session {s s' : Session} {limit : Nat} {v : Value} {args : List Value}
    {r : Outcome} (h : s.evaluate limit v args = some (r, s')) :
    s'.registry = s.registry ∧ s'.graph = s.graph ∧
      s.graph.Evaluates v args s.world r s'.world := by
  obtain ⟨⟨r', w⟩, hw, he⟩ := Option.map_eq_some_iff.1 h
  cases he
  exact ⟨rfl, rfl, limit, hw⟩

theorem evaluates_builtin {g : Graph} {v : Value} {args : List Value} {w z : World} {r : Outcome}
    (hb : g.Builtin) (h : g.Evaluates v args w r z) : r.Sane ∧ w.Kept .all z :=
  evaluates_within h (closed_all hb w) (within_all v) (given_all args)

/-- Reachable sessions are sound, and all their patterns are of built-in primitives. -/
theorem reachable_sound {s : Session} (h : s.Reachable) :
    s.graph.Sound s.world ∧ ∀ p ∈ s.registry.patterns, p.primitive.isBuiltin = true := by
  induction h with
  | start hp => exact ⟨sound_empty, hp⟩
  | create _ hr ih =>
    refine ⟨createNamed_sound ih.1 ih.2 hr, ?_⟩
    rw [Session.create, createNamed_registry]
    exact ih.2
  | createNamed _ hr ih =>
    refine ⟨createNamed_sound ih.1 ih.2 hr, ?_⟩
    rw [createNamed_registry]
    exact ih.2
  | evaluate _ he ih =>
    obtain ⟨h₁, h₂, h₃⟩ := evaluate_session he
    rw [h₁, h₂]
    exact ⟨ih.1.kept (evaluates_builtin ih.1.builtin h₃).2, ih.2⟩
  | @abandon s v args j w _ hs ih =>
    have hc := closed_all ih.1.builtin s.world
    have hl : s.world.Kept .all (s.graph.launch v args s.world).2 := .of_slots (launch_slots ..)
    have hj := launch_within hc (within_all v) (given_all args)
    exact ⟨ih.1.kept (hl.trans (steps_within hs hj (hc.kept hl)).2), ih.2⟩

/-! ## Registries to start from -/

theorem ofRegistry_reachable {ps : List Pattern} (h : ∀ p ∈ ps, p.primitive.isBuiltin = true) :
    (Session.ofRegistry (Registry.empty.registerNew ps)).Reachable := by
  refine .start fun p hp => ?_
  rcases Registry.registerNew_patterns hp with hp | hp
  · simp [Registry.empty] at hp
  · exact h p hp

/-- The session that a program starts from is one of those. -/
theorem builtins_reachable : (Session.ofRegistry .builtins).Reachable :=
  ofRegistry_reachable (by decide)

/-! ## A small session -/

namespace Session

/-- A variable that holds the first argument of the call that evaluates it. -/
def sample : Session where
  registry := Registry.empty.registerNew Pattern.slots
  graph := ⟨#[⟨.argument, [.int 0], ⟨"first", "sample"⟩, .here⟩,
    ⟨.variable, [.node ⟨0, "first"⟩], ⟨"slot", "sample"⟩, .here⟩]⟩
  world := ⟨#[.empty, .node ⟨0, "first"⟩], #[]⟩

theorem get?_slots {p : Pattern} (h : p ∈ Pattern.slots) :
    (Registry.empty.registerNew Pattern.slots).get? p.name = some p :=
  Registry.get?_of_names (by decide) h

theorem sample_reachable : sample.Reachable := by
  have h₀ : (ofRegistry (Registry.empty.registerNew Pattern.slots)).Reachable :=
    ofRegistry_reachable (by decide)
  have h₁ : (createNamed _ "access_argument" [.int 0] .here ⟨"first", "sample"⟩).2.Reachable :=
    .createNamed h₀ (by simp [Value.Below])
  rw [createNamed_eq (get?_slots (p := Pattern.slots[2]) (by decide)) rfl] at h₁
  have h₂ : (createNamed _ "variable" [.node ⟨0, "first"⟩] .here ⟨"slot", "sample"⟩).2.Reachable :=
    .createNamed h₁ (by simp [Value.Below, ofRegistry, Graph.add])
  rw [createNamed_eq (get?_slots (p := Pattern.slots[0]) (by decide)) rfl] at h₂
  exact h₂

end Session

/-! ## Handles -/

/-- Evaluations of built-in primitives give no handles, whatever the slots hold and
whatever the arguments are; variables of reachable sessions hold none but the one that
they were built with; and no condition is ever a handle. -/
theorem handles_never_escape :
    (∀ (g : Graph) (v : Value) (args : List Value) (w z : World) (x : Value), g.Builtin →
      g.Evaluates v args w (.ok x) z → x.Plain) ∧
    (∀ (s : Session) (i : Nat) (n : Node), s.Reachable → s.graph.nodes[i]? = some n →
      n.primitive = .variable → n.operands = [s.world.slot i] ∨ (s.world.slot i).Plain) ∧
    ∀ (g : Graph) (v : Value) (args : List Value) (w z : World) (site : Site) (kind : Kind),
      g.Builtin → ¬ g.Evaluates v args w (.fail site (.notCondition kind)) z := by
  refine ⟨?_, ?_, ?_⟩
  · intro g v args w z x hb h
    exact (evaluates_builtin hb h).1
  · intro s i n hs hn hp
    exact (reachable_sound hs).1.slots i n hn hp
  · intro g v args w z site kind hb h
    exact (evaluates_builtin hb h).1

/-- The variable of the sample is given a number, holds its operand, and finds no handle
where it looks for a condition. -/
theorem sample_handles_stay :
    (∃ z, Session.sample.graph.Evaluates (.node ⟨1, "slot"⟩) [.int 7] Session.sample.world
      (.ok (.int 7)) z) ∧
    (Value.int 7).Plain ∧
    ([Value.node ⟨0, "first"⟩] = [Session.sample.world.slot 1] ∨
      (Session.sample.world.slot 1).Plain) ∧
    ¬ Session.sample.graph.Evaluates (.node ⟨1, "slot"⟩) [.int 7] Session.sample.world
      (.fail ⟨"slot", "sample"⟩ (.notCondition .node)) Session.sample.world := by
  obtain ⟨hvalue, hslot, hcondition⟩ := handles_never_escape
  have hb : Session.sample.graph.Builtin := by decide
  have he : Session.sample.graph.Evaluates (.node ⟨1, "slot"⟩) [.int 7] Session.sample.world
      (.ok (.int 7)) Session.sample.world := ⟨20, rfl⟩
  exact ⟨⟨_, he⟩, hvalue _ _ _ _ _ _ hb he,
    hslot _ 1 _ Session.sample_reachable rfl rfl, hcondition _ _ _ _ _ _ _ hb⟩

end ArrayGraph
