import ArrayGraph.Proofs.Evaluation.Arguments
import ArrayGraph.Proofs.Evaluation.Sequence
import ArrayGraph.Proofs.Session.Numbering
/-!
# Constants that go by their own name

A constant that is made without operands has its name in that of its instance, and there it
is found again, whatever number the instance has. But like every node that is made without
operands it takes the arguments of a call for its operands, and then the argument names the
constant. The arguments of a call come down to it from the root, unless a node in between
keeps them: so what it gives depends on the call (`turns_disturbed`), and `alias_answers` says how.
-/

namespace ArrayGraph

variable {g : Graph} {n : Node} {c : Float} {as : List Value} {w z : World} {r : Outcome}

/-- The node is without operands, and its own name is the name of the constant. -/
structure Node.Alias (n : Node) (c : Float) : Prop where
  primitive : n.primitive = .constant
  operands : n.operands = []
  names : constant? (bareName n.site.name) = some c

/-- What comes of an operand that names a constant. -/
def Outcome.naming (site : Site) (r : Outcome) : Outcome :=
  r.bind fun v => match v with
    | .str name => constantNamed site name
    | v => fail site (.notText v.kind)

/-! ## One evaluation -/

theorem resume_constantName (site : Site) (v : Value) (w : World) :
    (Frame.constantName site).resume g v w = (.done (Outcome.naming site (.ok v)), w) := by
  cases v <;> rfl

theorem runs_constantName {site : Site} {v : Value} :
    (g.await (.constantName site) v as w).1.Runs g (g.await (.constantName site) v as w).2 r z ↔
      ∃ r₁, g.Evaluates v as w r₁ z ∧ r = r₁.naming site := by
  rw [runs_await]
  constructor
  · rintro ⟨r₁ | v, w₁, h₁, h⟩
    · obtain ⟨rfl, rfl⟩ := h
      exact ⟨_, h₁, rfl⟩
    · rw [Frame.after, resume_constantName] at h
      obtain ⟨rfl, rfl⟩ := runs_done.1 h
      exact ⟨_, h₁, rfl⟩
  · rintro ⟨r₁ | v, h₁, rfl⟩
    · exact ⟨_, z, h₁, rfl, rfl⟩
    · refine ⟨_, z, h₁, ?_⟩
      rw [Frame.after, resume_constantName]
      exact runs_done.2 ⟨rfl, rfl⟩

/-- Without arguments an alias is its constant. -/
theorem Node.Alias.runs_none (h : n.Alias c) (content : Value) :
    (Job.start n content []).Runs g w (.ok (.float c)) w := by
  obtain ⟨p, operands, site, locality⟩ := n
  obtain ⟨rfl, rfl, hc⟩ := h
  have hrun : Node.run ⟨.constant, [], site, locality⟩ g content [] w =
      (.done (.ok (.float c)), w) := by
    simp only [Node.run, Node.bind, List.isEmpty_nil, if_true, constantNamed, hc]
  rw [Job.runs_begin, hrun]
  exact runs_done.2 ⟨rfl, rfl⟩

/-- A single argument names the constant in place of the alias. -/
theorem Node.Alias.runs_one (h : n.Alias c) (content a : Value) :
    (Job.start n content [a]).Runs g w r z ↔
      ∃ r₁, g.Evaluates a [] w r₁ z ∧ r = r₁.naming n.site := by
  obtain ⟨p, operands, site, locality⟩ := n
  obtain ⟨rfl, rfl, hc⟩ := h
  exact Job.runs_begin.trans runs_constantName

/-- Several arguments are too many for an alias. -/
theorem Node.Alias.runs_several (h : n.Alias c) (content : Value) (has : 2 ≤ as.length) :
    (Job.start n content as).Runs g w (.fail n.site (.wrongCount .constant)) w := by
  obtain ⟨p, operands, site, locality⟩ := n
  obtain ⟨rfl, rfl, hc⟩ := h
  rcases as with _ | ⟨a, _ | ⟨b, rest⟩⟩
  · simp at has
  · simp at has
  · exact Job.runs_begin.2 (runs_done.2 ⟨rfl, rfl⟩)

/-! ## Aliases of a registry -/

theorem isPart_of_constant? {name : String} (h : constant? name = some c) :
    InstanceName.IsPart name := by
  obtain ⟨before, after, hc, -⟩ := List.lookup_eq_some_iff.1 h
  have hmem : (name, c) ∈ constants := by
    rw [hc]
    exact List.mem_append_right before List.mem_cons_self
  have hall : ∀ p ∈ constants, InstanceName.IsPart p.1 := by decide
  exact hall (name, c) hmem

/-- The node that is made without operands as number `k`, under the name of a constant. -/
def Node.ofConstant (name : String) (k : UInt64) (locality : Locality) (codename : String) : Node :=
  ⟨.constant, [], ⟨(InstanceName.numbered name k).text, codename⟩, locality⟩

/-- The name of the constant is read back, whatever the number is. -/
theorem alias_ofConstant {name : String} (hc : constant? name = some c) (k : UInt64)
    (locality : Locality) (codename : String) :
    (Node.ofConstant name k locality codename).Alias c where
  primitive := rfl
  operands := rfl
  names := by
    rw [← hc]
    exact congrArg constant?
      (InstanceName.bareName_text ⟨isPart_of_constant? hc, .inr ⟨rfl, rfl, rfl⟩⟩)

variable {s : Session} {p : Pattern} {name : String}

/-- A node that passes the check is made as the next one. -/
theorem create_eq {q : Primitive} (hp : s.registry.get? name = some p) (hq : p.primitive = q)
    (operands : List Value) (hc : s.graph.check q operands = .ok ()) (locality : Locality)
    (codename : String) : s.create name operands locality codename =
      (.ok ⟨s.graph.nodes.size, (InstanceName.numbered name s.registry.sequence).text⟩,
        { registry := (s.registry.nextName name).2
          graph := ⟨s.graph.nodes.push ⟨q, operands,
            ⟨(InstanceName.numbered name s.registry.sequence).text, codename⟩, locality⟩⟩
          world := { s.world with
            slots := s.world.slots.push (Session.initialSlot q operands) } }) := by
  subst hq
  exact createNamed_eq (s := { s with registry := (s.registry.nextName name).2 }) hp hc

/-! ## A constant and an argument -/

theorem builtins_pi : ∃ p, (Session.ofRegistry .builtins).registry.get? "pi" = some p ∧
    p.primitive = .constant := by
  rw [Session.ofRegistry, Registry.builtins, Registry.get?_registered]
  exact ⟨_, rfl, rfl⟩

/-- The node that is `pi`, made as the first. -/
def ratio : Node := .ofConstant "pi" 0 .here "test"

/-- A session with `pi` and no other node. -/
def circle : Session where
  registry := { Registry.builtins with sequence := 1 }
  graph := ⟨#[ratio]⟩
  world := ⟨#[.empty], #[]⟩

/-- The session with the first argument of the call and the product of the two. -/
def turns : Session :=
  ((circle.create "access_argument" [.int 0] .here "test").2.create "__mul"
    [.node ⟨0, "/arrayflow/pi$0"⟩, .node ⟨1, "/arrayflow/access_argument$1"⟩] .here "test").2

/-- The product. -/
def turn : Value := .node ⟨2, "/arrayflow/__mul$2"⟩

theorem circle_created : (Session.ofRegistry .builtins).create "pi" [] .here "test" =
    (.ok ⟨0, "/arrayflow/pi$0"⟩, circle) := by
  have hsequence : Registry.builtins.sequence = 0 := registerNew_sequence ..
  obtain ⟨p, hp, hp'⟩ := builtins_pi
  rw [Session.ofRegistry] at hp ⊢
  rw [circle]
  generalize Registry.builtins = r at hsequence hp
  rw [create_eq (s := ⟨r, .empty, .empty⟩) hp hp' [] rfl]
  simp only [Registry.nextName, hsequence]
  rfl

theorem turns_graph : turns.graph = ⟨#[ratio,
    ⟨.argument, [.int 0], ⟨"/arrayflow/access_argument$1", "test"⟩, .here⟩,
    ⟨.arithmetic .mul, [.node ⟨0, "/arrayflow/pi$0"⟩, .node ⟨1, "/arrayflow/access_argument$1"⟩],
      ⟨"/arrayflow/__mul$2", "test"⟩, .here⟩]⟩ := by
  obtain ⟨q, hq, hq'⟩ : ∃ q, Registry.builtins.get? "access_argument" = some q ∧
      q.primitive = .argument := by
    rw [Registry.builtins, Registry.get?_registered]
    exact ⟨_, rfl, rfl⟩
  obtain ⟨p, hp, hp'⟩ : ∃ p, Registry.builtins.get? "__mul" = some p ∧
      p.primitive = .arithmetic .mul := by
    rw [Registry.builtins, Registry.get?_registered]
    exact ⟨_, rfl, rfl⟩
  rw [turns, circle]
  generalize Registry.builtins = r at hq hp
  rw [create_eq (s := ⟨{ r with sequence := 1 }, _, _⟩) hq hq' [.int 0] rfl,
    create_eq hp hp' [.node ⟨0, "/arrayflow/pi$0"⟩, .node ⟨1, "/arrayflow/access_argument$1"⟩] rfl]
  simp only [Registry.nextName]
  rfl

/-- The arguments of the product come down to its first factor. -/
theorem turns_begins (args : List Value) (w : World) : ∃ j u content,
    turns.graph.Schedules turn args w j u ∧ (Job.start ratio content args).Part j := by
  rw [turns_graph]
  exact ⟨_, _, _, .next (.turn (acts_step _ _)) .refl, .current .all⟩

/-! ## What comes down to an alias -/

/-- Wherever a constant that a registry has made under its name stands in a graph, and
whatever the schedule, what comes down to it is all arguments of the call or none. If none
do, it is the constant. A single argument names the constant in its place, and several are
too many. -/
theorem alias_answers (hp : s.registry.get? name = some p) (hconst : p.primitive = .constant)
    (hc : constant? name = some c) (locality : Locality) (codename : String) :
    ∃ h s' n, s.create name [] locality codename = (.ok h, s') ∧ s'.graph.node? h = some n ∧
      n = .ofConstant name s.registry.sequence locality codename ∧
      ∀ (g : Graph) (v : Value) (args : List Value) (w : World) (j : Job) (u : World)
        (content : Value) (as : List Value), g.Schedules v args w j u →
        (Job.start n content as).Part j →
        (as = args ∨ as = []) ∧
        (as = [] → (Job.start n content as).Runs g u (.ok (.float c)) u) ∧
        (∀ a, as = [a] → ∀ r z, (Job.start n content as).Runs g u r z ↔
          ∃ r₁, g.Evaluates a [] u r₁ z ∧ r = r₁.naming n.site) ∧
        (2 ≤ as.length →
          (Job.start n content as).Runs g u (.fail n.site (.wrongCount .constant)) u) := by
  have halias := alias_ofConstant hc s.registry.sequence locality codename
  refine ⟨_, _, .ofConstant name s.registry.sequence locality codename,
    create_eq hp hconst [] rfl locality codename, Array.getElem?_push_size, rfl, ?_⟩
  intro g v args w j u content as hs hpart
  refine ⟨schedules_under hs hpart, ?_, ?_, fun has => halias.runs_several content has⟩
  · rintro rfl
    exact halias.runs_none content
  · rintro a rfl r z
    exact halias.runs_one content a

/-- Without arguments the first factor is `pi`; the text `e` in its place makes it that. -/
theorem ratio_answers :
    (∃ p, (Session.ofRegistry .builtins).registry.get? "pi" = some p ∧
      p.primitive = .constant) ∧
    constant? "pi" = some circleRatio ∧
    (∃ j u content, turns.graph.Schedules turn [] turns.world j u ∧
      (Job.start ratio content []).Part j ∧
      (Job.start ratio content []).Runs turns.graph u (.ok (.float circleRatio)) u) ∧
    ∃ j u content, turns.graph.Schedules turn [.str "e"] turns.world j u ∧
      (Job.start ratio content [.str "e"]).Part j ∧
      (Job.start ratio content [.str "e"]).Runs turns.graph u (.ok (.float eulerNumber)) u := by
  refine ⟨builtins_pi, rfl, ?_⟩
  obtain ⟨p, hp, hp'⟩ := builtins_pi
  obtain ⟨h, s', n, -, -, hn, hall⟩ :=
    alias_answers (s := .ofRegistry .builtins) hp hp' rfl .here "test"
  have hsequence : Registry.builtins.sequence = 0 := registerNew_sequence ..
  rw [Session.ofRegistry, hsequence] at hn
  subst hn
  constructor
  · obtain ⟨j, u, content, hs, hpart⟩ := turns_begins [] turns.world
    exact ⟨j, u, content, hs, hpart, (hall _ turn [] _ j u content [] hs hpart).2.1 rfl⟩
  · obtain ⟨j, u, content, hs, hpart⟩ := turns_begins [.str "e"] turns.world
    obtain ⟨-, -, hone, -⟩ := hall _ turn _ _ j u content _ hs hpart
    exact ⟨j, u, content, hs, hpart, (hone _ rfl _ _).2 ⟨_, ⟨1, rfl⟩, rfl⟩⟩

/-- Under the number two `pi` is no number: that argument is to name a constant. -/
theorem turns_disturbed : constant? "pi" = some circleRatio ∧
    (Session.ofRegistry .builtins).create "pi" [] .here "test" =
      (.ok ⟨0, "/arrayflow/pi$0"⟩, circle) ∧
    circle.graph.node? ⟨0, "/arrayflow/pi$0"⟩ = some ratio ∧
    turns.graph.node? ⟨0, "/arrayflow/pi$0"⟩ = some ratio ∧
    (∃ j u content, turns.graph.Schedules turn [.float 2] turns.world j u ∧
      (Job.start ratio content [.float 2]).Part j ∧
      ¬ (Job.start ratio content [.float 2]).Runs turns.graph u (.ok (.float circleRatio)) u) ∧
    ∃ z, turns.graph.Evaluates turn [.float 2] turns.world
      (.fail ratio.site (.notText .float)) z := by
  refine ⟨rfl, circle_created, rfl, ?_, ?_, ?_⟩
  · rw [turns_graph]
    rfl
  · obtain ⟨j, u, content, hs, hpart⟩ := turns_begins [.float 2] turns.world
    refine ⟨j, u, content, hs, hpart, fun h => ?_⟩
    have hfail : (Job.start ratio content [.float 2]).Runs turns.graph u
      (.fail ratio.site (.notText .float)) u := ⟨4, rfl⟩
    cases (h.unique hfail).1
  · rw [turns_graph]
    exact ⟨_, 4, rfl⟩

end ArrayGraph
