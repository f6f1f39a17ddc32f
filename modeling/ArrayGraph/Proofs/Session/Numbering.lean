import ArrayGraph.Engine
import ArrayGraph.Proofs.Registry.Name
import ArrayGraph.Proofs.Session.Reachable
/-!
# Numbered instances

A registry numbers the instances that it makes, and a number is used up also by one that
can't be made. `Engine.perform` does what may be asked of the registry of an engine, and
`Engine.creates` lists what becomes of the creations that take a number. The instance made
as number `k` has `k` in its name, and the last `$` of a name stands before the number:
so no two instances have the same name (`names_numbered`).
-/

namespace ArrayGraph

/-! ## What is asked of a registry -/

/-- To register a pattern, or to make an instance: under the next name, under a name of the
caller's, or under the next name on a locality of the engine. -/
inductive Engine.Operation
  | register (p : Pattern)
  | create (name : String) (operands : List Value) (locality : Locality) (codename : String)
  | createNamed (name : String) (operands : List Value) (locality : Locality) (site : Site)
  | createOn (name : String) (id : LocalityId) (operands : List Value)

namespace Engine

/-- The name that was asked for, if the operation takes a number. -/
def Operation.numbered? (p : Pool) : Operation → Option String
  | .create name _ _ _ => some name
  | .createOn name id _ => if p.hosts id then some name else none
  | .register _ | .createNamed _ _ _ _ => none

/-- The instance that the operation makes, if it makes one, and the engine after it. -/
def perform (e : Engine) : Operation → Option Handle × Engine
  | .register p =>
    match e.session.registry.register p with
    | .ok registry => (none, { e with session := { e.session with registry } })
    | .error _ => (none, e)
  | .create name operands locality codename =>
    let (r, session) := e.session.create name operands locality codename
    (r.toOption, { e with session })
  | .createNamed name operands locality site =>
    let (r, session) := e.session.createNamed name operands locality site
    (r.toOption, { e with session })
  | .createOn name id operands =>
    let (r, e) := e.create name id operands
    (r.toOption, e)

def after (e : Engine) (ops : List Operation) : Engine := ops.foldl (fun e op => (e.perform op).2) e

/-- The creations that take a number, each with the name that was asked for and the
instance, if one was made. -/
def creates (e : Engine) : List Operation → List (String × Option Handle)
  | [] => []
  | op :: ops =>
    match op.numbered? e.pool with
    | some name => (name, (e.perform op).1) :: creates (e.perform op).2 ops
    | none => creates (e.perform op).2 ops

end Engine

/-! ## One operation -/

theorem registerNew_sequence (r : Registry) (ps : List Pattern) :
    (r.registerNew ps).sequence = r.sequence := by
  refine Registry.registerNew_induction (P := (·.sequence = r.sequence)) ?_ rfl ps
  intro r₁ p r₂ h hr
  obtain ⟨-, rfl⟩ := register_eq_ok.1 hr
  exact h

section Operations

variable {s : Session} {name : String} {operands : List Value} {locality : Locality}
  {site : Site} {h : Handle} {n : Node}

theorem node?_new (g : Graph) (n : Node) : (g.add n).2.node? (g.add n).1 = some n := by
  simp [Graph.node?, Graph.add]

/-- A node that is made has the name that it is given. -/
theorem createNamed_node (hh : (s.createNamed name operands locality site).1 = .ok h) :
    h.name = site.name ∧
      ∃ n, (s.createNamed name operands locality site).2.graph.node? h = some n ∧
        n.site = site := by
  cases hp : s.registry.get? name with
  | none =>
    simp only [Session.createNamed, hp] at hh
    cases hh
  | some p =>
    cases hc : s.graph.check p.primitive operands with
    | error c =>
      simp only [Session.createNamed, hp, Graph.build, hc] at hh
      cases hh
    | ok u =>
      rw [createNamed_eq hp hc] at hh ⊢
      cases hh
      exact ⟨rfl, _, node?_new s.graph _, rfl⟩

theorem createNamed_keeps (hn : s.graph.node? h = some n) :
    (s.createNamed name operands locality site).2.graph.node? h = some n := by
  rcases createNamed_cases s name operands locality site with he | ⟨p, hp, hc⟩
  · rw [he]
    exact hn
  · rw [createNamed_eq hp hc]
    exact node?_add hn

/-- A number is used up whether or not an instance is made. -/
theorem create_sequence (s : Session) (name : String) (operands : List Value)
    (locality : Locality) (codename : String) :
    (s.create name operands locality codename).2.registry.sequence = s.registry.sequence + 1 := by
  rw [Session.create, createNamed_registry]
  rfl

/-- An instance made under the next name has the next number in its name. -/
theorem create_named {codename : String}
    (hh : (s.create name operands locality codename).1.toOption = some h) :
    h.name = (InstanceName.numbered name s.registry.sequence).text ∧
      ∃ n, (s.create name operands locality codename).2.graph.node? h = some n ∧
        n.site.name = h.name := by
  cases hr : (s.create name operands locality codename).1 with
  | error _ =>
    rw [hr] at hh
    cases hh
  | ok h' =>
    rw [hr] at hh
    cases hh
    obtain ⟨hname, n, hn, hsite⟩ := createNamed_node hr
    exact ⟨hname, n, hn, by rw [hsite, hname]⟩

theorem create_keeps {codename : String} (hn : s.graph.node? h = some n) :
    (s.create name operands locality codename).2.graph.node? h = some n :=
  createNamed_keeps (s := { s with registry := _ }) hn

end Operations

namespace Engine

variable {e : Engine} {op : Operation} {ops : List Operation} {name : String} {h : Handle}
  {n : Node}

/-- On a locality that the engine has, a node is made as on any other; on one that it does
not have, nothing is done. -/
theorem perform_createOn (e : Engine) (name : String) (id : LocalityId) (operands : List Value) :
    e.perform (.createOn name id operands) = if e.pool.hosts id then
      e.perform (.create name operands (e.pool.place id) e.codename) else (none, e) := by
  by_cases hid : e.pool.hosts id = true
  · simp only [perform, Engine.create, Pool.locality?, hid, if_true]
    cases (e.session.create name operands (e.pool.place id) e.codename).1 <;> rfl
  · simp only [perform, Engine.create, Pool.locality?, hid]
    rfl

/-- An operation uses up one number or none. -/
theorem perform_sequence (e : Engine) (op : Operation) :
    (e.perform op).2.session.registry.sequence =
      e.session.registry.sequence + if (op.numbered? e.pool).isSome then 1 else 0 := by
  cases op with
  | register p =>
    simp only [perform, Operation.numbered?]
    cases hr : e.session.registry.register p with
    | ok registry =>
      obtain ⟨-, rfl⟩ := register_eq_ok.1 hr
      simp
    | error _ => simp
  | create => exact create_sequence ..
  | createNamed => simp [perform, Operation.numbered?, createNamed_registry]
  | createOn name id operands =>
    rw [perform_createOn, Operation.numbered?]
    by_cases hid : e.pool.hosts id = true
    · rw [if_pos hid, if_pos hid]
      exact create_sequence ..
    · rw [if_neg hid, if_neg hid]
      simp

theorem perform_keeps (hn : e.session.graph.node? h = some n) :
    (e.perform op).2.session.graph.node? h = some n := by
  cases op with
  | register p =>
    simp only [perform]
    split <;> exact hn
  | create => exact create_keeps hn
  | createNamed => exact createNamed_keeps hn
  | createOn name id operands =>
    rw [perform_createOn]
    split
    · exact create_keeps hn
    · exact hn

theorem perform_named (ho : op.numbered? e.pool = some name) (hh : (e.perform op).1 = some h) :
    h.name = (InstanceName.numbered name e.session.registry.sequence).text ∧
      ∃ n, (e.perform op).2.session.graph.node? h = some n ∧ n.site.name = h.name := by
  cases op with
  | register | createNamed => cases ho
  | create name' operands locality codename =>
    cases ho
    exact create_named hh
  | createOn name' id operands =>
    rw [perform_createOn] at hh ⊢
    rw [Operation.numbered?] at ho
    by_cases hid : e.pool.hosts id = true
    · rw [if_pos hid] at ho hh ⊢
      cases ho
      exact create_named hh
    · rw [if_neg hid] at ho
      cases ho

/-! ## Any number of operations -/

theorem after_keeps (hn : e.session.graph.node? h = some n) :
    (e.after ops).session.graph.node? h = some n := by
  induction ops generalizing e with
  | nil => exact hn
  | cons op ops ih => exact ih (perform_keeps hn)

theorem creates_cons (e : Engine) (op : Operation) (ops : List Operation) :
    e.creates (op :: ops) = match op.numbered? e.pool with
      | some name => (name, (e.perform op).1) :: (e.perform op).2.creates ops
      | none => (e.perform op).2.creates ops := rfl

theorem after_sequence (e : Engine) (ops : List Operation) :
    (e.after ops).session.registry.sequence =
      e.session.registry.sequence + UInt64.ofNat (e.creates ops).length := by
  induction ops generalizing e with
  | nil => simp [after, creates]
  | cons op ops ih =>
    have hstep := perform_sequence e op
    have hrest := ih (e.perform op).2
    rw [hstep] at hrest
    rw [creates_cons]
    refine hrest.trans ?_
    cases op.numbered? e.pool with
    | none => simp
    | some name => simp [UInt64.ofNat_add, UInt64.add_assoc, UInt64.add_comm]

/-- The creations are numbered on from the number of the engine's registry. -/
theorem creates_numbered {k : Nat} (hk : (e.creates ops)[k]? = some (name, some h)) :
    h.name = (InstanceName.numbered name
        (e.session.registry.sequence + UInt64.ofNat k)).text ∧
      ∃ n, (e.after ops).session.graph.node? h = some n ∧ n.site.name = h.name := by
  induction ops generalizing e k with
  | nil => cases hk
  | cons op ops ih =>
    have hstep := perform_sequence e op
    rw [creates_cons] at hk
    cases ho : op.numbered? e.pool with
    | none =>
      simp only [ho] at hk hstep
      obtain ⟨hname, hnode⟩ := ih hk
      rw [hstep] at hname
      exact ⟨by simpa using hname, hnode⟩
    | some name' =>
      simp only [ho] at hk hstep
      cases k with
      | zero =>
        simp only [List.getElem?_cons_zero, Option.some.injEq, Prod.mk.injEq] at hk
        obtain ⟨rfl, hh⟩ := hk
        obtain ⟨hname, n, hn, hsite⟩ := perform_named ho hh
        exact ⟨by simpa using hname, n, after_keeps (e := (e.perform op).2) hn, hsite⟩
      | succ k =>
        obtain ⟨hname, hnode⟩ := ih hk
        rw [hstep] at hname
        refine ⟨?_, hnode⟩
        rw [hname]
        simp [UInt64.ofNat_add, UInt64.add_assoc, UInt64.add_comm]

/-- Each creation uses up one number, also one that fails, and nothing else does: neither a
registration, nor a creation under a name of the caller's, nor one that is refused for its
locality, which changes nothing. From a new registry on, the instance of creation `k` has
the number `k` in its name, for good, and no two instances have the same name. -/
theorem names_numbered {e : Engine} {ops : List Operation} (h0 : e.session.registry.sequence = 0)
    (hlt : (e.creates ops).length < UInt64.size) :
    (∀ (d : Engine) (op : Operation), (d.perform op).2.session.registry.sequence =
      d.session.registry.sequence + if (op.numbered? d.pool).isSome then 1 else 0) ∧
    (∀ (d : Engine) (name : String) (id : LocalityId) (operands : List Value),
      d.pool.hosts id = false → d.create name id operands =
        (.error (.graph (.raised ⟨name, d.codename⟩ (.unavailable id d.pool.size))), d)) ∧
    (e.after ops).session.registry.sequence = UInt64.ofNat (e.creates ops).length ∧
    (∀ (k : Nat) (name : String) (h : Handle), (e.creates ops)[k]? = some (name, some h) →
      h.name = (InstanceName.numbered name (UInt64.ofNat k)).text ∧
        ∃ n, (e.after ops).session.graph.node? h = some n ∧ n.site.name = h.name) ∧
    (((e.creates ops).filterMap (·.2)).map (·.name)).Nodup := by
  have hnumbered : ∀ (k : Nat) (name : String) (h : Handle),
      (e.creates ops)[k]? = some (name, some h) →
      h.name = (InstanceName.numbered name (UInt64.ofNat k)).text ∧
        ∃ n, (e.after ops).session.graph.node? h = some n ∧ n.site.name = h.name := by
    intro k name h hk
    have hn := creates_numbered hk
    rwa [h0, UInt64.zero_add] at hn
  refine ⟨perform_sequence, fun d name id operands hid => ?_, ?_, hnumbered, ?_⟩
  · simp [Engine.create, Pool.locality?, hid]
  · rw [after_sequence, h0, UInt64.zero_add]
  · rw [List.Nodup, List.pairwise_map, List.pairwise_filterMap, List.pairwise_iff_getElem]
    intro i j hi hj hij h hh h' hh' he
    have hat : ∀ (k : Nat) (hk : k < (e.creates ops).length) (x : Handle),
        (e.creates ops)[k].2 = some x →
        x.name = (InstanceName.numbered (e.creates ops)[k].1 (UInt64.ofNat k)).text := by
      intro k hk x hx
      refine (hnumbered k _ x ?_).1
      rw [List.getElem?_eq_getElem hk, ← hx]
    rw [hat i hi h hh, hat j hj h' hh', InstanceName.numbered_text_inj] at he
    -- numbers below the limit are not taken twice
    have hsame := congrArg UInt64.toNat he.2
    rw [UInt64.toNat_ofNat_of_lt' (Nat.lt_trans hi hlt),
      UInt64.toNat_ofNat_of_lt' (Nat.lt_trans hj hlt)] at hsame
    omega

/-! ## Names that look alike -/

/-- Patterns one of which is named like the instances of the other. -/
def lookalikes : List Pattern := [⟨"a", [], .echo, none⟩, ⟨"a$1", [], .echo, none⟩]

/-- An engine that has them, and one locality. -/
def lookalike : Engine where
  settings := {}
  codename := defaultCodename
  pool := ⟨1, "locality"⟩
  session := .ofRegistry (Registry.empty.registerNew lookalikes)

/-- The second creation fails, and the third is refused for its locality. -/
def lookalikeCreations : List Operation :=
  [.create "a$1" [] .here "sample", .create "b" [] .here "sample", .createOn "a" ⟨3⟩ [],
    .createOn "a" ⟨0⟩ []]

theorem lookalike_sequence : lookalike.session.registry.sequence = 0 := registerNew_sequence ..

theorem lookalike_creates : lookalike.creates lookalikeCreations =
    [("a$1", some ⟨0, "/arrayflow/a$1$0"⟩), ("b", none), ("a", some ⟨1, "/arrayflow/a$2"⟩)] := by
  have hget : ∀ name, lookalike.session.registry.get? name =
      lookalikes.find? (·.name = name) := Registry.get?_registered lookalikes
  have hsequence := lookalike_sequence
  simp only [lookalike, Session.ofRegistry] at hget hsequence ⊢
  generalize Registry.empty.registerNew lookalikes = r at hget hsequence
  -- a number that is used up changes no lookup
  have ha : ∀ k, ({ r with sequence := k } : Registry).get? "a" = some lookalikes[0] :=
    fun _ => hget "a"
  have ha₁ : ∀ k, ({ r with sequence := k } : Registry).get? "a$1" = some lookalikes[1] :=
    fun _ => hget "a$1"
  have hb : ∀ k, ({ r with sequence := k } : Registry).get? "b" = none := fun _ => hget "b"
  have h₀ : (InstanceName.numbered "a$1" 0).text = "/arrayflow/a$1$0" := by decide
  have h₂ : (InstanceName.numbered "a" 2).text = "/arrayflow/a$2" := by decide
  simp [lookalikeCreations, creates, Operation.numbered?, perform, Engine.create, Pool.locality?,
    Pool.hosts, Session.create, Session.createNamed, Registry.nextName, hsequence, ha, ha₁, hb,
    lookalikes, Graph.build, Graph.check, Primitive.accepts, Primitive.needsValid, Graph.add,
    Graph.empty, h₀, h₂, Except.mapError, Except.toOption]

/-- Both instances are told apart by their names, which end in different numbers. -/
theorem lookalikes_numbered :
    (lookalike.after lookalikeCreations).session.registry.sequence = 3 ∧
    (∃ n, (lookalike.after lookalikeCreations).session.graph.node? ⟨1, "/arrayflow/a$2"⟩ = some n ∧
      n.site.name = (InstanceName.numbered "a" 2).text) ∧
    ["/arrayflow/a$1$0", "/arrayflow/a$2"].Nodup := by
  have hlt : (lookalike.creates lookalikeCreations).length < UInt64.size := by
    rw [lookalike_creates]
    decide
  obtain ⟨-, -, hsequence, hnumbered, hnames⟩ := names_numbered lookalike_sequence hlt
  rw [lookalike_creates] at hsequence hnumbered hnames
  obtain ⟨hname, n, hn, hsite⟩ := hnumbered 2 "a" _ rfl
  exact ⟨hsequence, ⟨n, hn, hsite.trans hname⟩, hnames⟩

end Engine

end ArrayGraph
