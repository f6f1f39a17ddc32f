import ArrayGraph.Proofs.Evaluation.Matching
import ArrayGraph.Proofs.Session.Program
/-!
# Where nodes run

A transport that only notes the calls it gets makes no difference to a program but for
its notes. `Graph.inlined` is a graph with every node at its caller's place; a session
`Mirrors` another if its graph is that of the other inlined, its slots are the same, and
its log lacks nothing but notes. `program_placement` says that a program and the program
with every node at its caller's place keep their sessions so.
-/

namespace ArrayGraph

/-! ## Notes of calls -/

theorem threadName_near {l : Locality} (h : l.Near) :
    l.threadName = Locality.here.threadName := by
  cases ht : l.transport with
  | pool size name => exact absurd ht (h size name)
  | inline =>
    rw [Locality.threadName, ht]
    rfl
  | recorder line =>
    rw [Locality.threadName, ht]
    rfl

/-- The line is the note of a call of the node. -/
def Node.Notes (n : Node) (line : String) : Prop :=
  ∃ note, n.locality.transport = .recorder note ∧ line = note n.locality.id n.site

def Graph.Notes (g : Graph) (line : String) : Prop := ∃ n ∈ g.nodes, n.Notes line

/-- The first log is the second with notes between its lines. -/
inductive Noted (note : String → Prop) : Array String → Array String → Prop
  | empty : Noted note #[] #[]
  | line {log log'} (line : String) : Noted note log log' →
      Noted note (log.push line) (log'.push line)
  | note {log log' line} : note line → Noted note log log' → Noted note (log.push line) log'

theorem Noted.mono {note note' : String → Prop} {log log' : Array String}
    (h : Noted note log log') (hn : ∀ line, note line → note' line) : Noted note' log log' := by
  induction h with
  | empty => exact .empty
  | line line _ ih => exact .line line ih
  | note hline _ ih => exact .note (hn _ hline) ih

/-! ## Inlined graphs -/

def Node.inlined (n : Node) : Node := { n with locality := .here }

def Graph.inlined (g : Graph) : Graph := ⟨g.nodes.map Node.inlined⟩

def Session.Request.inlined : Request → Request
  | create name operands _ codename => create name operands .here codename
  | createNamed name operands _ site => createNamed name operands .here site
  | evaluate v args => evaluate v args

/-- The node that the request asks for, if it asks for one, is placed locally. -/
def Session.Request.Local : Request → Prop
  | create _ _ locality _ => locality.Near
  | createNamed _ _ locality _ => locality.Near
  | evaluate _ _ => True

/-- The second session is the first with every node at its caller's place. -/
structure Session.Mirrors (s s' : Session) : Prop where
  registry : s'.registry = s.registry
  graph : s'.graph = s.graph.inlined
  slots : s'.world.slots = s.world.slots
  log : Noted s.graph.Notes s.world.log s'.world.log

theorem node?_inlined (g : Graph) (h : Handle) :
    g.inlined.node? h = (g.node? h).map Node.inlined :=
  Array.getElem?_map ..

theorem check_inlined (g : Graph) (p : Primitive) (operands : List Value) :
    g.inlined.check p operands = g.check p operands := by
  have hv : ∀ v, g.inlined.isVariable v = g.isVariable v := by
    intro v
    cases v with
    | node h =>
      simp only [Graph.isVariable, node?_inlined]
      cases g.node? h <;> rfl
    | _ => rfl
  unfold Graph.check
  simp only [hv]

theorem add_inlined (g : Graph) (n : Node) :
    (g.inlined.add n.inlined).2 = (g.add n).2.inlined := by
  simp [Graph.add, Graph.inlined, Node.inlined]

/-! ## Evaluations -/

/-- A graph matches itself inlined. -/
def Graph.noting (g : Graph) : Matching where
  value _ v v' := v' = v
  world w w' := w'.slots = w.slots ∧ Noted g.Notes w.log w'.log
  leaf _ _ := False
  strict := False
  carries := False

theorem noting_lawful {g : Graph} (hg : ∀ n ∈ g.nodes, n.locality.Near) :
    g.noting.Lawful g g.inlined where
  launch {v v' args w w'} hv _ hw := by
    obtain rfl : v' = v := hv
    cases v' with
    | node h =>
      simp only [Graph.launch, node?_inlined]
      cases hn : g.node? h with
      | none => exact ⟨.done False.elim, hw⟩
      | some n =>
        have hm : n ∈ g.nodes := Array.mem_of_getElem? hn
        have hnear := hg n hm
        have hslot : w'.slot h.index = w.slot h.index := by simp only [World.slot, hw.1]
        have hn' : n.Matched g.noting args n.inlined := by
          refine ⟨rfl, rfl, List.forall₂_same.2 fun _ _ => rfl, fun _ => rfl, fun _ => ?_,
            False.elim⟩
          exact (threadName_near hnear).symm
        have hstart : (Job.start n (w.slot h.index) args).Matched g.noting
            (.start n.inlined (w'.slot h.index) args) :=
          .start hn' (fun _ => hslot) fun _ _ => rfl
        simp only [Option.map_some, Locality.dispatch, Node.inlined, Locality.here]
        cases ht : n.locality.transport with
        | inline => exact ⟨hstart, hw⟩
        | recorder line => exact ⟨hstart, hw.1, .note ⟨n, hm, line, ht, rfl⟩ hw.2⟩
        | pool size name => exact absurd ht (hnear size name)
    | _ => exact ⟨.done False.elim, hw⟩
  setSlot hv hw := ⟨by simp only [World.setSlot, hw.1], hw.2⟩
  write hw := ⟨hw.1, .line _ hw.2⟩
  leaf h := h.elim

section Requests

variable {s s' : Session} (h : s.Mirrors s')

include h

theorem alike_evaluate (hg : ∀ n ∈ s.graph.nodes, n.locality.Near) (v : Value)
    (args : List Value) :
    s.Alike Graph.Evaluates Session.Mirrors s' (.evaluate v args) (.evaluate v args) := by
  have hw : s.graph.noting.world s.world s'.world := ⟨h.slots, h.log⟩
  have hv : s.graph.noting.value args v v := rfl
  have hev : ∀ r, _ := fun r =>
    evaluates_matched (noting_lawful hg) (r := r) hv (fun _ _ => rfl) hw
  rw [← h.graph] at hev
  constructor
  · intro a t hd
    cases hd with
    | evaluate he =>
      obtain ⟨z', hz', hs, hl⟩ := (hev _).2 _ he
      exact ⟨_, .evaluate hz', h.registry, h.graph, hs, hl⟩
  · intro a t' hd
    cases hd with
    | evaluate he =>
      obtain ⟨z, hz, hs, hl⟩ := (hev _).1 _ he
      exact ⟨_, .evaluate hz, h.registry, h.graph, hs, hl⟩

theorem mirrors_createNamed (name : String) (operands : List Value) (locality : Locality)
    (site : Site) :
    (s'.createNamed name operands .here site).1 = (s.createNamed name operands locality site).1 ∧
      (s.createNamed name operands locality site).2.Mirrors
        (s'.createNamed name operands .here site).2 := by
  unfold Session.createNamed
  rw [h.registry]
  cases s.registry.get? name with
  | none => exact ⟨rfl, h⟩
  | some p =>
    dsimp only [Graph.build]
    rw [h.graph, check_inlined]
    cases s.graph.check p.primitive operands with
    | error cause => exact ⟨rfl, h⟩
    | ok _ =>
      refine ⟨?_, rfl, add_inlined s.graph ⟨p.primitive, operands, site, locality⟩, ?_, ?_⟩
      · simp [Graph.add, Graph.inlined]
      · simp only [h.slots]
      · refine h.log.mono fun line hline => ?_
        obtain ⟨n, hn, hl⟩ := hline
        exact ⟨n, Array.mem_push_of_mem _ hn, hl⟩

end Requests

/-- A node that a request adds is placed where the request says. -/
theorem createNamed_near {s : Session} {name : String} {operands : List Value}
    {locality : Locality} {site : Site} (hg : ∀ n ∈ s.graph.nodes, n.locality.Near)
    (hl : locality.Near) :
    ∀ n ∈ (s.createNamed name operands locality site).2.graph.nodes, n.locality.Near := by
  unfold Session.createNamed
  split
  · exact hg
  · unfold Graph.build
    dsimp only
    split
    · exact hg
    · rename_i heq
      split at heq
      · cases heq
      · cases heq
        intro n hn
        rcases Array.mem_push.1 hn with hn | rfl
        · exact hg n hn
        · exact hl

theorem replays_inlined {requests : List Session.Request} (hq : ∀ q ∈ requests, q.Local)
    {s s' : Session} (h : s.Mirrors s') (hg : ∀ n ∈ s.graph.nodes, n.locality.Near) :
    s.Replays Graph.Evaluates Session.Mirrors s' requests
      (requests.map Session.Request.inlined) := by
  induction requests generalizing s s' with
  | nil => exact replays_nil
  | cons q requests ih =>
    rw [List.forall_mem_cons] at hq
    have hnext : ∀ a t t', s.Does Graph.Evaluates q a t → t.Mirrors t' →
        t.Replays Graph.Evaluates Session.Mirrors t' requests
          (requests.map Session.Request.inlined) := by
      intro a t t' hd ht
      refine ih hq.2 ht ?_
      cases hd with
      | create => exact createNamed_near hg hq.1
      | createNamed => exact createNamed_near hg hq.1
      | evaluate _ => exact hg
    refine replays_cons ?_ hnext
    cases q with
    | create name operands locality codename =>
      have hnext : Session.Mirrors { s with registry := (s.registry.nextName name).2 }
          { s' with registry := (s.registry.nextName name).2 } := ⟨rfl, h.graph, h.slots, h.log⟩
      have hnamed := mirrors_createNamed hnext name operands locality
        ⟨(s.registry.nextName name).1.text, codename⟩
      refine alike_create ?_ ?_ <;> simp only [Session.create, h.registry]
      · exact hnamed.1
      · exact hnamed.2
    | createNamed name operands locality site =>
      obtain ⟨ha, hr⟩ := mirrors_createNamed h name operands locality site
      exact alike_createNamed ha hr
    | evaluate v args => exact alike_evaluate h hg v args

/-- Under transports that do no more than note their calls, a program gets the answers
that it gets with every node at its caller's place, one by one, and leaves the same
slots; the two logs differ by the notes only. -/
theorem program_placement (registry : Registry) (requests : List Session.Request)
    (hl : ∀ q ∈ requests, q.Local) :
    (Session.ofRegistry registry).Replays Graph.Evaluates Session.Mirrors (.ofRegistry registry)
      requests (requests.map Session.Request.inlined) :=
  replays_inlined hl ⟨rfl, by simp [Session.ofRegistry, Graph.inlined, Graph.empty], rfl, .empty⟩
    (by simp [Session.ofRegistry, Graph.empty])

/-- One node on a locality that notes the names of the nodes it is called for. -/
def notedCall : List Session.Request :=
  [.createNamed "access_argument" [.int 0] ⟨⟨1⟩, .recorder fun _ site => site.name⟩
      ⟨"first", "sample"⟩,
    .evaluate (.node ⟨0, "first"⟩) [.int 7]]

theorem notedCall_placement :
    let session := Session.ofRegistry (Registry.empty.registerNew Pattern.slots)
    (∀ q ∈ notedCall, q.Local) ∧
    session.Replays Graph.Evaluates Session.Mirrors session notedCall
      (notedCall.map Session.Request.inlined) ∧
    ∃ s t, session.Performs Graph.Evaluates notedCall
      [(.created (.ok ⟨0, "first"⟩), s), (.evaluated (.ok (.int 7)), t)] ∧
      t.world.log = #["first"] := by
  intro session
  have hl : ∀ q ∈ notedCall, q.Local := by
    simp [notedCall, Session.Request.Local, Locality.Near]
  have hd := @Session.Does.createNamed Graph.Evaluates session "access_argument" [.int 0]
    ⟨⟨1⟩, .recorder fun _ site => site.name⟩ ⟨"first", "sample"⟩
  rw [createNamed_eq (Session.get?_slots (p := Pattern.slots[2]) (by decide)) rfl] at hd
  exact ⟨hl, program_placement _ _ hl, _, _, .cons hd (.cons (.evaluate ⟨4, rfl⟩) .nil), rfl⟩

end ArrayGraph
