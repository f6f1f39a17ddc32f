import ArrayGraph.Engine
import ArrayGraph.Proofs.Evaluation.Fairness
import ArrayGraph.Proofs.Evaluation.Matching
import ArrayGraph.Proofs.Evaluation.Order
/-!
# Panics on a pool

A job that panics on a locality of a pool is an error of its node's site to whoever waits
for it. So the graph of an engine evaluates as it does at its caller's place, where every
node that panics gives that error and every node that names its thread gives the name of
its locality's (`Graph.contained`). If its joins are fair this is so under every schedule
of the pool's threads: `panics_contained`.
-/

namespace ArrayGraph

variable {g : Graph} {p : Pool}

/-- All nodes are on localities of the pool. -/
def Graph.PlacedOn (g : Graph) (p : Pool) : Prop :=
  ∀ n ∈ g.nodes, ∃ id, p.locality? id = some n.locality

theorem dispatch_placed {id : LocalityId} {l : Locality} (h : p.locality? id = some l)
    (site : Site) (j : Job) (w : World) : l.dispatch site j w = (.placed l.id site j, w) := by
  unfold Pool.locality? at h
  split at h
  · rename_i hid
    cases h
    simp only [Locality.dispatch, Pool.place]
    exact if_pos (decide_eq_true_iff.1 hid)
  · cases h

/-- The node as its caller would run it. One that panics stays where it is: it has no
operands to evaluate, and its locality makes an error of the panic. -/
def Node.contained (n : Node) : Node :=
  match n.primitive with
  | .explode => n
  | .threadName =>
    { n with primitive := .echo, operands := [.str n.locality.threadName], locality := .here }
  | _ => { n with locality := .here }

def Graph.contained (g : Graph) : Graph := ⟨g.nodes.map Node.contained⟩

/-- Jobs of nodes that panic or name their thread, and what stands for them. -/
inductive Contained : Job → Job → Prop
  | exploding {n content args id} : n.primitive = .explode →
      Contained (.placed id n.site (.start n content args))
        (.placed id n.site (.start n content args))
  | exploded {id site} :
      Contained (.placed id site (.done (.error .panic))) (.placed id site (.done (.error .panic)))
  | naming {n content args id} : n.primitive = .threadName →
      Contained (.placed id n.site (.start n content args)) (.start n.contained content args)

theorem contained_step {j j' : Job} {w w' : World} (h : Contained j j')
    (hw : (g.nodewise Contained).world w w') : ∃ q w₁, j.ComesTo g w q w₁ ∧
      q.Matched (g.nodewise Contained) (j'.step g.contained w').1 ∧
      (g.nodewise Contained).world w₁ (j'.step g.contained w').2 := by
  cases h with
  | @exploding n content args id hp =>
    refine ⟨_, _, .now rfl, ?_⟩
    simp only [Job.step, Node.run, hp]
    exact ⟨.moved (.leaf .exploded), hw⟩
  | @exploded id site =>
    exact ⟨_, _, .now rfl, .finished (allows_fail fun _ => Cause.noConfusion), hw⟩
  | @naming n content args id hp =>
    refine ⟨_, _, .now rfl, ?_⟩
    simp only [Job.step, Node.run, Node.contained, hp]
    exact ⟨.moved (.carried trivial trivial (.done (allows_plain rfl))), hw⟩

theorem contained_other {n : Node} (he : n.primitive ≠ .explode) (ht : n.primitive ≠ .threadName) :
    n.contained = { n with locality := .here } := by
  unfold Node.contained
  split
  · exact absurd ‹_› he
  · exact absurd ‹_› ht
  · rfl

theorem contained_lawful (hp : g.PlacedOn p) (hg : g.Grounded w) :
    (g.nodewise Contained).Lawful g g.contained := by
  refine nodewise_lawful (fun n hn content args w w' hc ha => ?_) contained_step
  obtain ⟨id, hid⟩ := hp n hn
  rw [dispatch_placed hid]
  by_cases he : n.primitive = .explode
  · have hsame : n.contained = n := by simp only [Node.contained, he]
    rw [hsame, dispatch_placed hid]
    exact .leaf (.exploding he)
  by_cases ht : n.primitive = .threadName
  · have hhere : n.contained.locality = .here := by simp only [Node.contained, ht]
    rw [hhere]
    exact .leaf (.naming ht)
  · rw [contained_other he ht]
    refine .carried trivial trivial (.start ?_ (fun hp => ⟨rfl, hc hp⟩) ha)
    exact ⟨rfl, rfl, nodewise_operands (hg.below n hn), fun _ => rfl, fun hp => absurd hp ht,
      fun _ => complete_of_tame (hg.tame n hn) he (hg.checked n hn)⟩

/-- An evaluation on the pool comes to no panic. It comes to what the contained graph
evaluates to, and leaves the same slots. -/
theorem evaluates_contained {v : Value} {args : List Value} {w : World} {r : Outcome}
    (hp : g.PlacedOn p) (hg : g.Grounded w) (hv : ∀ x ∈ v :: args, x.Below g.nodes.size) :
    (∀ z, g.Evaluates v args w r z → r ≠ .error .panic ∧
      ∃ z', g.contained.Evaluates v args w r z' ∧ z'.slots = z.slots) ∧
    ∀ z', g.contained.Evaluates v args w r z' → ∃ z, g.Evaluates v args w r z ∧
      z'.slots = z.slots := by
  have hlawful := contained_lawful hp hg
  rw [List.forall_mem_cons] at hv
  have hvalue : (g.nodewise Contained).value args v v := nodewise_value hv.1
  have hargs : (g.nodewise Contained).Supplied args := fun a hm => nodewise_value (hv.2 a hm)
  have hworld : (g.nodewise Contained).world w w := ⟨rfl, hg.holds⟩
  obtain ⟨hback, hforth⟩ := evaluates_matched hlawful (r := r) hvalue hargs hworld
  constructor
  · intro z hz
    obtain ⟨z', hz', hs, -⟩ := hforth z hz
    exact ⟨(evaluates_allowed hlawful hvalue hargs hworld hz trivial).2, z', hz', hs⟩
  · intro z' hz'
    obtain ⟨z, hz, hs, -⟩ := hback z' hz'
    exact ⟨z, hz, hs⟩

theorem node?_contained {t : Handle} {n : Node} (hn : g.node? t = some n) :
    g.contained.node? t = some n.contained := by
  rw [Graph.node?, Graph.contained, Array.getElem?_map]
  exact congrArg (Option.map Node.contained) hn

section Leaves

variable {t : Handle} {n : Node} {args : List Value} {w z : World} {r : Outcome}

/-- A contained node that panics fails at its own site. -/
theorem evaluates_exploding (hg : g.PlacedOn p) (hn : g.node? t = some n)
    (hp : n.primitive = .explode) :
    g.contained.Evaluates (.node t) args w r z ↔
      r = .fail n.site (.incomplete n.locality.id) ∧ z = w := by
  obtain ⟨id, hid⟩ := hg n (Array.mem_of_getElem? hn)
  have hsame : n.contained = n := by simp only [Node.contained, hp]
  have hn' := node?_contained hn
  rw [hsame] at hn'
  rw [evaluates_iff]
  simp only [Graph.launch, hn', dispatch_placed hid]
  have hstart : (Job.placed n.locality.id n.site (.start n (w.slot t.index) args)).step
      g.contained w = (.moved (.placed n.locality.id n.site (.done (.error .panic))), w) := by
    simp only [Job.step, Node.run, hp]
  exact (Job.runs_step hstart).trans (Job.runs_step rfl)

/-- One that names its thread gives the name of its locality's. -/
theorem evaluates_naming (hg : g.PlacedOn p) (hn : g.node? t = some n)
    (hp : n.primitive = .threadName) :
    g.contained.Evaluates (.node t) args w r z ↔
      r = .ok (.str (p.threadName ++ "-" ++ toString n.locality.id.index.toNat)) ∧ z = w := by
  obtain ⟨id, hid⟩ := hg n (Array.mem_of_getElem? hn)
  have hname : n.locality.threadName =
      p.threadName ++ "-" ++ toString n.locality.id.index.toNat := by
    unfold Pool.locality? at hid
    split at hid
    · rw [← Option.some.inj hid]
      rfl
    · cases hid
  rw [evaluates_iff]
  simp only [Graph.launch, node?_contained hn, Node.contained, hp]
  rw [← hname]
  exact (Job.runs_step rfl).trans (Job.runs_step rfl)

end Leaves

/-! ## Engines -/

/-- Engines that creations and evaluations lead to. A new node is on one of the engine's
localities; if it is not built-in, it panics, names its thread or gives a value that is
no handle. An evaluation may be under any schedule, and may be given up on its way. -/
inductive Engine.Reachable : Engine → Prop
  | start {settings codename pool registry} :
      Reachable ⟨settings, codename, pool, .ofRegistry registry⟩
  | create {e name id operands} : Reachable e →
      (∀ v ∈ operands, v.Below e.session.graph.nodes.size) →
      (∀ q site l, e.session.registry.get? name = some q →
        Node.Tame ⟨q.primitive, operands, site, l⟩) →
      Reachable (e.create name id operands).2
  | createNamed {e name operands id l site} : Reachable e → e.pool.locality? id = some l →
      (∀ v ∈ operands, v.Below e.session.graph.nodes.size) →
      (∀ q, e.session.registry.get? name = some q →
        Node.Tame ⟨q.primitive, operands, site, l⟩) →
      Reachable { e with session := (e.session.createNamed name operands l site).2 }
  | evaluate {e v args j u} : Reachable e →
      e.session.graph.Schedules v args e.session.world j u →
      Reachable { e with session := { e.session with world := u } }

/-- An engine that has started is one of those. -/
theorem start_reachable {settings : Settings} {codename : String} {patterns : List Pattern}
    {e : Engine} (h : Engine.start settings codename patterns = .ok e) : e.Reachable := by
  simp only [Engine.start, bind, Except.bind] at h
  split at h
  · cases h
  · split at h
    · cases h
    · split at h
      · cases h
      · cases h
        exact .start

structure Engine.Furnished (e : Engine) : Prop where
  placed : e.session.graph.PlacedOn e.pool
  grounded : e.session.graph.Grounded e.session.world

theorem createNamed_placed {s : Session} {name : String} {operands : List Value} {l : Locality}
    {id : LocalityId} {site : Site} (h : s.graph.PlacedOn p) (hl : p.locality? id = some l) :
    (s.createNamed name operands l site).2.graph.PlacedOn p := by
  rcases createNamed_cases s name operands l site with he | ⟨q, hq, hc⟩
  · rw [he]
    exact h
  · rw [createNamed_eq hq hc]
    intro n hn
    rcases Array.mem_push.1 hn with hn | rfl
    · exact h n hn
    · exact ⟨id, hl⟩

theorem reachable_furnished {e : Engine} (h : e.Reachable) : e.Furnished := by
  induction h with
  | start => exact ⟨by simp [Session.ofRegistry, Graph.PlacedOn, Graph.empty], grounded_empty⟩
  | @create e name id operands _ hr ht ih =>
    unfold Engine.create
    split
    · exact ih
    · rename_i l hl
      exact ⟨createNamed_placed (s := { e.session with registry := _ }) ih.placed hl,
        createNamed_grounded (s := { e.session with registry := _ }) ih.grounded
          (fun q hq => ht q _ _ hq) hr⟩
  | createNamed _ hl hr ht ih =>
    exact ⟨createNamed_placed ih.placed hl, createNamed_grounded ih.grounded ht hr⟩
  | evaluate _ hs ih => exact ⟨ih.placed, ih.grounded.kept (schedules_kept ih.grounded hs)⟩

/-- Evaluations on an engine do not panic. If its joins are fair, then under every schedule
of the threads an evaluation comes to the value or error that the contained graph evaluates
to, and with a value it leaves the same slots; one that has begun can always come to it.
The caller's own turns leave the same slots with an error, too. In the contained graph a
node that panics fails at its own site, and one that names its thread gives the name of its
locality's. -/
theorem panics_contained {settings : Settings} {codename : String} {p : Pool} {registry : Registry}
    {g : Graph} {w : World} {v : Value} {args : List Value}
    (he : Engine.Reachable ⟨settings, codename, p, ⟨registry, g, w⟩⟩)
    (hv : ∀ x ∈ v :: args, x.Below g.nodes.size) (hf : g.FairFor v args w) :
    (∀ r z, g.Schedules v args w (.done r) z → r ≠ .error .panic ∧
      ∃ z', g.contained.Evaluates v args w r z' ∧ ∀ x, r = .ok x → z'.slots = z.slots) ∧
    (∀ r z', g.contained.Evaluates v args w r z' → ∀ j u, g.Schedules v args w j u →
      ∃ z, j.Scheduled g u (.done r) z ∧ ∀ x, r = .ok x → z'.slots = z.slots) ∧
    (∀ r z, g.Evaluates v args w r z → r ≠ .error .panic ∧
      ∃ z', g.contained.Evaluates v args w r z' ∧ z'.slots = z.slots) ∧
    (∀ t n, g.node? t = some n → n.primitive = .explode → ∀ as u r z,
      g.contained.Evaluates (.node t) as u r z ↔
        r = .fail n.site (.incomplete n.locality.id) ∧ z = u) ∧
    ∀ t n, g.node? t = some n → n.primitive = .threadName → ∀ as u r z,
      g.contained.Evaluates (.node t) as u r z ↔
        r = .ok (.str (p.threadName ++ "-" ++ toString n.locality.id.index.toNat)) ∧ z = u := by
  obtain ⟨hp, hg⟩ := reachable_furnished he
  have hturns := fun r => evaluates_contained (r := r) hp hg hv
  refine ⟨?_, ?_, fun r => (hturns r).1, fun t n hn hx as u r z => evaluates_exploding hp hn hx,
    fun t n hn hx as u r z => evaluates_naming hp hn hx⟩
  · intro r z hz
    have hlike := schedules_like hg hf hz
    obtain ⟨z₀, hz₀⟩ : (g.launch v args w).1.Gives g (g.launch v args w).2 r := by
      rw [← hlike.ends]
      exact gives_done.2 rfl
    obtain ⟨hne, z', hz', hs⟩ := (hturns r).1 z₀ hz₀
    refine ⟨hne, z', hz', ?_⟩
    rintro x rfl
    exact hs.trans (hlike.slots x z₀ z hz₀ (runs_done.2 ⟨rfl, rfl⟩))
  · intro r z' hz' j u hj
    obtain ⟨z₀, hz₀, hs⟩ := (hturns r).2 z' hz'
    have hlike := schedules_like hg hf hj
    obtain ⟨z, hz⟩ : j.Gives g u r := by
      rw [hlike.ends]
      exact ⟨z₀, hz₀⟩
    refine ⟨z, scheduled_of_runs hz, ?_⟩
    rintro x rfl
    exact hs.trans (hlike.slots x z₀ z hz₀ hz)

namespace Engine

theorem Reachable.add {settings : Settings} {codename name : String} {p : Pool}
    {registry : Registry} {g : Graph} {w : World} {q : Pattern} {n : Node}
    (h : Engine.Reachable ⟨settings, codename, p, ⟨registry, g, w⟩⟩)
    (hq : registry.get? name = some q) (hn : n.primitive = q.primitive)
    (hl : ∃ id, p.locality? id = some n.locality) (hr : ∀ v ∈ n.operands, v.Below g.nodes.size)
    (ht : n.Tame) (hc : g.check n.primitive n.operands = .ok ()) :
    Engine.Reachable ⟨settings, codename, p, ⟨registry, (g.add n).2,
      { w with slots := w.slots.push (Session.initialSlot n.primitive n.operands) }⟩⟩ := by
  obtain ⟨primitive, operands, site, l⟩ := n
  obtain rfl : primitive = q.primitive := hn
  obtain ⟨id, hl⟩ := hl
  have hadd : Engine.Reachable ⟨settings, codename, p,
      (Session.createNamed ⟨registry, g, w⟩ name operands l site).2⟩ := by
    refine h.createNamed hl hr fun q' hq' => ?_
    cases hq.symm.trans hq'
    exact ht
  rw [createNamed_eq hq hc] at hadd
  exact hadd

def samplePool : Pool := ⟨2, "locality"⟩

/-- A number is stored on the one locality while a node panics on the other. -/
def sample : Engine where
  settings := { localities := 2 }
  codename := defaultCodename
  pool := samplePool
  session :=
    { registry := Registry.empty.registerNew (Pattern.slots ++ Pattern.control ++ Pattern.observers)
      graph := ⟨#[⟨.variable, [.int 0], ⟨"slot", "sample"⟩, samplePool.place ⟨0⟩⟩,
        ⟨.store, [.node ⟨0, "slot"⟩, .int 5], ⟨"five", "sample"⟩, samplePool.place ⟨0⟩⟩,
        ⟨.explode, [], ⟨"crash", "sample"⟩, samplePool.place ⟨1⟩⟩,
        ⟨.parallelBlock, [.node ⟨1, "five"⟩, .node ⟨2, "crash"⟩], ⟨"both", "sample"⟩,
          samplePool.place ⟨0⟩⟩]⟩
      world := ⟨#[.int 0, .empty, .empty, .empty], #[]⟩ }

theorem get?_sample {q : Pattern} (h : q ∈ Pattern.slots ++ Pattern.control ++ Pattern.observers) :
    sample.session.registry.get? q.name = some q := Registry.get?_of_names (by decide) h

theorem sample_reachable : sample.Reachable := by
  have hslot := get?_sample (q := Pattern.slots[0]) (by decide)
  have hstore := get?_sample (q := Pattern.slots[1]) (by decide)
  have hboth := get?_sample (q := Pattern.control[4]) (by decide)
  have hcrash := get?_sample (q := Pattern.observers[2]) (by decide)
  have h₀ : Engine.Reachable ⟨sample.settings, sample.codename, samplePool,
    .ofRegistry sample.session.registry⟩ := .start
  have h₁ := h₀.add (n := sample.session.graph.nodes[0]) hslot rfl ⟨⟨0⟩, rfl⟩ (by decide)
    trivial rfl
  have h₂ := h₁.add (n := sample.session.graph.nodes[1]) hstore rfl ⟨⟨0⟩, rfl⟩ (by decide)
    trivial rfl
  have h₃ := h₂.add (n := sample.session.graph.nodes[2]) hcrash rfl ⟨⟨1⟩, rfl⟩ (by decide)
    trivial rfl
  exact h₃.add (n := sample.session.graph.nodes[3]) hboth rfl ⟨⟨0⟩, rfl⟩ (by decide) trivial rfl

theorem sample_world_plain (i : Nat) : (sample.session.world.slot i).Plain := by
  match i with
  | 0 | 1 | 2 | 3 => rfl
  | i + 4 => rfl

/-- Only the store and the node that panics are ever side by side, and the store does not
fail. -/
theorem sample_fair :
    sample.session.graph.FairFor (.node ⟨3, "both"⟩) [] sample.session.world := by
  intro j u hs n hn args _ hk
  have hg := (reachable_furnished sample_reachable).grounded
  have hplain : ∀ i, (u.slot i).Plain := fun i => by
    rcases (schedules_kept hg hs).slot i with he | ⟨-, hp⟩
    · rw [he]
      exact sample_world_plain i
    · exact hp
  have hleads : ∀ i ks, (u.slot i).leadsInto ks = true := fun i => leadsInto_of_plain (hplain i)
  have hnode : n = sample.session.graph.nodes[3] := by
    simp only [sample, List.mem_toArray, List.mem_cons, List.not_mem_nil, or_false] at hn
    rcases hn with rfl | rfl | rfl | rfl
    · cases hk
    · cases hk
    · cases hk
    · rfl
  subst hnode
  refine List.pairwise_pair.2 ⟨apart_span ?_ ?_, ?_⟩
  · decide
  · refine apart_of_closedOn [0, 1] [2] (by decide) rfl rfl ?_ ?_
    · simp [Graph.closedOn, hleads]
      decide
    · simp [Graph.closedOn, hleads]
      decide
  · rintro ⟨⟨e, z, hz⟩, -⟩
    have hok : sample.session.graph.Evaluates (.node ⟨1, "five"⟩) args u (.ok .empty)
        (u.setSlot 0 (.int 5)) := ⟨20, rfl⟩
    cases (Job.Runs.unique hz hok).1

/-- Under every schedule the panic is an error at its own site. -/
theorem sample_panic_contained :
    sample.Reachable ∧
    sample.session.graph.FairFor (.node ⟨3, "both"⟩) [] sample.session.world ∧
    ∀ r, (∃ z, sample.session.graph.Schedules (.node ⟨3, "both"⟩) [] sample.session.world
      (.done r) z) ↔ r = .fail ⟨"crash", "sample"⟩ (.incomplete ⟨1⟩) := by
  obtain ⟨hforth, hback, -⟩ := panics_contained sample_reachable (by decide) sample_fair
  have he : sample.session.graph.contained.Evaluates (.node ⟨3, "both"⟩) [] sample.session.world
      (.fail ⟨"crash", "sample"⟩ (.incomplete ⟨1⟩)) ⟨#[.int 5, .empty, .empty, .empty], #[]⟩ := by
    simp only [Graph.contained, sample, List.map_toArray, List.map_cons, List.map_nil]
    exact ⟨20, rfl⟩
  refine ⟨sample_reachable, sample_fair, fun r => ⟨?_, ?_⟩⟩
  · rintro ⟨z, hz⟩
    obtain ⟨-, z', hz', -⟩ := hforth r z hz
    exact (Job.Runs.unique hz' he).1
  · rintro rfl
    obtain ⟨z, hz, -⟩ := hback _ _ he _ _ .refl
    exact ⟨z, hz⟩

end Engine

end ArrayGraph
