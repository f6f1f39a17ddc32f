import ArrayGraph.Proofs.Evaluation.Bounds
import ArrayGraph.Proofs.Evaluation.Path
/-!
# Calls in the log

A recording transport writes a line for each call of a node. Where nothing is stored and
nothing chosen, nodes are called for once for each path of operands that leads to them, so
one that is an operand twice is called twice (`called_per_path`). Operands side by side are
called before any of them runs.

The proof is by induction on the graph. What a node that has begun to run adds to the log
does not depend on what is in it: the lines of a walk below the node (`Graph.Recounts`).
-/

namespace ArrayGraph

variable {g : Graph} {w z : World} {n : Node} {i : Nat}

/-! ## Recorded graphs -/

/-- The line that a recorder writes of a call. -/
def Locality.note? (l : Locality) (site : Site) : Option String :=
  match l.transport with
  | .recorder line => some (line l.id site)
  | _ => none

/-- All calls are recorded. -/
def Graph.Recorded (g : Graph) : Prop := ∀ n ∈ g.nodes, (n.locality.note? n.site).isSome = true

/-- The line of a call of this node. -/
def Graph.note (g : Graph) (i : Nat) : String :=
  ((g.nodes[i]?).bind fun n => n.locality.note? n.site).getD ""

/-- The lines of calls, in order. -/
def Graph.notes (g : Graph) (visits : List Visit) : List String := visits.map fun x => g.note x.node

/-- A node that joins operands or takes one after the other, or a constant that goes by its
own name. -/
def Node.Dataflow (n : Node) : Prop :=
  match n.primitive with
  | .compare _ | .arithmetic _ | .statistic _ | .block | .parallelBlock => n.operands ≠ []
  | .constant => n.operands = []
  | _ => False

def Graph.Dataflow (g : Graph) : Prop := ∀ n ∈ g.nodes, n.Dataflow

theorem notes_append (xs ys : List Visit) : g.notes (xs ++ ys) = g.notes xs ++ g.notes ys :=
  List.map_append

/-- From where a node is seen makes no difference to its line. -/
theorem notes_under (p : List Nat) (visits : List Visit) :
    g.notes (visits.map (·.under p)) = g.notes visits := List.map_map

/-- A line that no other node has is there once for each visit of its node. -/
theorem count_notes (hi : ∀ j, g.note j = g.note i → j = i) (visits : List Visit) :
    (g.notes visits).count (g.note i) = (visits.map (·.node)).count i := by
  rw [Graph.notes, List.count_eq_countP, List.countP_map, List.count_eq_countP, List.countP_map]
  refine List.countP_congr fun x _ => ?_
  simp only [Function.comp_apply, beq_iff_eq]
  constructor
  · exact hi x.node
  · intro he
    rw [he]

theorem notes_calls (v : Value) (a b : Nat) : g.notes (v.calls a) = g.notes (v.calls b) := by
  cases v <;> rfl

/-- The lines of visits that are listed by position, whatever the positions are. -/
theorem notes_flatMap {α : Type} {f : α → Nat → List Visit} {lines : α → List String}
    (hf : ∀ x a, g.notes (f x a) = lines x) (l : List α) (a : Nat) :
    g.notes ((l.zipIdx a).flatMap fun t => f t.1 t.2) = l.flatMap lines := by
  induction l generalizing a with
  | nil => rfl
  | cons x l ih =>
    rw [List.zipIdx_cons, List.flatMap_cons, notes_append, ih, hf, List.flatMap_cons]

theorem notes_node_calls (n : Node) :
    g.notes n.calls = n.operands.flatMap fun v => g.notes (v.calls 0) :=
  notes_flatMap (fun v a => notes_calls v a 0) n.operands 0

theorem notes_below (team : List Errand) :
    g.notes (listed team Errand.below) = team.flatMap fun e => g.notes e.visits :=
  notes_flatMap (fun e a => notes_under [a] e.visits) team 0

theorem notes_whole (team : List Errand) : g.notes (listed team Errand.whole) =
    team.flatMap fun e => g.notes (e.value.calls 0) ++ g.notes e.visits := by
  refine notes_flatMap (fun e a => ?_) team 0
  rw [Errand.whole, Errand.below, notes_append, notes_calls e.value a 0, notes_under]

/-! ## Launching -/

theorem launch_recorded (hr : g.Recorded) {h : Handle} (hn : g.node? h = some n)
    (args : List Value) (w : World) : g.launch (.node h) args w =
      (.start n (w.slot h.index) args, w.write (g.note h.index)) := by
  have hnote : g.note h.index = (n.locality.note? n.site).getD "" := by
    have hn' : g.nodes[h.index]? = some n := hn
    rw [Graph.note, hn', Option.bind_some]
  have hsome := hr n (Array.mem_of_getElem? hn)
  rw [hnote]
  simp only [Graph.launch, hn, Locality.dispatch, Locality.note?] at hsome ⊢
  cases ht : n.locality.transport with
  | recorder line => rfl
  | inline =>
    rw [ht] at hsome
    cases hsome
  | pool size name =>
    rw [ht] at hsome
    cases hsome

/-- The value is no handle, or one to a node of the graph. -/
def Value.Known (g : Graph) (v : Value) : Prop :=
  ∀ h, v = .node h → (g.node? h).isSome = true

theorem launch_log (hr : g.Recorded) {v : Value} (hv : v.Known g) (args : List Value) (w : World) :
    (g.launch v args w).2.log.toList = w.log.toList ++ g.notes (v.calls 0) := by
  cases v with
  | node h =>
    obtain ⟨n, hn⟩ := Option.isSome_iff_exists.1 (hv h rfl)
    rw [launch_recorded hr hn]
    exact Array.toList_push
  | _ => exact (List.append_nil _).symm

theorem launchAll_log (hr : g.Recorded) {vs : List Value} (hv : ∀ v ∈ vs, v.Known g)
    (args : List Value) (w : World) : (g.launchAll args vs w).2.log.toList =
      w.log.toList ++ vs.flatMap fun v => g.notes (v.calls 0) := by
  induction vs generalizing w with
  | nil => exact (List.append_nil _).symm
  | cons v vs ih =>
    rw [List.forall_mem_cons] at hv
    rw [List.flatMap_cons, ← List.append_assoc, ← launch_log hr hv.1 args w]
    exact ih hv.2 _

/-! ## Nothing is put off -/

/-- The scope of an evaluation that stores nothing and never loops. -/
def Scope.still : Scope := ⟨fun _ => True, fun _ => False, False, True⟩

theorem closed_still (hd : g.Dataflow) (w : World) : Scope.still.Closed g w := by
  intro i n _ hn
  have hflow := hd n (Array.mem_of_getElem? hn)
  have hp : n.primitive.isBuiltin = true ∧ n.primitive ≠ .store ∧
      n.primitive.isLoop = false ∧ n.primitive ≠ .variable := by
    unfold Node.Dataflow at hflow
    cases hp : n.primitive with
    | compare | arithmetic | statistic | block | parallelBlock | constant =>
      exact ⟨rfl, nofun, rfl, nofun⟩
    | _ =>
      rw [hp] at hflow
      exact hflow.elim
  refine ⟨⟨tame_of_builtin hp.1, fun _ _ _ _ => trivial, fun _ _ he => absurd he hp.2.1,
    fun hl => ?_, fun _ => trivial⟩, fun hv => absurd hv hp.2.2.2⟩
  rw [hp.2.2.1] at hl
  cases hl

theorem quiet_launch (hd : g.Dataflow) (v : Value) (args : List Value) (u w : World) :
    (g.launch v args u).1.Quiet g w :=
  quiet_of_within (launch_within (closed_still hd u) (fun _ _ => trivial) fun _ _ _ _ _ => trivial)
    (closed_still hd w) id

/-! ## What is called below a node -/

/-- A node that runs to a value adds the lines of a walk below it to the log. -/
def Graph.Recounts (g : Graph) (i : Nat) : Prop :=
  ∀ n content w v z, g.nodes[i]? = some n → (Job.start n content []).Runs g w (.ok v) z →
    ∃ visits, g.Walk i visits ∧ z.log.toList = w.log.toList ++ g.notes visits

/-- The nodes that these values refer to recount. -/
def RecountAll (g : Graph) (vs : List Value) : Prop := ∀ h, .node h ∈ vs → g.Recounts h.index

theorem recountAll_cons {v : Value} {vs : List Value} :
    RecountAll g (v :: vs) ↔ RecountAll g [v] ∧ RecountAll g vs := by
  constructor
  · intro h
    exact ⟨fun k hk => h k (List.mem_cons.2 (.inl (List.mem_singleton.1 hk))),
      fun k hk => h k (List.mem_cons_of_mem _ hk)⟩
  · rintro ⟨hv, hvs⟩ k hk
    rcases List.mem_cons.1 hk with rfl | hk
    · exact hv k List.mem_cons_self
    · exact hvs k hk

theorem Errand.Run.known {e : Errand} (hr : e.Run g) : e.value.Known g := by
  intro h hv
  rw [Errand.Run, hv] at hr
  exact hr.1

section Operands

variable (hr : g.Recorded)

include hr

theorem errand_of_runs {v x : Value} {u : World} (hv : RecountAll g [v])
    (h : (g.launch v [] u).1.Runs g w (.ok x) z) : ∃ e : Errand, e.value = v ∧ e.Run g ∧
      z.log.toList = w.log.toList ++ g.notes e.visits := by
  cases v with
  | node k =>
    cases hn : g.node? k with
    | none =>
      simp only [Graph.launch, hn] at h
      cases (runs_done.1 h).1
    | some n =>
      rw [launch_recorded hr hn] at h
      obtain ⟨visits, hwalk, hlog⟩ := hv k List.mem_cons_self n _ w x z hn h
      exact ⟨⟨.node k, visits⟩, rfl, ⟨Option.isSome_iff_exists.2 ⟨n, hn⟩, hwalk⟩, hlog⟩
  | _ =>
    obtain ⟨-, rfl⟩ := runs_done.1 h
    exact ⟨⟨_, []⟩, rfl, rfl, (List.append_nil _).symm⟩

/-- Operands in sequence are called one by one, each with what is below it. -/
theorem errands_of_sequence {vs values : List Value} (hv : RecountAll g vs)
    (h : g.Sequence [] vs w (.ok values) z) : ∃ team : List Errand, team.map (·.value) = vs ∧
      (∀ e ∈ team, e.Run g) ∧ z.log.toList = w.log.toList ++
        team.flatMap fun e => g.notes (e.value.calls 0) ++ g.notes e.visits := by
  generalize hs : Except.ok values = s at h
  induction h generalizing values with
  | nil => exact ⟨[], rfl, List.forall_mem_nil _, (List.append_nil _).symm⟩
  | @cons v vs w x w' s z hx _ ih =>
    cases s with
    | error e => cases hs
    | ok values' =>
      rw [recountAll_cons] at hv
      obtain ⟨e, rfl, he, hlog⟩ := errand_of_runs hr hv.1 (evaluates_iff.1 hx)
      obtain ⟨team, rfl, hteam, hlogs⟩ := ih hv.2 rfl
      refine ⟨e :: team, rfl, List.forall_mem_cons.2 ⟨he, hteam⟩, ?_⟩
      rw [hlogs, hlog, launch_log hr he.known, List.flatMap_cons]
      simp only [List.append_assoc]
  | halt => cases hs

/-- The operands of a join, once all have been called, run one by one. -/
theorem errands_of_joined (hd : g.Dataflow) {k : Join} (values : List Value) {os : List Value}
    {o x : Value} {u : World} (hv : RecountAll g (o :: os))
    (h : (Job.joined k (Job.finished values).reverse (g.launch o [] u).1
      (os.map fun v => (g.launch v [] u).1)).Runs g w (.ok x) z) :
    ∃ team : List Errand, team.map (·.value) = o :: os ∧ (∀ e ∈ team, e.Run g) ∧
      z.log.toList = w.log.toList ++ team.flatMap fun e => g.notes e.visits := by
  induction os generalizing values o w with
  | nil =>
    obtain ⟨r₁, w₁, ho, hrest⟩ := (runs_joined (quiet_launch hd o [] u w)).1 h
    cases r₁ with
    | error e => cases hrest.1
    | ok y =>
      obtain ⟨e, rfl, he, hlog⟩ := errand_of_runs hr hv ho
      simp only [Join.after, List.map_nil, finished_snoc, turn_finished] at hrest
      obtain ⟨-, rfl⟩ := hrest
      exact ⟨[e], rfl, List.forall_mem_singleton.2 he, by simpa using hlog⟩
  | cons o' os ih =>
    rw [recountAll_cons] at hv
    obtain ⟨r₁, w₁, ho, hrest⟩ := (runs_joined (quiet_launch hd o [] u w)).1 h
    cases r₁ with
    | error e => cases hrest.1
    | ok y =>
      obtain ⟨e, rfl, he, hlog⟩ := errand_of_runs hr hv.1 ho
      simp only [Join.after, List.map_cons, finished_snoc] at hrest
      obtain ⟨team, hvalues, hteam, hlogs⟩ := ih _ hv.2 hrest
      refine ⟨e :: team, congrArg _ hvalues, List.forall_mem_cons.2 ⟨he, hteam⟩, ?_⟩
      rw [hlogs, hlog, List.flatMap_cons, List.append_assoc]

end Operands

/-! ## Nodes -/

section Nodes

variable (hr : g.Recorded) (hn : g.nodes[i]? = some n) (hv : RecountAll g n.operands)
  {content x : Value}

include hr hn hv

/-- A join calls its operands, then adds what each of them adds. -/
theorem recount_join (hd : g.Dataflow) {k : Join} (hk : n.join? = some k) (hne : n.operands ≠ [])
    (h : (Job.start n content []).Runs g w (.ok x) z) :
    ∃ visits, g.Walk i visits ∧ z.log.toList = w.log.toList ++ g.notes visits := by
  rw [Job.runs_begin] at h
  rcases run_joins (g := g) hk (fun _ => hne) content [] with ⟨-, he⟩ | ⟨-, -, he⟩
  · obtain ⟨o, os, ho⟩ := List.exists_cons_of_ne_nil hne
    rw [he, bind_of_operands hne, join_eq, ho, launchAll_jobs rfl] at h
    rw [ho] at hv
    obtain ⟨team, hvalues, hteam, hlog⟩ := errands_of_joined hr hd [] hv h
    rw [← ho] at hvalues hlog
    have hknown : ∀ v ∈ n.operands, v.Known g := by
      rw [← hvalues]
      exact List.forall_mem_map.2 fun e he => (hteam e he).known
    refine ⟨_, walk_joined hn hvalues.symm hteam, ?_⟩
    rw [hlog, launchAll_log hr hknown, notes_append, notes_node_calls, notes_below,
      List.append_assoc]
  · rw [he] at h
    cases (runs_done.1 h).1

/-- A block calls each operand and adds what that one adds before it calls the next. -/
theorem recount_block (hp : n.primitive = .block) (hne : n.operands ≠ [])
    (h : (Job.start n content []).Runs g w (.ok x) z) :
    ∃ visits, g.Walk i visits ∧ z.log.toList = w.log.toList ++ g.notes visits := by
  obtain ⟨o, os, ho⟩ := List.exists_cons_of_ne_nil hne
  have he : n.run g content [] w = g.await (.block [] os) o [] w := by
    simp only [Node.run, hp, ho]
  rw [Job.runs_begin, he, runs_block] at h
  obtain ⟨s, hs, hx⟩ := h
  cases s with
  | error e => cases hx
  | ok values =>
    rw [← ho] at hs
    obtain ⟨team, hvalues, hteam, hlog⟩ := errands_of_sequence hr hv hs
    have hk : n.join? = none := by simp only [Node.join?, hp]
    refine ⟨_, walk_inTurn hn hvalues.symm hteam hk, ?_⟩
    rw [hlog, notes_whole]

end Nodes

theorem recount_constant (hn : g.nodes[i]? = some n) (hp : n.primitive = .constant)
    (ho : n.operands = []) {content x : Value} (h : (Job.start n content []).Runs g w (.ok x) z) :
    ∃ visits, g.Walk i visits ∧ z.log.toList = w.log.toList ++ g.notes visits := by
  have he : n.run g content [] w = (.done (constantNamed n.site (bareName n.site.name)), w) := by
    simp only [Node.run, hp, Node.bind, ho, List.isEmpty_nil, if_true]
  rw [Job.runs_begin, he] at h
  obtain ⟨-, rfl⟩ := runs_done.1 h
  have hk : n.join? = none := by simp only [Node.join?, hp]
  have ho' : n.operands = ([] : List Errand).map (·.value) := ho
  exact ⟨[], walk_inTurn hn ho' (List.forall_mem_nil _) hk, (List.append_nil _).symm⟩

/-- Every node of an acyclic graph recounts, since its operands do. -/
theorem recounts (hr : g.Recorded) (hd : g.Dataflow) (ha : g.Acyclic) : ∀ i, g.Recounts i := by
  refine ha.induction fun i ih n content w x z hn h => ?_
  have hv : RecountAll g n.operands := fun k hk => ih n k hn hk
  have hflow := hd n (Array.mem_of_getElem? hn)
  unfold Node.Dataflow at hflow
  cases hp : n.primitive with
  | compare | arithmetic | statistic | parallelBlock =>
    rw [hp] at hflow
    exact recount_join hr hn hv hd (by rw [Node.join?, hp]) hflow h
  | block =>
    rw [hp] at hflow
    exact recount_block hr hn hv hp hflow h
  | constant =>
    rw [hp] at hflow
    exact recount_constant hn hp hflow h
  | _ =>
    rw [hp] at hflow
    exact hflow.elim

/-! ## Evaluations -/

/-- In a graph that only joins operands and takes them one after the other, the lines that
an evaluation adds to the log are those of calls along paths of operands: one call for each
path from the root, so that a node is called as often as there are paths to it, and has as
many lines if no other node has the same. The operands of a join are called one right after
the other, and whatever any of them calls in its turn comes after all of them. -/
theorem called_per_path {root : Handle} {x : Value} (hr : g.Recorded) (hd : g.Dataflow)
    (ha : g.Acyclic) (h : g.Evaluates (.node root) [] w (.ok x) z) :
    ∃ visits : List Visit, z.log.toList = w.log.toList ++ visits.map (g.note ·.node) ∧
      visits.Nodup ∧ (∀ p i, ⟨p, i⟩ ∈ visits ↔ g.Leads root.index p i) ∧
      (∀ i, {p | g.Leads root.index p i}.encard = (visits.map (·.node)).count i) ∧
      (∀ i, (∀ j, g.note j = g.note i → j = i) →
        z.log.toList.count (g.note i) =
          w.log.toList.count (g.note i) + {p | g.Leads root.index p i}.encard) ∧
      (∀ p i n, g.Leads root.index p i → g.nodes[i]? = some n → n.join?.isSome = true →
        ∃ before after, visits = before ++ n.calls.map (·.under p) ++ after ∧
          ∀ a q k, q ≠ [] → g.Leads root.index (p ++ a :: q) k →
            ⟨p ++ a :: q, k⟩ ∈ after) := by
  have hroot : RecountAll g [.node root] := fun k _ => recounts hr hd ha k.index
  obtain ⟨e, hv, he, hlog⟩ := errand_of_runs hr hroot (evaluates_iff.1 h)
  have hwalk := he.walk hv
  -- the root is visited first, by the path on which nothing is
  let visits : List Visit := ⟨[], root.index⟩ :: e.visits
  have hlines : z.log.toList = w.log.toList ++ g.notes visits := by
    rw [hlog, ← hv, launch_log hr he.known, hv, List.append_assoc]
    rfl
  have hmem : ∀ p i, ⟨p, i⟩ ∈ visits ↔ g.Leads root.index p i := by
    intro p i
    rw [List.mem_cons, hwalk.mem, Visit.mk.injEq]
    by_cases hp : p = []
    · simp [hp, leads_nil]
    · simp [hp]
  have hnodup : visits.Nodup :=
    List.nodup_cons.2 ⟨fun hx => ((hwalk.mem _ _).1 hx).1 rfl, hwalk.nodup⟩
  have hcount := encard_paths hnodup hmem
  refine ⟨visits, hlines, hnodup, hmem, hcount, fun i hi => ?_, fun p i n hl hn hk => ?_⟩
  · rw [hcount, hlines, List.count_append, count_notes hi, Nat.cast_add]
  · obtain ⟨before, after, hvisits, hafter⟩ := hwalk.joins p i n hl hn hk
    exact ⟨⟨[], root.index⟩ :: before, after, congrArg _ hvisits, hafter⟩

/-- A node whose calls are recorded under its name. -/
def Node.noted (p : Primitive) (operands : List Value) (name : String) : Node :=
  ⟨p, operands, ⟨name, "test"⟩, ⟨.here, .recorder fun _ site => site.name⟩⟩

/-- A block that is both operands of a product, and stands beside this product once more. -/
def shared : Graph := ⟨#[
  .noted .constant [] "/arrayflow/pi$0",
  .noted .block [.node ⟨0, "/arrayflow/pi$0"⟩, .int 3] "/arrayflow/block$1",
  .noted (.arithmetic .mul) [.node ⟨1, "/arrayflow/block$1"⟩, .node ⟨1, "/arrayflow/block$1"⟩]
    "/arrayflow/__mul$2",
  .noted .parallelBlock [.node ⟨2, "/arrayflow/__mul$2"⟩, .node ⟨1, "/arrayflow/block$1"⟩]
    "/arrayflow/parallel_block$3"]⟩

/-- The block is called three times, and so is `pi`: as often as paths lead there. -/
theorem shared_called : shared.Recorded ∧ shared.Dataflow ∧ shared.Acyclic ∧
    (∃ z, shared.Evaluates (.node ⟨3, "/arrayflow/parallel_block$3"⟩) [] .empty (.ok (.int 3)) z ∧
      z.log.toList = ["/arrayflow/parallel_block$3", "/arrayflow/__mul$2", "/arrayflow/block$1",
        "/arrayflow/block$1", "/arrayflow/block$1", "/arrayflow/pi$0", "/arrayflow/pi$0",
        "/arrayflow/pi$0"]) ∧
    (∀ j, shared.note j = shared.note 0 → j = 0) ∧ {p | shared.Leads 3 p 0}.encard = 3 := by
  have hr : shared.Recorded := by simp [Graph.Recorded, shared, Node.noted, Locality.note?]
  have hd : shared.Dataflow := by simp [Graph.Dataflow, shared, Node.noted, Node.Dataflow]
  have ha : shared.Acyclic := by
    refine acyclic_of_ordered fun i n hn => ?_
    rcases i with _ | _ | _ | _ | i <;> cases hn <;> simp [shared, Node.noted, Value.Below]
  have he : shared.Evaluates (.node ⟨3, "/arrayflow/parallel_block$3"⟩) [] .empty
    (.ok (.int 3)) _ := ⟨40, rfl⟩
  have hpi : ∀ j, shared.note j = shared.note 0 → j = 0 := by
    intro j hj
    rcases j with _ | _ | _ | _ | j
    · rfl
    iterate 3 exact absurd hj (by decide)
    have hout : shared.nodes[j + 4]? = none := by simp [shared]
    rw [Graph.note, hout] at hj
    exact absurd hj (by decide)
  obtain ⟨visits, -, -, -, -, hcount, -⟩ := called_per_path hr hd ha he
  exact ⟨hr, hd, ha, ⟨_, he, rfl⟩, hpi, (zero_add _).symm.trans (hcount 0 hpi).symm⟩

end ArrayGraph
