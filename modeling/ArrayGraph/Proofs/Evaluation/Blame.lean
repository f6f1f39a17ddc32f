import ArrayGraph.Proofs.Evaluation.Matching
import ArrayGraph.Proofs.Evaluation.Reach
import ArrayGraph.Proofs.Evaluation.Sequence
import ArrayGraph.Proofs.Statistic.Reduction
import ArrayGraph.Proofs.Value.Arithmetic
/-!
# Where errors come from

An error names the node that raised it. `Node.MayRaise` lists the kinds of errors that a
node can raise, and a job is `Blamed` within a scope if each error that it can still come
to is one that the node at its site can raise. Steps keep that up, so that the error of
an evaluation points to a node that the evaluated operand or an argument reaches:
`errors_point_to_nodes`.
-/

namespace ArrayGraph

/-! ## What nodes can raise -/

/-- A comparison or an arithmetic operator. -/
def Primitive.IsOperator (p : Primitive) : Prop :=
  (∃ op, p = .compare op) ∨ ∃ op, p = .arithmetic op

/-- The kinds of errors that a node can raise when it is evaluated. -/
def Node.MayRaise (n : Node) : ErrorKind → Prop
  | .emptySequence => ∃ s, n.primitive = .statistic s ∧ s.NeedsElements
  | .unknownIdentifier => n.primitive = .constant
  | .shapeMismatch => n.primitive.IsOperator
  | .invalidOperand => n.primitive = .constant ∨ ∃ s, n.primitive = .statistic s
  | .incompatibleOperands => n.primitive.IsOperator ∨ ∃ s, n.primitive = .statistic s
  | .arity => n.primitive = .argument ∨ (n.operands = [] ∧
      (n.primitive = .constant ∨ n.primitive.IsOperator ∨ ∃ s, n.primitive = .statistic s))
  | .placement => False

/-! ## What kernels fail with -/

theorem Mismatch.kind_cases (m : Mismatch) :
    m.kind = .shapeMismatch ∨ m.kind = .incompatibleOperands := by
  cases m with
  | ranks => exact .inr rfl
  | _ => exact .inl rfl

theorem broadcast_error {α β γ : Type} {f : α → β → γ} {a : Tensor α} {b : Tensor β}
    {value : Tensor γ → Value} {c : Cause}
    (h : ((a.broadcast f b).map value).mapError Cause.unmatched = .error c) :
    c.kind = .shapeMismatch ∨ c.kind = .incompatibleOperands := by
  cases hb : a.broadcast f b with
  | ok t =>
    rw [hb] at h
    cases h
  | error m =>
    rw [hb] at h
    cases h
    exact m.kind_cases

theorem compare_error_kind {op : CompareOp} {a b : Value} {c : Cause}
    (h : a.compare op b = .error c) :
    c.kind = .shapeMismatch ∨ c.kind = .incompatibleOperands := by
  unfold Value.compare at h
  split at h
  · cases h
  · cases h
  · split at h
    · exact broadcast_error h
    · split at h
      · exact broadcast_error h
      · cases h
        exact .inr rfl

theorem combine_error_kind {op : ArithmeticOp} {a b : Value} {c : Cause}
    (h : a.combine op b = .error c) :
    c.kind = .shapeMismatch ∨ c.kind = .incompatibleOperands := by
  rcases Value.combine_error h with ⟨-, he⟩ | ⟨_, _, m, -, -, -, rfl⟩
  · exact .inr he
  · exact m.kind_cases

theorem reduce_error {s : Statistic} {v : Value} {axis : Option Int64} {c : Cause}
    (h : v.reduce s axis = .error c) : (c.kind = .emptySequence ∧ s.NeedsElements) ∨
      c.kind = .invalidOperand ∨ c.kind = .incompatibleOperands := by
  have hr := Value.reduce_outcome s v axis
  rw [h] at hr
  generalize v.toNumeric? = numbers at hr
  cases hr with
  | notNumeric => exact .inr (.inr rfl)
  | wholeEmpty he => exact .inl ⟨rfl, (Statistic.reduce_eq_error_iff.1 he).1⟩
  | outside => exact .inr (.inl rfl)
  | laneEmpty _ _ _ he => exact .inl ⟨rfl, (Statistic.reduce_eq_error_iff.1 he).1⟩

theorem axisOperand_error {values : List Value} {c : Cause} (h : axisOperand values = .error c) :
    c.kind = .invalidOperand := by
  unfold axisOperand at h
  split at h
  · cases h
  · split at h
    · cases h
    · cases h
      rfl

/-! ## Blame -/

/-- A node of the scope has this site and can raise errors of this kind. -/
def Graph.Blames (g : Graph) (S : Scope) (site : Site) (kind : ErrorKind) : Prop :=
  ∃ i n, S.node i ∧ g.nodes[i]? = some n ∧ n.site = site ∧ n.MayRaise kind

variable {g : Graph} {S : Scope}

/-- An error is one that the node at its site can raise. -/
def Outcome.Blamed (g : Graph) (S : Scope) : Outcome → Prop
  | .ok _ => True
  | .error (.error (.raised site cause)) => g.Blames S site cause.kind
  | .error _ => False

def Frame.Blamed (g : Graph) (S : Scope) : Frame → Prop
  | .constantName site => g.Blames S site .unknownIdentifier ∧ g.Blames S site .invalidOperand
  | _ => True

/-- The join has a result for so many values, and the node whose join it is can raise the
errors that it may come to. -/
def Join.Blamed (g : Graph) (S : Scope) (k : Join) (count : Nat) : Prop :=
  k.Takes count ∧ match k with
  | .compare _ site | .arithmetic _ site =>
    g.Blames S site .shapeMismatch ∧ g.Blames S site .incompatibleOperands
  | .statistic s site => (s.NeedsElements → g.Blames S site .emptySequence) ∧
    g.Blames S site .invalidOperand ∧ g.Blames S site .incompatibleOperands
  | .last | .all => True

inductive Job.Blamed (g : Graph) (S : Scope) : Job → Prop
  | done {r} : r.Blamed g S → Blamed g S (.done r)
  | start {i n content args} : S.node i → g.nodes[i]? = some n →
      Blamed g S (.start n content args)
  | round {l last} : Blamed g S (.round l last)
  | rest {l last} : Blamed g S (.rest l last)
  | waiting {k j} : k.Blamed g S → Blamed g S j → Blamed g S (.waiting k j)
  | joined {k turned j coming} : k.Blamed g S (turned.length + 1 + coming.length) →
      (∀ t ∈ turned, Blamed g S t) → Blamed g S j → (∀ c ∈ coming, Blamed g S c) →
      Blamed g S (.joined k turned j coming)

def Progress.Blamed (g : Graph) (S : Scope) : Progress → Prop
  | .finished r => r.Blamed g S
  | .moved j | .suspended j => j.Blamed g S

theorem blamed_value (v : Value) : (Job.done (.ok v)).Blamed g S := .done trivial

theorem blamed_constantNamed {site : Site} {name : String}
    (h : g.Blames S site .unknownIdentifier) : (Job.done (constantNamed site name)).Blamed g S := by
  unfold constantNamed
  split
  · exact .done trivial
  · exact .done h

theorem blamed_kernel {site : Site} {r : Except Cause Value}
    (h : ∀ c, r = .error c → g.Blames S site c.kind) : (Outcome.ofKernel site r).Blamed g S := by
  cases r with
  | ok v => trivial
  | error c => exact h c rfl

theorem blamed_finish {k : Join} {values : List Value} (h : k.Blamed g S values.length) :
    (k.finish values).Blamed g S := by
  obtain ⟨ht, hs⟩ := h
  cases k with
  | compare op site | arithmetic op site =>
    rcases values with _ | ⟨a, _ | ⟨b, rest⟩⟩
    iterate 2 simp [Join.Takes] at ht
    refine blamed_kernel fun c hc => ?_
    have hkind : c.kind = .shapeMismatch ∨ c.kind = .incompatibleOperands := by
      first
        | exact compare_error_kind hc
        | exact combine_error_kind hc
    rcases hkind with he | he <;> rw [he]
    · exact hs.1
    · exact hs.2
  | statistic s site =>
    rcases values with _ | ⟨v, rest⟩
    · simp [Join.Takes] at ht
    refine blamed_kernel fun c hc => ?_
    cases ha : axisOperand rest with
    | error c' =>
      rw [ha] at hc
      cases hc
      rw [axisOperand_error ha]
      exact hs.2.1
    | ok axis =>
      rw [ha] at hc
      rcases reduce_error hc with ⟨he, hn⟩ | he | he <;> rw [he]
      · exact hs.1 hn
      · exact hs.2.1
      · exact hs.2.2
  | last | all => trivial

theorem blamed_start {k : Join} {jobs : List Job} (hk : k.Blamed g S jobs.length)
    (h : ∀ j ∈ jobs, j.Blamed g S) : (k.start jobs).Blamed g S := by
  cases jobs with
  | nil =>
    have hk : k.Blamed g S ([] : List Value).length := hk
    exact .done (blamed_finish hk)
  | cons j coming =>
    rw [List.forall_mem_cons] at h
    refine .joined ?_ (List.forall_mem_nil _) h.1 h.2
    rwa [List.length_nil, Nat.zero_add, Nat.add_comm]

theorem blamed_turn {k : Join} {turned coming : List Job}
    (hk : k.Blamed g S (turned.length + coming.length)) (ht : ∀ t ∈ turned, t.Blamed g S)
    (hc : ∀ c ∈ coming, c.Blamed g S) : (k.turn turned coming).Blamed g S := by
  cases coming with
  | cons c coming =>
    rw [List.forall_mem_cons] at hc
    refine .joined ?_ ht hc.1 hc.2
    rwa [List.length_cons, Nat.add_comm coming.length, ← Nat.add_assoc] at hk
  | nil =>
    rw [← List.length_reverse] at hk
    rw [← List.reverse_reverse turned]
    rcases finished_or_not turned.reverse with ⟨vs, hv⟩ | ⟨hn, -⟩
    · rw [hv] at hk ⊢
      rw [turn_finished]
      refine blamed_finish ?_
      simpa [Job.finished] using hk
    · rw [turn_unfinished k hn]
      exact blamed_start hk fun t hm => ht t (List.mem_reverse.1 hm)

/-! ## Jobs of built-in primitives -/

section Steps

variable (hb : g.Builtin) (hi : g.Inline)
  (hk : ∀ n ∈ g.nodes, g.check n.primitive n.operands = .ok ())
  (hS : ∀ i, S.node i → i < g.nodes.size) {w : World}

include hi hS

theorem blamed_launch {v : Value} {args : List Value} (hv : v.Within S) :
    (g.launch v args w).1.Blamed g S := by
  cases v with
  | node h =>
    have hh : S.node h.index := within_node.1 hv
    have hlt : h.index < g.nodes.size := hS _ hh
    have hn : g.node? h = some g.nodes[h.index] := Array.getElem?_eq_getElem hlt
    simp only [Graph.launch, hn, dispatch_inline (hi _ (Array.getElem_mem hlt))]
    exact .start hh hn
  | _ => exact .done trivial

theorem blamed_launchAll {vs args : List Value} (hv : WithinAll S vs) :
    (∀ j ∈ (g.launchAll args vs w).1, j.Blamed g S) ∧
      (g.launchAll args vs w).1.length = vs.length := by
  induction vs generalizing w with
  | nil => exact ⟨List.forall_mem_nil _, rfl⟩
  | cons v vs ih =>
    rw [withinAll_cons] at hv
    obtain ⟨hj, hlen⟩ := ih hv.2
    exact ⟨List.forall_mem_cons.2 ⟨blamed_launch hi hS hv.1, hj⟩, congrArg (· + 1) hlen⟩

theorem blamed_await {k : Frame} {v : Value} {args : List Value} (hf : k.Blamed g S)
    (hv : v.Within S) : (g.await k v args w).1.Blamed g S :=
  .waiting hf (blamed_launch hi hS hv)

theorem blamed_join {k : Join} {vs args : List Value} (hj : k.Blamed g S vs.length)
    (hv : WithinAll S vs) : (g.join k vs args w).1.Blamed g S := by
  obtain ⟨hjobs, hlen⟩ := blamed_launchAll hi hS hv
  rw [join_eq]
  exact blamed_start (hlen ▸ hj) hjobs

omit hi hS in
/-- What the kernel of a join may fail with, the node may raise. -/
theorem blamed_join? {n : Node} {k : Join} {count : Nat}
    (hblame : ∀ {kind}, n.MayRaise kind → g.Blames S n.site kind) (hk : n.join? = some k)
    (ht : k.Takes count) : k.Blamed g S count := by
  refine ⟨ht, ?_⟩
  cases hp : n.primitive with
  | compare op =>
    have hop : n.primitive.IsOperator := .inl ⟨op, hp⟩
    simp only [Node.join?, hp, Option.some.injEq] at hk
    exact hk ▸ ⟨hblame hop, hblame (.inl hop)⟩
  | arithmetic op =>
    have hop : n.primitive.IsOperator := .inr ⟨op, hp⟩
    simp only [Node.join?, hp, Option.some.injEq] at hk
    exact hk ▸ ⟨hblame hop, hblame (.inl hop)⟩
  | statistic s =>
    simp only [Node.join?, hp, Option.some.injEq] at hk
    exact hk ▸ ⟨fun hneeds => hblame ⟨s, hp, hneeds⟩, hblame (.inr ⟨s, hp⟩),
      hblame (.inr ⟨s, hp⟩)⟩
  | parallelBlock =>
    simp only [Node.join?, hp, Option.some.injEq] at hk
    exact hk ▸ trivial
  | _ => simp [Node.join?, hp] at hk

include hb hk

theorem blamed_run {i : Nat} {n : Node} {content : Value} {args : List Value} (hin : S.node i)
    (hget : g.nodes[i]? = some n) (hn : n.Within S)
    (hc : n.primitive = .variable → content.Within S) (ha : S.Given args) :
    (n.run g content args w).1.Blamed g S := by
  have hcheck := hk n (Array.mem_of_getElem? hget)
  have hbuiltin := hb n (Array.mem_of_getElem? hget)
  have hblame : ∀ {kind}, n.MayRaise kind → g.Blames S n.site kind :=
    fun h => ⟨i, n, hin, hget, rfl, h⟩
  obtain ⟨hbind, -⟩ := bind_within hn.operands ha fun he => hn.takes (.inr ⟨he, hbuiltin⟩)
  have ho := hn.operands
  have hfirst := run_first n g content args
  generalize n.run g content args = first at hfirst ⊢
  cases hfirst with
  | named hp => exact blamed_constantNamed (hblame hp)
  | name hp hv =>
    rw [hv, withinAll_cons] at hbind
    exact blamed_await hi hS ⟨hblame hp, hblame (.inl hp)⟩ hbind.1
  | slot hp => exact blamed_launch hi hS (hc hp)
  | store _ hops =>
    rw [hops, withinAll_cons, withinAll_cons] at ho
    exact blamed_await hi hS trivial ho.2.1
  | argument hp hx =>
    exact blamed_launch hi hS (ha (hn.takes (.inl hp)) _ (List.mem_of_getElem? hx))
  | missing hp => exact .done (hblame (.inl hp))
  | join hjoin ht => exact blamed_join hi hS (blamed_join? hblame hjoin ht) hbind
  | refused hcounts hempty =>
    have hnone := hempty (check_eq_ok_iff.1 hcheck).1
    exact .done (hblame (.inr ⟨hnone, hcounts⟩))
  | forLoop _ hops | choice _ hops | block _ hops =>
    rw [hops, withinAll_cons] at ho
    exact blamed_await hi hS trivial ho.1
  | whileLoop => exact .round
  | empty => exact blamed_value _
  | trace hp | echo hp | threadName hp =>
    rw [hp] at hbuiltin
    cases hbuiltin
  | panic hp =>
    rw [hp hcheck] at hbuiltin
    cases hbuiltin

omit hb hk in
theorem blamed_resume {k : Frame} {v : Value} (hf : k.Blamed g S) (hw : k.Within S)
    (hv : v.Plain) : (k.resume g v w).1.Blamed g S := by
  cases k with
  | constantName site =>
    cases v with
    | str name => exact blamed_constantNamed hf.1
    | _ => exact .done hf.2
  | store target => exact blamed_value _
  | choice site args yes no =>
    obtain ⟨-, hy, hn⟩ := hw
    obtain ⟨b, hb⟩ := truthy_of_plain hv
    simp only [Frame.resume, hb]
    cases hbranch : if b then yes else no with
    | none => exact blamed_value _
    | some branch =>
      refine blamed_launch hi hS ?_
      cases b
      · exact hn branch hbranch
      · exact hy branch hbranch
  | block args rest =>
    cases rest with
    | nil => exact blamed_value v
    | cons next rest => exact blamed_await hi hS trivial (withinAll_cons.1 hw.2).1
  | loopInit l => exact .round
  | loopCondition l last =>
    obtain ⟨b, hb⟩ := truthy_of_plain hv
    simp only [Frame.resume, hb]
    cases b with
    | true => exact blamed_await hi hS trivial hw.1.body
    | false => exact blamed_value last
  | loopBody l =>
    simp only [Frame.resume]
    cases hs : l.step with
    | none => exact .rest
    | some step => exact blamed_await hi hS trivial (hw.step step hs)
  | loopStep l last => exact .rest

/-- A step keeps to errors that the nodes at their sites can raise. -/
theorem step_blamed {j : Job} (hj : j.Blamed g S) (hw : j.Within S) (hc : S.Closed g w) :
    (j.step g w).1.Blamed g S := by
  induction hj with
  | done hr => exact hr
  | start hin hget =>
    cases hw with
    | start hn hcon ha => exact blamed_run hb hi hk hS hin hget hn hcon ha
  | round =>
    cases hw with
    | round hl _ => exact blamed_await hi hS trivial hl.condition
  | rest => exact .round
  | @waiting k j hf _ ih =>
    cases hw with
    | waiting hkw hjw =>
      have hp := ih hjw
      have hwithin := step_within hjw hc
      rw [step_waiting]
      generalize j.step g w = s at hp hwithin ⊢
      rcases s with ⟨(e | v) | j' | j', w'⟩
      · exact hp
      · exact blamed_resume hi hS hf hkw hwithin.1
      · exact .waiting hf hp
      · exact .waiting hf hp
  | @joined k turned j coming hjoin ht _ hcom _ ih _ =>
    cases hw with
    | joined htw hlw hjw hcw =>
      have hp := ih hjw
      rw [step_joined]
      generalize j.step g w = s at hp ⊢
      rcases s with ⟨(e | v) | j' | j', w'⟩
      · exact hp
      · exact blamed_turn hjoin (List.forall_mem_cons.2 ⟨blamed_value v, ht⟩) hcom
      · exact .joined hjoin ht hp hcom
      · exact blamed_turn hjoin (List.forall_mem_cons.2 ⟨hp, ht⟩) hcom

theorem runs_blamed {j : Job} {r : Outcome} {z : World} (h : j.Runs g w r z)
    (hj : j.Blamed g S) (hw : j.Within S) (hc : S.Closed g w) : r.Blamed g S := by
  revert hj hw hc
  refine h.rec_step (P := fun j w => j.Blamed g S → j.Within S → S.Closed g w → r.Blamed g S)
    ?_ ?_ ?_
  · intro j w hs hj hw hc
    have hp := step_blamed hb hi hk hS hj hw hc
    rwa [hs] at hp
  all_goals
    intro j w j' w' hs ih hj hw hc
    have hp := step_blamed hb hi hk hS hj hw hc
    have hwithin := step_within hw hc
    rw [hs] at hp hwithin
  · exact ih hp hwithin.1 (hc.kept hwithin.2)
  · exact ih hp hwithin.1.2 (hc.kept hwithin.2)

end Steps

/-! ## Evaluations -/

theorem below_slot {w : World} {n : Nat} (h : ∀ v ∈ w.slots, v.Below n) (i : Nat) :
    (w.slot i).Below n := by
  unfold World.slot
  cases hi : w.slots[i]? with
  | none => simp [Value.Below]
  | some v => exact h v (Array.mem_of_getElem? hi)

/-- Handles in a graph lead to nodes that are there. -/
theorem lt_of_reaches {w : World} {roots : List Value}
    (ho : ∀ n ∈ g.nodes, ∀ v ∈ n.operands, v.Below g.nodes.size)
    (hs : ∀ i, (w.slot i).Below g.nodes.size) (hr : ∀ v ∈ roots, v.Below g.nodes.size) {i : Nat}
    (h : g.Reaches w roots i) : i < g.nodes.size := by
  cases h with
  | root hm => exact hr _ hm _ rfl
  | operand _ hn hm => exact ho _ (Array.mem_of_getElem? hn) _ hm _ rfl
  | content _ _ _ he => exact hs _ _ he

/-- An evaluation that fails gives an error of a site. A node that the operand or an
argument reaches has that site, and it can raise errors of that kind. -/
theorem errors_point_to_nodes {v : Value} {args : List Value} {w z : World} {h : Halt}
    (hb : g.Builtin) (hi : g.Inline)
    (hk : ∀ n ∈ g.nodes, g.check n.primitive n.operands = .ok ())
    (ho : ∀ n ∈ g.nodes, ∀ v ∈ n.operands, v.Below g.nodes.size)
    (hs : ∀ i, (w.slot i).Below g.nodes.size)
    (hr : ∀ x ∈ v :: args, x.Below g.nodes.size)
    (he : g.Evaluates v args w (.error h) z) :
    ∃ site cause i n, h = .error (.raised site cause) ∧ g.Reaches w (v :: args) i ∧
      g.nodes[i]? = some n ∧ n.site = site ∧ n.MayRaise cause.kind := by
  have hS : ∀ i, (g.reach w (v :: args)).node i → i < g.nodes.size :=
    fun i hreach => lt_of_reaches ho hs hr hreach
  have hc : (g.reach w (v :: args)).Closed g w := closed_reach hb
  have hv : v.Within (g.reach w (v :: args)) := within_reach List.mem_cons_self
  have ha : (g.reach w (v :: args)).Given args :=
    (withinAll_reach fun a hm => List.mem_cons_of_mem v hm).given
  have hblamed := runs_blamed hb hi hk hS he (blamed_launch hi hS hv) (launch_within hc hv ha)
    (hc.kept (.of_slots (launch_slots ..)))
  cases h with
  | panic => exact hblamed.elim
  | error e =>
    cases e with
    | duplicatePattern name => exact hblamed.elim
    | raised site cause =>
      obtain ⟨i, n, hreach, hn, hsite, hmay⟩ := hblamed
      exact ⟨site, cause, i, n, rfl, hreach, hn, hsite, hmay⟩

/-- The variable of the sample finds no argument: the node that gives it is at fault. -/
theorem sample_error_points_to_first :
    Session.sample.graph.Evaluates (.node ⟨1, "slot"⟩) [] Session.sample.world
      (.fail ⟨"first", "sample"⟩ (.missingArgument 0 0)) Session.sample.world ∧
    ∃ site cause i n, Halt.error (.raised ⟨"first", "sample"⟩ (.missingArgument 0 0)) =
        .error (.raised site cause) ∧
      Session.sample.graph.Reaches Session.sample.world [.node ⟨1, "slot"⟩] i ∧
      Session.sample.graph.nodes[i]? = some n ∧ n.site = site ∧ n.MayRaise cause.kind := by
  have he : Session.sample.graph.Evaluates (.node ⟨1, "slot"⟩) [] Session.sample.world
      (.fail ⟨"first", "sample"⟩ (.missingArgument 0 0)) Session.sample.world := ⟨9, rfl⟩
  have hsound := (reachable_sound Session.sample_reachable).1
  refine ⟨he, errors_point_to_nodes (by decide) (by decide) hsound.checked ?_ ?_ ?_ he⟩
  · simp [Session.sample, Value.Below]
  · exact below_slot (by simp [Session.sample, Value.Below])
  · simp [Session.sample, Value.Below]

end ArrayGraph
