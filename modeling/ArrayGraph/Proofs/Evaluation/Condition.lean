import ArrayGraph.Proofs.Evaluation.Exchange
import ArrayGraph.Proofs.Evaluation.Following
import ArrayGraph.Proofs.Value.Truth
/-!
# Conditions compared with zero

A choice or a loop does the same with a condition and with a node that compares the condition
with zero by "not equal": the node evaluates the condition and nothing else
(`evaluates_compared`), and the truth value is the same (`Value.compare_zero`). For a choice
this is asked for once, for a loop at each of its rounds. The condition has to be a number or
an array wherever it is tested, but only there, so the states from which the rounds begin are
told from all others (`course_simulates_heads`).
-/

namespace ArrayGraph

variable {g : Graph} {args branches : List Value} {condition body : Value} {w z : World}
  {r : Outcome} {h h' : Handle} {n n' : Node}

/-! ## A literal beside an operand -/

/-- What a join of an operand and a literal comes to by a step of the operand. -/
def Progress.besideLiteral (k : Join) (x : Value) : Progress → Progress
  | .finished r => .finished (r.bind fun v => k.finish [v, x])
  | .moved j => .moved (.joined k [] j [.done (.ok x)])
  | .suspended j => .suspended (.joined k [] j [.done (.ok x)])

theorem comesTo_beside_literal (k : Join) (x : Value) {j : Job} {p : Progress} {w' : World}
    (hs : j.step g w = (p, w')) :
    (Job.joined k [] j [.done (.ok x)]).ComesTo g w (p.besideLiteral k x) w' := by
  have hj := step_joined (g := g) k [] j [.done (.ok x)] w
  rw [hs] at hj
  cases p with
  | finished r =>
    cases r with
    | error e => exact .now hj
    | ok v =>
      refine .later hj (.now (Prod.ext ?_ rfl))
      exact turn_finished k [v, x]
  | moved j' => exact .now hj
  | suspended j' =>
    have hv : j'.value? = none := value?_of_suspended (congrArg Prod.fst hs)
    have hjobs : [j', .done (.ok x)].mapM Job.value? = none := by simp [hv]
    exact .later hj (.now (Prod.ext (turn_unfinished k hjobs) rfl))

/-- The join runs the operand, then has both values. -/
theorem runs_beside_literal {k : Join} {x : Value} {j : Job} :
    (Job.joined k [] j [.done (.ok x)]).Runs g w r z ↔
      ∃ r₁, j.Runs g w r₁ z ∧ r = r₁.bind fun v => k.finish [v, x] := by
  constructor
  · rintro ⟨m, hm⟩
    induction m using Nat.strongRecOn generalizing j w with
    | _ m ih =>
      rcases hs : j.step g w with ⟨p, w'⟩
      have hrest := run_of_comesTo (comesTo_beside_literal k x hs) hm
      cases p with
      | finished r₁ => exact ⟨r₁, (Job.runs_step hs).2 ⟨rfl, hrest.2⟩, hrest.1⟩
      | moved j' | suspended j' =>
        obtain ⟨m', hlt, hrun⟩ := hrest
        obtain ⟨r₁, hr₁, he⟩ := ih m' hlt hrun
        exact ⟨r₁, (Job.runs_step hs).2 hr₁, he⟩
  · rintro ⟨r₁, hr₁, rfl⟩
    refine hr₁.rec_step (P := fun j w => (Job.joined k [] j [.done (.ok x)]).Runs g w
      (r₁.bind fun v => k.finish [v, x]) z) ?_ ?_ ?_
    · intro j w hs
      exact (Job.runs_comesTo (comesTo_beside_literal k x hs)).2 ⟨rfl, rfl⟩
    · intro j w j' w' hs ih
      exact (Job.runs_comesTo (comesTo_beside_literal k x hs)).2 ih
    · intro j w j' w' hs ih
      exact (Job.runs_comesTo (comesTo_beside_literal k x hs)).2 ih

/-- A comparison with a literal evaluates its other operand, then compares. -/
theorem evaluates_compared {op : CompareOp} {v x : Value} (hw : g.Wired w)
    (ha : ∀ a ∈ args, a.Below g.nodes.size) (hx : x.Plain)
    (hn : g.Hosts h n (.compare op) [v, x]) :
    g.Evaluates (.node h) args w r z ↔ ∃ r₁, g.Evaluates v args (n.entered w) r₁ z ∧
      r = r₁.bind fun c => Outcome.ofKernel n.site (c.compare op x) := by
  rw [evaluates_hosted hw ha hn]
  simp only [Node.run, hn.primitive, Node.joinBound, Node.bind, hn.operands]
  simp only [List.isEmpty_cons, Bool.false_eq_true, if_false, List.length_cons, List.length_nil,
    Nat.reduceAdd, BEq.rfl, if_true, Graph.join, Graph.launchAll, launch_literal hx]
  exact runs_beside_literal

/-! ## Choices -/

/-- The condition holds, or it does not. -/
def Graph.Decides (g : Graph) (args : List Value) (condition : Value) (w : World) (holds : Bool)
    (z : World) : Prop :=
  ∃ c, g.Evaluates condition args w (.ok c) z ∧ c.truthy? = some holds

/-- The branch of a choice, which may be missing. -/
def Graph.Chosen (g : Graph) (args branches : List Value) (holds : Bool) (w : World) (r : Outcome)
    (z : World) : Prop :=
  match if holds then branches[0]? else branches[1]? with
  | some branch => g.Evaluates branch args w r z
  | none => r = .ok .empty ∧ z = w

/-- A choice fails as its condition does, or comes to the one branch that this decides for. -/
theorem evaluates_choice (hw : g.Wired w) (ha : ∀ a ∈ args, a.Below g.nodes.size)
    (hn : g.Hosts h n .choice (condition :: branches)) :
    g.Evaluates (.node h) args w r z ↔
      (∃ e, g.Evaluates condition args (n.entered w) (.error e) z ∧ r = .error e) ∨
      ∃ holds v, g.Decides args condition (n.entered w) holds v ∧
        g.Chosen args branches holds v r z := by
  have hbranch : ∀ {holds : Bool} {c : Value} {v : World}, c.truthy? = some holds →
      (((Frame.choice n.site args branches[0]? branches[1]?).resume g c v).1.Runs g
        ((Frame.choice n.site args branches[0]? branches[1]?).resume g c v).2 r z ↔
          g.Chosen args branches holds v r z) := by
    intro holds c v ht
    simp only [Frame.resume, ht, Graph.Chosen]
    cases if holds then branches[0]? else branches[1]? with
    | some branch => exact Iff.rfl
    | none => exact runs_done
  rw [evaluates_hosted hw ha hn]
  simp only [Node.run, hn.primitive, hn.operands]
  rw [runs_await]
  constructor
  · rintro ⟨r₁, v, hc, hrest⟩
    cases r₁ with
    | error e =>
      obtain ⟨rfl, rfl⟩ := hrest
      exact .inl ⟨e, hc, rfl⟩
    | ok c =>
      obtain ⟨holds, ht⟩ := truthy_of_plain (evaluates_builtin hw.builtin hc).1
      exact .inr ⟨holds, v, ⟨c, hc, ht⟩, (hbranch ht).1 hrest⟩
  · rintro (⟨e, hc, rfl⟩ | ⟨holds, v, ⟨c, hc, ht⟩, hrest⟩)
    · exact ⟨_, _, hc, rfl, rfl⟩
    · exact ⟨_, _, hc, (hbranch ht).2 hrest⟩

/-! ## The condition and its comparison -/

/-- If the operand has a value here, that is a number or an array of at most two axes. -/
def Graph.Tests (g : Graph) (args : List Value) (condition : Value) (w : World) : Prop :=
  ∀ c z, g.Evaluates condition args w (.ok c) z → c.IsCondition

/-- The condition of a loop is so whenever it is tested. -/
def Graph.TestsThrough (g : Graph) (args : List Value) (condition : Value)
    (operands : List Value) (w : World) : Prop :=
  ∀ rounds v, g.Rounds args condition operands w rounds v → g.Tests args condition v

theorem Graph.TestsThrough.next {operands values : List Value} {v : World}
    (ht : g.TestsThrough args condition operands w)
    (hround : g.Rounds args condition operands w [values] v) :
    g.TestsThrough args condition operands v := by
  intro rounds u hrounds
  cases hround with | cons hc hholds hvalues hnil => ?_
  cases hnil
  exact ht _ _ (.cons hc hholds hvalues hrounds)

/-- The node compares the operand with zero. -/
def Graph.ComparesZero (g : Graph) (h : Handle) (n : Node) (condition : Value) : Prop :=
  g.Hosts h n (.compare .notEqual) [condition, .int 0]

variable {test : Handle} {testNode : Node} (hw : g.Wired w)
  (ha : ∀ a ∈ args, a.Below g.nodes.size) (ht : g.ComparesZero test testNode condition)

include ha ht in
theorem condition_to_comparison {u u' : World} (hu : g.Alike u u')
    (hc : g.Tests args condition u) (hs : g.Evaluates condition args u r z) :
    ∃ r' z', g.Evaluates (.node test) args u' r' z' ∧ g.Alike z z' ∧
      Related (fun c c' => c.truthy? = c'.truthy?) r r' := by
  obtain ⟨r₁, z', hs', hz, hr⟩ :=
    evaluates_alike_states hu.wired.builtin condition _ _ _ _ (hu.entered testNode) hs
  rw [← hr.eq] at hs'
  have hzero : (Value.int 0).Plain := rfl
  have htest := (evaluates_compared hu.second ha hzero ht).2 ⟨r, hs', rfl⟩
  refine ⟨_, z', htest, hz, ?_⟩
  cases r with
  | error e => exact .error
  | ok c =>
    obtain ⟨c', hcompare, htruth⟩ := Value.compare_zero (hc c z hs)
    simp only [Except.bind, hcompare]
    exact .ok htruth.symm

include ha ht in
theorem comparison_to_condition {u u' : World} (hu : g.Alike u u')
    (hc : g.Tests args condition u') (hs : g.Evaluates (.node test) args u r z) :
    ∃ r' z', g.Evaluates condition args u' r' z' ∧ g.Alike z z' ∧
      Related (fun c c' => c.truthy? = c'.truthy?) r r' := by
  have hzero : (Value.int 0).Plain := rfl
  obtain ⟨r₁, hfirst, rfl⟩ := (evaluates_compared hu.wired ha hzero ht).1 hs
  obtain ⟨r₂, z', hs', hz, hr⟩ :=
    evaluates_alike_states hu.wired.builtin condition _ _ _ _ (hu.of_entered testNode) hfirst
  rw [← hr.eq] at hs'
  refine ⟨r₁, z', hs', hz, ?_⟩
  cases r₁ with
  | error e => exact .error
  | ok c =>
    obtain ⟨c', hcompare, htruth⟩ := Value.compare_zero (hc c z' hs')
    simp only [Except.bind, hcompare]
    exact .ok htruth

/-! ## Choices by it -/

theorem chosen_simulates (hb : g.Builtin) (holds : Bool) :
    Simulates g.Alike (g.Chosen args branches holds) (g.Chosen args branches holds) Eq := by
  intro u u' s z hu hs
  unfold Graph.Chosen at hs ⊢
  split at hs
  · exact evaluates_alike_states hb _ u u' s z hu hs
  · obtain ⟨rfl, rfl⟩ := hs
    exact ⟨_, u', ⟨rfl, rfl⟩, hu, related_refl _⟩

section Choices

variable {condition' : Value} {u u' : World}
  (hc : ∀ r z, g.Evaluates condition args u r z → ∃ r' z',
    g.Evaluates condition' args u' r' z' ∧ g.Alike z z' ∧
      Related (fun c c' => c.truthy? = c'.truthy?) r r')

include hc

theorem decides_to {holds : Bool} (hs : g.Decides args condition u holds z) :
    ∃ z', g.Decides args condition' u' holds z' ∧ g.Alike z z' := by
  obtain ⟨c, hs, hholds⟩ := hs
  obtain ⟨_, z', hs', hz, hr⟩ := hc _ _ hs
  cases hr with | ok hr => exact ⟨z', ⟨_, hs', hr ▸ hholds⟩, hz⟩

include hw ha in
theorem choice_to (hn : g.Hosts h n .choice (condition :: branches))
    (hn' : g.Hosts h' n' .choice (condition' :: branches)) (hu : n.entered w = u)
    (hu' : n'.entered w = u') (hs : g.Evaluates (.node h) args w r z) :
    ∃ z', g.Evaluates (.node h') args w r z' ∧ z.slots = z'.slots := by
  subst hu hu'
  rcases (evaluates_choice hw ha hn).1 hs with ⟨e, he, rfl⟩ | ⟨holds, v, hd, hs⟩
  · obtain ⟨_, z', hs', hz, hr⟩ := hc _ _ he
    cases hr
    exact ⟨z', (evaluates_choice hw ha hn').2 (.inl ⟨e, hs', rfl⟩), hz.slots⟩
  · obtain ⟨v', hd', hv⟩ := decides_to hc hd
    obtain ⟨r', z', hs', hz, hr⟩ := chosen_simulates hw.builtin holds _ _ _ _ hv hs
    rw [← hr.eq] at hs'
    exact ⟨z', (evaluates_choice hw ha hn').2 (.inr ⟨holds, v', hd', hs'⟩), hz.slots⟩

end Choices

/-! ## Loops by it -/

section Loops

variable {u u' : World} {s : Except Halt (List (List Value))}

include ha ht

theorem course_to_comparison (hu : g.Alike u u') (hc : g.TestsThrough args condition [body] u)
    (hs : g.Course args [] condition [body] u s z) :
    ∃ z', g.Course args [] (.node test) [body] u' s z' ∧ g.Alike z z' := by
  obtain ⟨s', z', hs', hz, hr⟩ := course_simulates_heads
    (fun u u' => g.Alike u u' ∧ g.TestsThrough args condition [body] u)
    (fun _ _ _ _ hu hs => condition_to_comparison ha ht hu.1 (hu.2 [] _ .nil) hs)
    (sequence_simulates fun v _ => evaluates_alike_states hu.wired.builtin v)
    (fun hu hround _ hx => ⟨hx, hu.2.next hround⟩) ⟨hu, hc⟩ hs
  rw [List.forall₂_eq_eq_eq] at hr
  exact ⟨z', hr.eq ▸ hs', hz⟩

theorem course_to_condition (hu : g.Alike u u') (hc : g.TestsThrough args condition [body] u')
    (hs : g.Course args [] (.node test) [body] u s z) :
    ∃ z', g.Course args [] condition [body] u' s z' ∧ g.Alike z z' := by
  obtain ⟨s', z', hs', hz, hr⟩ := course_simulates_heads
    (fun u u' => g.Alike u u' ∧ g.TestsThrough args condition [body] u')
    (fun _ _ _ _ hu hs => comparison_to_condition ha ht hu.1 (hu.2 [] _ .nil) hs)
    (sequence_simulates fun v _ => evaluates_alike_states hu.wired.builtin v)
    (fun hu _ hround hx => ⟨hx, hu.2.next hround⟩) ⟨hu, hc⟩ hs
  rw [List.forall₂_eq_eq_eq] at hr
  exact ⟨z', hr.eq ▸ hs', hz⟩

end Loops

/-! ## The law -/

/-- What leads both ways to states with the same slots does so to all the same slots. -/
theorem exists_slots_iff {P Q : World → Prop} {slots : Array Value}
    (hPQ : ∀ z, P z → ∃ z', Q z' ∧ z.slots = z'.slots)
    (hQP : ∀ z, Q z → ∃ z', P z' ∧ z.slots = z'.slots) :
    (∃ z, P z ∧ z.slots = slots) ↔ ∃ z, Q z ∧ z.slots = slots := by
  constructor
  · rintro ⟨z, hz, rfl⟩
    obtain ⟨z', hz', he⟩ := hPQ z hz
    exact ⟨z', hz', he.symm⟩
  · rintro ⟨z, hz, rfl⟩
    obtain ⟨z', hz', he⟩ := hQP z hz
    exact ⟨z', hz', he.symm⟩

theorem Graph.Wired.alike_entered (hw : g.Wired w) (n n' : Node) :
    g.Alike (n.entered w) (n'.entered w) :=
  ⟨hw.entered n, (slots_entered n w).trans (slots_entered n' w).symm⟩

section Law

include hw ha ht

theorem choice_compared (hn : g.Hosts h n .choice (condition :: branches))
    (hn' : g.Hosts h' n' .choice (.node test :: branches))
    (hc : g.Tests args condition (n.entered w)) (slots : Array Value) :
    (∀ holds, (∃ z, g.Decides args condition (n.entered w) holds z ∧ z.slots = slots) ↔
      ∃ z, g.Decides args (.node test) (n'.entered w) holds z ∧ z.slots = slots) ∧
    ∀ r, (∃ z, g.Evaluates (.node h) args w r z ∧ z.slots = slots) ↔
      ∃ z, g.Evaluates (.node h') args w r z ∧ z.slots = slots := by
  have hto := fun r z => condition_to_comparison (r := r) (z := z) ha ht (hw.alike_entered n n') hc
  have hback := fun r z =>
    comparison_to_condition (r := r) (z := z) ha ht (hw.alike_entered n' n) hc
  constructor
  · intro holds
    refine exists_slots_iff (fun z hz => ?_) fun z hz => ?_
    · obtain ⟨z', hz', he⟩ := decides_to hto hz
      exact ⟨z', hz', he.slots⟩
    · obtain ⟨z', hz', he⟩ := decides_to hback hz
      exact ⟨z', hz', he.slots⟩
  · intro r
    exact exists_slots_iff (fun z hz => choice_to hw ha hto hn hn' rfl rfl hz)
      fun z hz => choice_to hw ha hback hn' hn rfl rfl hz

theorem while_compared (hn : g.Hosts h n .whileLoop [condition, body])
    (hn' : g.Hosts h' n' .whileLoop [.node test, body])
    (hc : g.TestsThrough args condition [body] (n.entered w)) (slots : Array Value) :
    (∀ s, (∃ z, g.Course args [] condition [body] (n.entered w) s z ∧ z.slots = slots) ↔
      ∃ z, g.Course args [] (.node test) [body] (n'.entered w) s z ∧ z.slots = slots) ∧
    ∀ r, (∃ z, g.Evaluates (.node h) args w r z ∧ z.slots = slots) ↔
      ∃ z, g.Evaluates (.node h') args w r z ∧ z.slots = slots := by
  have hto := fun s z =>
    course_to_comparison (s := s) (z := z) ha ht (hw.alike_entered n n') hc
  have hback := fun s z =>
    course_to_condition (s := s) (z := z) ha ht (hw.alike_entered n' n) hc
  constructor
  · intro s
    refine exists_slots_iff (fun z hz => ?_) fun z hz => ?_
    · obtain ⟨z', hz', he⟩ := hto s z hz
      exact ⟨z', hz', he.slots⟩
    · obtain ⟨z', hz', he⟩ := hback s z hz
      exact ⟨z', hz', he.slots⟩
  · intro r
    simp only [evaluates_while hw ha hn, evaluates_while hw ha hn']
    refine exists_slots_iff ?_ ?_
    · rintro z ⟨s, hz, rfl⟩
      obtain ⟨z', hz', he⟩ := hto s z hz
      exact ⟨z', ⟨s, hz', rfl⟩, he.slots⟩
    · rintro z ⟨s, hz, rfl⟩
      obtain ⟨z', hz', he⟩ := hback s z hz
      exact ⟨z', ⟨s, hz', rfl⟩, he.slots⟩

end Law

/-- A number or an array of at most two axes is compared with zero to a value with the same
truth. So a choice by the comparison takes the same branch as one by the condition, and a loop
runs the same rounds, to the same outcomes and slots. -/
theorem condition_as_comparison (hw : g.Wired w) (ha : ∀ a ∈ args, a.Below g.nodes.size) :
    (∀ v : Value, v.IsCondition →
      ∃ c, v.compare .notEqual (.int 0) = .ok c ∧ c.truthy? = v.truthy?) ∧
    (∀ test testNode condition, g.ComparesZero test testNode condition →
      (∀ h n h' n' branches, g.Hosts h n .choice (condition :: branches) →
        g.Hosts h' n' .choice (.node test :: branches) →
        g.Tests args condition (n.entered w) → ∀ slots,
        (∀ holds, (∃ z, g.Decides args condition (n.entered w) holds z ∧ z.slots = slots) ↔
          ∃ z, g.Decides args (.node test) (n'.entered w) holds z ∧ z.slots = slots) ∧
        ∀ r, (∃ z, g.Evaluates (.node h) args w r z ∧ z.slots = slots) ↔
          ∃ z, g.Evaluates (.node h') args w r z ∧ z.slots = slots) ∧
      (∀ h n h' n' body, g.Hosts h n .whileLoop [condition, body] →
        g.Hosts h' n' .whileLoop [.node test, body] →
        g.TestsThrough args condition [body] (n.entered w) → ∀ slots,
        (∀ s, (∃ z, g.Course args [] condition [body] (n.entered w) s z ∧ z.slots = slots) ↔
          ∃ z, g.Course args [] (.node test) [body] (n'.entered w) s z ∧ z.slots = slots) ∧
        ∀ r, (∃ z, g.Evaluates (.node h) args w r z ∧ z.slots = slots) ↔
          ∃ z, g.Evaluates (.node h') args w r z ∧ z.slots = slots)) :=
  ⟨fun _ => Value.compare_zero, fun _ _ _ ht =>
    ⟨fun _ _ _ _ _ hn hn' hc slots => choice_compared hw ha ht hn hn' hc slots,
      fun _ _ _ _ _ hn hn' hc slots => while_compared hw ha ht hn hn' hc slots⟩⟩

/-- A flag, the node that compares it with zero, and a choice and a loop by either. -/
def flagged : Graph where
  nodes := #[⟨.variable, [.int 3], ⟨"flag", "sample"⟩, .here⟩,
    ⟨.compare .notEqual, [.node ⟨0, "flag"⟩, .int 0], ⟨"up", "sample"⟩, .here⟩,
    ⟨.store, [.node ⟨0, "flag"⟩, .int 0], ⟨"lower", "sample"⟩, .here⟩,
    ⟨.choice, [.node ⟨0, "flag"⟩, .int 7, .int 8], ⟨"choice", "sample"⟩, .here⟩,
    ⟨.choice, [.node ⟨1, "up"⟩, .int 7, .int 8], ⟨"compared", "sample"⟩, .here⟩,
    ⟨.whileLoop, [.node ⟨0, "flag"⟩, .node ⟨2, "lower"⟩], ⟨"while", "sample"⟩, .here⟩,
    ⟨.whileLoop, [.node ⟨1, "up"⟩, .node ⟨2, "lower"⟩], ⟨"rounds", "sample"⟩, .here⟩]

/-- By the comparison too, the first branch is taken and the flag is lowered in one round. -/
theorem flagged_compared :
    (∃ z, flagged.Evaluates (.node ⟨4, "compared"⟩) [] ⟨#[.int 3], #[]⟩ (.ok (.int 7)) z ∧
      z.slots = #[.int 3]) ∧
    (∃ z, flagged.Course [] [] (.node ⟨1, "up"⟩) [.node ⟨2, "lower"⟩] ⟨#[.int 3], #[]⟩
      (.ok [[.empty]]) z ∧ z.slots = #[.int 0]) := by
  have hw : flagged.Wired ⟨#[.int 3], #[]⟩ := by
    refine ⟨by decide, ?_, by decide, fun i _ _ _ => ?_⟩
    · simp only [flagged, List.mem_toArray, List.forall_mem_cons]
      exact ⟨rfl, rfl, rfl, rfl, rfl, rfl, rfl, List.forall_mem_nil _⟩
    · exact below_slot (by simp [Value.Below]) i
  have hup : flagged.Evaluates (.node ⟨0, "flag"⟩) [] ⟨#[.int 3], #[]⟩ (.ok (.int 3))
      ⟨#[.int 3], #[]⟩ := ⟨9, rfl⟩
  have hlower : flagged.Sequence [] [.node ⟨2, "lower"⟩] ⟨#[.int 3], #[]⟩ (.ok [.empty])
      ⟨#[.int 0], #[]⟩ := sequence_singleton.2 ⟨.ok .empty, ⟨9, rfl⟩, rfl⟩
  have hdown : flagged.Evaluates (.node ⟨0, "flag"⟩) [] ⟨#[.int 0], #[]⟩ (.ok (.int 0))
      ⟨#[.int 0], #[]⟩ := ⟨9, rfl⟩
  have htests : ∀ {i : Int64} {u : World}, flagged.Evaluates (.node ⟨0, "flag"⟩) [] u
      (.ok (.int i)) u → flagged.Tests [] (.node ⟨0, "flag"⟩) u := by
    intro i u hu c z hc
    cases (evaluates_unique hu hc).1
    exact ⟨0, rfl, Nat.zero_le 2⟩
  -- the loop tests the flag before its one round and after it
  have hthrough : flagged.TestsThrough [] (.node ⟨0, "flag"⟩) [.node ⟨2, "lower"⟩]
      ⟨#[.int 3], #[]⟩ := by
    intro rounds v hrounds
    cases hrounds with
    | nil => exact htests hup
    | cons hc _ hvalues hrest =>
      obtain ⟨-, rfl⟩ := evaluates_unique hup hc
      obtain ⟨-, rfl⟩ := sequence_unique hlower hvalues
      cases hrest with
      | nil => exact htests hdown
      | cons hc htrue _ _ =>
        cases (evaluates_unique hdown hc).1
        cases htrue
  obtain ⟨-, hlaw⟩ := condition_as_comparison hw (List.forall_mem_nil _)
  obtain ⟨hchoice, hwhile⟩ := hlaw ⟨1, "up"⟩ _ _ ⟨rfl, served_of_inline rfl, rfl, rfl⟩
  have hbranch := hchoice ⟨3, "choice"⟩ _ ⟨4, "compared"⟩ _ _ ⟨rfl, served_of_inline rfl, rfl, rfl⟩
    ⟨rfl, served_of_inline rfl, rfl, rfl⟩ (htests hup) #[.int 3]
  have hrounds := hwhile ⟨5, "while"⟩ _ ⟨6, "rounds"⟩ _ _ ⟨rfl, served_of_inline rfl, rfl, rfl⟩
    ⟨rfl, served_of_inline rfl, rfl, rfl⟩ hthrough #[.int 0]
  have hcourse : flagged.Course [] [] (.node ⟨0, "flag"⟩) [.node ⟨2, "lower"⟩] ⟨#[.int 3], #[]⟩
      (.ok [[.empty]]) ⟨#[.int 0], #[]⟩ :=
    .ended .nil (.cons hup rfl hlower .nil) (.finished hdown rfl)
  exact ⟨(hbranch.2 _).1 ⟨_, ⟨20, rfl⟩, rfl⟩, (hrounds.1 _).1 ⟨_, hcourse, rfl⟩⟩

end ArrayGraph
