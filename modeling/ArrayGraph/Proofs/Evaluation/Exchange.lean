import ArrayGraph.Proofs.Evaluation.Loop
/-!
# A loop with a step as nested blocks

`for(init, condition, step, body)` in exchange for
`block(init, while(condition, block(body, step)))`. The inner block evaluates in a round
what the loop does, and the outer one is the loop with the start before it, so their
courses agree; only the value that is kept of a round is another one (`for_as_while`). The
nodes inside may run elsewhere and leave entries of their own in the log, therefore the
courses agree in the slots.
-/

namespace ArrayGraph

variable {g : Graph} {args operands : List Value} {start condition step body : Value}
  {w z : World} {h : Handle} {n : Node}

/-! ## States of a wired graph -/

/-- The same in the slots, in a graph without loose ends. -/
structure Graph.Alike (g : Graph) (u u' : World) : Prop where
  wired : g.Wired u
  slots : u.SameSlots u'

theorem Graph.Alike.entered {u u' : World} (hu : g.Alike u u') (n : Node) :
    g.Alike u (n.entered u') :=
  ⟨hu.wired, hu.slots.trans (slots_entered n u').symm⟩

theorem Graph.Alike.of_entered {u u' : World} (hu : g.Alike u u') (n : Node) :
    g.Alike (n.entered u) u' :=
  ⟨hu.wired.entered n, (slots_entered n u).trans hu.slots⟩

theorem Graph.Alike.second {u u' : World} (hu : g.Alike u u') : g.Wired u' :=
  hu.wired.kept (.of_slots hu.slots.symm)

theorem Graph.Alike.symm {u u' : World} (hu : g.Alike u u') : g.Alike u' u :=
  ⟨hu.second, hu.slots.symm⟩

theorem evaluates_alike_states (hb : g.Builtin) (v : Value) :
    Simulates g.Alike (g.Evaluates v args) (g.Evaluates v args) Eq := by
  intro u u' s z hu hs
  obtain ⟨s', z', hs', hz, hr⟩ := evaluates_simulates hb args v u u' s z hu.slots hs
  exact ⟨s', z', hs', ⟨hu.wired.evaluates hs, hz⟩, hr⟩

theorem course_exchanges {operands' : List Value} {R : List Value → List Value → Prop}
    (hb : g.Builtin) (init : List Value)
    (ho : Simulates g.Alike (g.Sequence args operands) (g.Sequence args operands') R) :
    Simulates g.Alike (g.Course args init condition operands)
      (g.Course args init condition operands') (List.Forall₂ R) :=
  course_simulates ((evaluates_alike_states hb condition).imp fun _ _ => congrArg _) ho
    ((sequence_simulates fun v _ => evaluates_alike_states hb v).imp fun _ _ _ => trivial)

theorem course_alike_states (hb : g.Builtin) (init : List Value) :
    Simulates g.Alike (g.Course args init condition operands)
      (g.Course args init condition operands) Eq :=
  (course_exchanges hb init (sequence_simulates fun v _ => evaluates_alike_states hb v)).imp
    fun _ _ he => List.forall₂_eq_eq_eq ▸ he

theorem sequence_singleton {v : Value} {s : Except Halt (List Value)} :
    g.Sequence args [v] w s z ↔ ∃ r, g.Evaluates v args w r z ∧ s = r.map ([·]) := by
  constructor
  · intro hs
    cases hs with
    | cons hv hnil =>
      obtain ⟨rfl, rfl⟩ := sequence_nil.1 hnil
      exact ⟨_, hv, rfl⟩
    | halt hv => exact ⟨_, hv, rfl⟩
  · rintro ⟨r, hv, rfl⟩
    cases r with
    | ok x => exact .cons hv .nil
    | error e => exact .halt hv

/-! ## The inner block -/

section Blocks

variable (hb : g.Builtin) (ha : ∀ a ∈ args, a.Below g.nodes.size)

include hb ha

theorem sequence_to_block (hn : g.Hosts h n .block operands) :
    Simulates g.Alike (g.Sequence args operands) (g.Sequence args [.node h])
      fun values values' => values' = [lastValue values] := by
  intro u u' s z hu hs
  obtain ⟨s', z', hs', hz, hr⟩ :=
    sequence_simulates (fun v _ => evaluates_alike_states hb v) _ _ _ _ (hu.entered n) hs
  rw [← hr.eq] at hs'
  have hv := (evaluates_block_hosted hu.second ha hn).2 ⟨s, hs', rfl⟩
  refine ⟨_, z', sequence_singleton.2 ⟨_, hv, rfl⟩, hz, ?_⟩
  cases s with
  | ok values => exact .ok rfl
  | error e => exact .error

theorem block_to_sequence (hn : g.Hosts h n .block operands) :
    Simulates g.Alike (g.Sequence args [.node h]) (g.Sequence args operands)
      fun values values' => values = [lastValue values'] := by
  intro u u' s z hu hs
  obtain ⟨r, hv, rfl⟩ := sequence_singleton.1 hs
  obtain ⟨s, hs', rfl⟩ := (evaluates_block_hosted hu.wired ha hn).1 hv
  obtain ⟨s', z', hs', hz, hr⟩ :=
    sequence_simulates (fun v _ => evaluates_alike_states hb v) _ _ _ _ (hu.of_entered n) hs'
  rw [← hr.eq] at hs'
  refine ⟨s, z', hs', hz, ?_⟩
  cases s with
  | ok values => exact .ok rfl
  | error e => exact .error

/-! ## The outer block -/

theorem course_to_block (hn : g.Hosts h n .whileLoop [condition, body]) :
    Simulates g.Alike (g.Course args [start] condition [body])
      (g.Sequence args [start, .node h])
      fun rounds values => lastValue values = bodyValue rounds := by
  intro u u' s z hu hs
  obtain ⟨r₁, v, hstart, hrest⟩ := (exists_course_cons (P := (· = s))).1 ⟨s, hs, rfl⟩
  obtain ⟨r₁', v', hstart', hv, hr⟩ := evaluates_alike_states hb start u u' r₁ v hu hstart
  cases hr with
  | error =>
    obtain ⟨rfl, rfl⟩ := hrest
    exact ⟨_, v', .halt hstart', hv, .error⟩
  | ok =>
    obtain ⟨s, hcourse, rfl⟩ := hrest
    obtain ⟨s', z', hcourse', hz, hr'⟩ :=
      course_alike_states hb [] v (n.entered v') s z (hv.entered n) hcourse
    rw [← hr'.eq] at hcourse'
    have hwhile := (evaluates_while hv.second ha hn).2 ⟨s, hcourse', rfl⟩
    refine ⟨_, z', .cons hstart' (sequence_singleton.2 ⟨_, hwhile, rfl⟩), hz, ?_⟩
    cases s with
    | ok rounds => exact .ok rfl
    | error e => exact .error

theorem block_to_course (hn : g.Hosts h n .whileLoop [condition, body]) :
    Simulates g.Alike (g.Sequence args [start, .node h])
      (g.Course args [start] condition [body])
      fun values rounds => lastValue values = bodyValue rounds := by
  intro u u' s z hu hs
  obtain ⟨r₁, v, hstart, hrest⟩ := (exists_sequence_cons (P := (· = s))).1 ⟨s, hs, rfl⟩
  obtain ⟨r₁', v', hstart', hv, hr⟩ := evaluates_alike_states hb start u u' r₁ v hu hstart
  cases hr with
  | error =>
    obtain ⟨rfl, rfl⟩ := hrest
    exact ⟨_, v', .unstarted (.halt hstart'), hv, .error⟩
  | @ok x x' hx =>
    obtain ⟨_, hseq, rfl⟩ := hrest
    obtain ⟨r, hwhile, rfl⟩ := sequence_singleton.1 hseq
    obtain ⟨s, hcourse, rfl⟩ := (evaluates_while hv.wired ha hn).1 hwhile
    obtain ⟨s', z', hcourse', hz, hr'⟩ :=
      course_alike_states hb [] (n.entered v) v' s z (hv.of_entered n) hcourse
    rw [← hr'.eq] at hcourse'
    obtain ⟨t, hfull, rfl⟩ :=
      (exists_course_cons (P := (· = s))).2 ⟨_, _, hstart', s, hcourse', rfl⟩
    refine ⟨t, z', hfull, hz, ?_⟩
    cases t with
    | ok rounds => exact .ok rfl
    | error e => exact .error

end Blocks

/-! ## The exchange -/

/-- The value of the last operand in the last round. -/
def stepValue (rounds : List (List Value)) : Value := lastValue (rounds.map lastValue)

theorem stepValue_eq {rounds rounds' : List (List Value)}
    (h : List.Forall₂ (fun values values' => values' = [lastValue values]) rounds rounds') :
    bodyValue rounds' = stepValue rounds := by
  refine congrArg lastValue (map_eq_of_forall₂ h ?_)
  rintro values _ rfl
  rfl

/-- Such ways come to the same outcomes with the same slots. -/
theorem slots_iff {α β : Type} {r : Outcome} {first : World → Except Halt α → World → Prop}
    {second : World → Except Halt β → World → Prop} {R : α → β → Prop} {R' : β → α → Prop}
    {f : α → Value} {f' : β → Value} {u u' : World} {slots : Array Value}
    (h : Simulates g.Alike first second R) (h' : Simulates g.Alike second first R')
    (hf : ∀ a b, R a b → f a = f' b) (hf' : ∀ b a, R' b a → f' b = f a) (hu : g.Alike u u') :
    (∃ z, (∃ s, first u s z ∧ r = s.map f) ∧ z.slots = slots) ↔
      ∃ z, (∃ s, second u' s z ∧ r = s.map f') ∧ z.slots = slots :=
  h.outcome_iff h' hf hf' hu hu.symm fun _ _ hz => hz.slots.symm.trans

section Exchange

variable {outer loop inner : Handle} {outerNode loopNode innerNode : Node}
  (hw : g.Wired w) (ha : ∀ a ∈ args, a.Below g.nodes.size)

include hw ha

theorem for_slots (hn : g.Hosts h n .forLoop [start, condition, step, body]) (r : Outcome)
    (slots : Array Value) : (∃ z, g.Evaluates (.node h) args w r z ∧ z.slots = slots) ↔
      ∃ z, (∃ s, g.Course args [start] condition [body, step] w s z ∧ r = s.map bodyValue) ∧
        z.slots = slots := by
  have hself : Simulates g.Alike (g.Course args [start] condition [body, step])
      (g.Course args [start] condition [body, step]) Eq :=
    course_alike_states hw.builtin [start]
  simp only [evaluates_for hw ha hn]
  exact slots_iff hself hself (fun _ _ => congrArg _) (fun _ _ => congrArg _)
    (Graph.Alike.of_entered ⟨hw, rfl⟩ n)

theorem blocks_slots (houter : g.Hosts outer outerNode .block [start, .node loop])
    (hloop : g.Hosts loop loopNode .whileLoop [condition, .node inner])
    (hinner : g.Hosts inner innerNode .block [body, step]) (r : Outcome) (slots : Array Value) :
    (∃ z, g.Evaluates (.node outer) args w r z ∧ z.slots = slots) ↔
      ∃ z, (∃ s, g.Course args [start] condition [body, step] w s z ∧ r = s.map stepValue) ∧
        z.slots = slots := by
  have hb := hw.builtin
  simp only [evaluates_block_hosted hw ha houter]
  refine (slots_iff (block_to_course hb ha hloop) (course_to_block hb ha hloop)
    (fun _ _ => id) (fun _ _ => Eq.symm) (Graph.Alike.of_entered ⟨hw, rfl⟩ outerNode)).trans ?_
  exact slots_iff (course_exchanges hb [start] (block_to_sequence hb ha hinner))
    (course_exchanges hb [start] (sequence_to_block hb ha hinner))
    (fun _ _ he => stepValue_eq he.flip) (fun _ _ he => (stepValue_eq he).symm) ⟨hw, rfl⟩

/-- The outcomes of both with what they leave in the slots are read off the same courses. -/
theorem for_as_while (hfor : g.Hosts h n .forLoop [start, condition, step, body])
    (houter : g.Hosts outer outerNode .block [start, .node loop])
    (hloop : g.Hosts loop loopNode .whileLoop [condition, .node inner])
    (hinner : g.Hosts inner innerNode .block [body, step]) :
    ((∃ r z, g.Evaluates (.node h) args w r z) ↔ ∃ r z, g.Evaluates (.node outer) args w r z) ∧
    (∀ e slots, (∃ z, g.Evaluates (.node h) args w (.error e) z ∧ z.slots = slots) ↔
      ∃ z, g.Evaluates (.node outer) args w (.error e) z ∧ z.slots = slots) ∧
    (∀ v slots, (∃ z, g.Evaluates (.node h) args w (.ok v) z ∧ z.slots = slots) ↔
      ∃ z, (∃ rounds, g.Course args [start] condition [body, step] w (.ok rounds) z ∧
        v = bodyValue rounds) ∧ z.slots = slots) ∧
    (∀ v slots, (∃ z, g.Evaluates (.node outer) args w (.ok v) z ∧ z.slots = slots) ↔
      ∃ z, (∃ rounds, g.Course args [start] condition [body, step] w (.ok rounds) z ∧
        v = stepValue rounds) ∧ z.slots = slots) := by
  have hcourses := for_slots hw ha hfor
  have hblocks := blocks_slots hw ha houter hloop hinner
  refine ⟨?_, fun e slots => ?_, fun v slots => ?_, fun v slots => ?_⟩
  · constructor
    · rintro ⟨r, z, hs⟩
      obtain ⟨z', ⟨s, hs', -⟩, -⟩ := (hcourses r z.slots).1 ⟨z, hs, rfl⟩
      obtain ⟨z₁, hs₁, -⟩ := (hblocks _ z'.slots).2 ⟨z', ⟨s, hs', rfl⟩, rfl⟩
      exact ⟨_, z₁, hs₁⟩
    · rintro ⟨r, z, hs⟩
      obtain ⟨z', ⟨s, hs', -⟩, -⟩ := (hblocks r z.slots).1 ⟨z, hs, rfl⟩
      obtain ⟨z₁, hs₁, -⟩ := (hcourses _ z'.slots).2 ⟨z', ⟨s, hs', rfl⟩, rfl⟩
      exact ⟨_, z₁, hs₁⟩
  · rw [hcourses, hblocks]
    simp only [outcome_error]
  · rw [hcourses]
    simp only [outcome_ok]
  · rw [hblocks]
    simp only [outcome_ok]

end Exchange

/-- A loop while a flag is up, whose body lowers the flag and comes to seven and whose step
comes to nine, and the blocks in its place with their inner loop on a pool. -/
def exchanged : Graph where
  nodes := #[⟨.variable, [.bool true], ⟨"flag", "sample"⟩, .here⟩,
    ⟨.store, [.node ⟨0, "flag"⟩, .bool false], ⟨"lower", "sample"⟩, .here⟩,
    ⟨.block, [.node ⟨1, "lower"⟩, .int 7], ⟨"body", "sample"⟩, .here⟩,
    ⟨.forLoop, [.int 1, .node ⟨0, "flag"⟩, .int 9, .node ⟨2, "body"⟩], ⟨"for", "sample"⟩, .here⟩,
    ⟨.block, [.node ⟨2, "body"⟩, .int 9], ⟨"inner", "sample"⟩, .here⟩,
    ⟨.whileLoop, [.node ⟨0, "flag"⟩, .node ⟨4, "inner"⟩], ⟨"while", "sample"⟩,
      ⟨⟨1⟩, .pool 2 "pool"⟩⟩,
    ⟨.block, [.int 1, .node ⟨5, "while"⟩], ⟨"outer", "sample"⟩, .here⟩]

/-- One gives the value of the body, the other one that of the step. -/
theorem exchanged_once :
    (∃ z, (∃ rounds, exchanged.Course [] [.int 1] (.node ⟨0, "flag"⟩)
      [.node ⟨2, "body"⟩, .int 9] ⟨#[.bool true], #[]⟩ (.ok rounds) z ∧
        .int 7 = bodyValue rounds) ∧ z.slots = #[.bool false]) ∧
    (∃ z, (∃ rounds, exchanged.Course [] [.int 1] (.node ⟨0, "flag"⟩)
      [.node ⟨2, "body"⟩, .int 9] ⟨#[.bool true], #[]⟩ (.ok rounds) z ∧
        .int 9 = stepValue rounds) ∧ z.slots = #[.bool false]) := by
  have hw : exchanged.Wired ⟨#[.bool true], #[]⟩ := by
    refine ⟨by decide, ?_, by decide, fun i _ _ _ => ?_⟩
    · simp only [exchanged, List.mem_toArray, List.forall_mem_cons]
      exact ⟨rfl, rfl, rfl, rfl, rfl, rfl, rfl, List.forall_mem_nil _⟩
    · exact below_slot (by simp [Value.Below]) i
  have hpool : Locality.Served ⟨⟨1⟩, .pool 2 "pool"⟩ := @served_of_pool ⟨2, "pool"⟩ ⟨1⟩ _ rfl
  have hfor : exchanged.Hosts ⟨3, "for"⟩ _ .forLoop _ := ⟨rfl, served_of_inline rfl, rfl, rfl⟩
  have houter : exchanged.Hosts ⟨6, "outer"⟩ _ .block _ := ⟨rfl, served_of_inline rfl, rfl, rfl⟩
  have hloop : exchanged.Hosts ⟨5, "while"⟩ _ .whileLoop _ := ⟨rfl, hpool, rfl, rfl⟩
  have hinner : exchanged.Hosts ⟨4, "inner"⟩ _ .block _ := ⟨rfl, served_of_inline rfl, rfl, rfl⟩
  obtain ⟨-, -, hbody, hstep⟩ :=
    for_as_while hw (List.forall_mem_nil _) hfor houter hloop hinner
  exact ⟨(hbody _ _).1 ⟨_, ⟨40, rfl⟩, rfl⟩, (hstep _ _).1 ⟨_, ⟨40, rfl⟩, rfl⟩⟩

end ArrayGraph
