import ArrayGraph.Proofs.Evaluation.Hosting
import ArrayGraph.Proofs.Evaluation.Simulation
/-!
# Loops

The law of loops: what a loop evaluates is a course, the operands that begin it, then
rounds of a condition that holds and of the operands of the loop in sequence, up to a
condition that does not hold or to the first failure (`Graph.Course`). A loop has a value
or an error just when it has a course to that end (`loop_law`). The steps of a job are
counted on the way there, since a round leads to a round of the same loop (`run_round`);
on the way back the rounds themselves carry the induction (`runs_round`).
-/

namespace ArrayGraph

/-! ## Courses -/

/-- Rounds of a loop, each on the state that the last one left: a condition that holds, then
the operands in sequence. The list has the values of the operands of each round. -/
inductive Graph.Rounds (g : Graph) (args : List Value) (condition : Value) (operands : List Value) :
    World → List (List Value) → World → Prop
  | nil {w} : Rounds g args condition operands w [] w
  | cons {w c w₁ values w₂ rounds z} : g.Evaluates condition args w (.ok c) w₁ →
      c.truthy? = some true → g.Sequence args operands w₁ (.ok values) w₂ →
      Rounds g args condition operands w₂ rounds z →
      Rounds g args condition operands w (values :: rounds) z

/-- The end of a loop that is about to test its condition: this does not hold, or something
fails before the round is over. -/
inductive Graph.Ending (g : Graph) (args : List Value) (condition : Value)
    (operands : List Value) : World → Except Halt Unit → World → Prop
  | finished {w c z} : g.Evaluates condition args w (.ok c) z → c.truthy? = some false →
      Ending g args condition operands w (.ok ()) z
  | condition {w e z} : g.Evaluates condition args w (.error e) z →
      Ending g args condition operands w (.error e) z
  | operand {w c w₁ e z} : g.Evaluates condition args w (.ok c) w₁ → c.truthy? = some true →
      g.Sequence args operands w₁ (.error e) z → Ending g args condition operands w (.error e) z

/-- All that a loop evaluates. It comes to its rounds, or to the first failure. -/
inductive Graph.Course (g : Graph) (args init : List Value) (condition : Value)
    (operands : List Value) : World → Except Halt (List (List Value)) → World → Prop
  | unstarted {w e z} : g.Sequence args init w (.error e) z →
      Course g args init condition operands w (.error e) z
  | ended {w xs w₁ rounds w₂ s z} : g.Sequence args init w (.ok xs) w₁ →
      g.Rounds args condition operands w₁ rounds w₂ → g.Ending args condition operands w₂ s z →
      Course g args init condition operands w (s.map fun _ => rounds) z

/-- The value of the first operand of a round. -/
def firstValue (values : List Value) : Value := values.headD .empty

/-- What a loop runs after its condition. -/
def Loop.operands (l : Loop) : List Value := l.body :: l.step.toList

variable {g : Graph} {args init operands : List Value} {condition : Value} {w w₁ z : World}
  {r : Outcome}

/-! ## The steps of a round -/

theorem run_waiting {k : Frame} {j : Job} {n : Nat}
    (h : (Job.waiting k j).run g n w = some (r, z)) :
    ∃ r₁ w₁, j.Runs g w r₁ w₁ ∧ match r₁ with
      | .ok v => ∃ m < n, (k.resume g v w₁).1.run g m (k.resume g v w₁).2 = some (r, z)
      | .error e => r = .error e ∧ z = w₁ := by
  induction n generalizing j w with
  | zero => simp [Job.run] at h
  | succ n ih =>
    rcases hs : j.step g w with ⟨p, w'⟩
    have hw := step_waiting (g := g) k j w
    rw [hs] at hw
    cases p with
    | finished r₁ =>
      refine ⟨r₁, w', (Job.runs_step hs).2 ⟨rfl, rfl⟩, ?_⟩
      have hrest := run_of_comesTo (.now hw) h
      cases r₁ with
      | ok v => exact hrest
      | error e => exact hrest
    | moved j' | suspended j' =>
      obtain ⟨r₁, w₁, h₁, hrest⟩ := ih ((Job.run_succ n hw).symm.trans h)
      refine ⟨r₁, w₁, (Job.runs_step hs).2 h₁, ?_⟩
      cases r₁ with
      | ok v =>
        obtain ⟨m, hm, hrun⟩ := hrest
        exact ⟨m, Nat.lt_succ_of_lt hm, hrun⟩
      | error e => exact hrest

theorem run_await {k : Frame} {v : Value} {n : Nat}
    (h : (g.await k v args w).1.run g n (g.await k v args w).2 = some (r, z)) :
    ∃ r₁ w₁, g.Evaluates v args w r₁ w₁ ∧ match r₁ with
      | .ok v => ∃ m < n, (k.resume g v w₁).1.run g m (k.resume g v w₁).2 = some (r, z)
      | .error e => r = .error e ∧ z = w₁ :=
  run_waiting h

section Rounds

variable {l : Loop} {last : Value}

theorem run_rest {n : Nat} (h : (Job.rest l last).run g n w = some (r, z)) :
    ∃ m < n, (Job.round l last).run g m w = some (r, z) :=
  run_of_comesTo (.now rfl) h

theorem run_operands {n : Nat}
    (h : (g.await (.loopBody l) l.body l.args w).1.run g n
      (g.await (.loopBody l) l.body l.args w).2 = some (r, z)) :
    ∃ s w₁, g.Sequence l.args l.operands w s w₁ ∧ match s with
      | .ok values => ∃ m < n, (Job.round l (firstValue values)).run g m w₁ = some (r, z)
      | .error e => r = .error e ∧ z = w₁ := by
  obtain ⟨r₁, w₁, hbody, h⟩ := run_await h
  cases r₁ with
  | error e => exact ⟨.error e, w₁, .halt hbody, h⟩
  | ok v =>
    obtain ⟨m, hm, h⟩ := h
    cases hstep : l.step with
    | none =>
      simp only [Frame.resume, hstep] at h
      obtain ⟨k, hk, h⟩ := run_rest h
      refine ⟨.ok [v], w₁, ?_, k, Nat.lt_trans hk hm, h⟩
      simp only [Loop.operands, hstep, Option.toList]
      exact .cons hbody .nil
    | some step =>
      simp only [Frame.resume, hstep] at h
      simp only [Loop.operands, hstep, Option.toList]
      obtain ⟨r₂, w₂, hs, h⟩ := run_await h
      cases r₂ with
      | error e => exact ⟨.error e, w₂, .cons hbody (.halt hs), h⟩
      | ok x =>
        obtain ⟨k, hk, h⟩ := h
        obtain ⟨i, hi, h⟩ := run_rest h
        exact ⟨.ok [v, x], w₂, .cons hbody (.cons hs .nil), i,
          Nat.lt_trans hi (Nat.lt_trans hk hm), h⟩

/-- A loop that is about to test its condition ends there, or comes to its next test after a
round and in fewer steps. -/
theorem run_round {n : Nat} (hb : g.Builtin) (h : (Job.round l last).run g n w = some (r, z)) :
    (∃ s, g.Ending l.args l.condition l.operands w s z ∧ r = s.map fun _ => last) ∨
    ∃ c w₁ values w₂, g.Evaluates l.condition l.args w (.ok c) w₁ ∧ c.truthy? = some true ∧
      g.Sequence l.args l.operands w₁ (.ok values) w₂ ∧
      ∃ m < n, (Job.round l (firstValue values)).run g m w₂ = some (r, z) := by
  obtain ⟨n₁, hn₁, h⟩ := run_of_comesTo (.now rfl) h
  obtain ⟨r₁, w₁, hc, h⟩ := run_await h
  cases r₁ with
  | error e =>
    obtain ⟨rfl, rfl⟩ := h
    exact .inl ⟨.error e, .condition hc, rfl⟩
  | ok c =>
    obtain ⟨n₂, hn₂, h⟩ := h
    -- the condition has no handle for its value, so it holds or does not hold
    obtain ⟨b, ht⟩ := truthy_of_plain (evaluates_builtin hb hc).1
    cases b with
    | false =>
      simp only [Frame.resume, ht] at h
      obtain ⟨rfl, rfl⟩ := runs_done.1 ⟨n₂, h⟩
      exact .inl ⟨.ok (), .finished hc ht, rfl⟩
    | true =>
      simp only [Frame.resume, ht] at h
      obtain ⟨s, w₂, hs, h⟩ := run_operands h
      cases s with
      | error e =>
        obtain ⟨rfl, rfl⟩ := h
        exact .inl ⟨.error e, .operand hc ht hs, rfl⟩
      | ok values =>
        obtain ⟨m, hm, h⟩ := h
        exact .inr ⟨c, w₁, values, w₂, hc, ht, hs, m, Nat.lt_trans hm (Nat.lt_trans hn₂ hn₁), h⟩

/-! ## The way of a round -/

theorem runs_operands
    (h : ∃ s w₁, g.Sequence l.args l.operands w s w₁ ∧ match s with
      | .ok values => (Job.round l (firstValue values)).Runs g w₁ r z
      | .error e => r = .error e ∧ z = w₁) :
    (g.await (.loopBody l) l.body l.args w).1.Runs g
      (g.await (.loopBody l) l.body l.args w).2 r z := by
  obtain ⟨s, w₁, hs, h⟩ := h
  refine runs_await.2 ?_
  cases hs with
  | halt hbody => exact ⟨_, _, hbody, h⟩
  | cons hbody hs =>
    refine ⟨_, _, hbody, ?_⟩
    simp only [Frame.after, Frame.resume]
    cases hstep : l.step with
    | none =>
      rw [hstep] at hs
      obtain ⟨rfl, rfl⟩ := sequence_nil.1 hs
      exact (Job.runs_step rfl).2 h
    | some step =>
      rw [hstep] at hs
      refine runs_await.2 ?_
      cases hs with
      | halt hs => exact ⟨_, _, hs, h⟩
      | cons hs hnil =>
        obtain ⟨rfl, rfl⟩ := sequence_nil.1 hnil
        exact ⟨_, _, hs, (Job.runs_step rfl).2 h⟩

theorem runs_ending {s : Except Halt Unit} (h : g.Ending l.args l.condition l.operands w s z) :
    (Job.round l last).Runs g w (s.map fun _ => last) z := by
  refine (Job.runs_step rfl).2 (runs_await.2 ?_)
  cases h with
  | finished hc ht =>
    refine ⟨_, _, hc, ?_⟩
    simp only [Frame.after, Frame.resume, ht]
    exact runs_done.2 ⟨rfl, rfl⟩
  | condition hc => exact ⟨_, _, hc, rfl, rfl⟩
  | operand hc ht hs =>
    refine ⟨_, _, hc, ?_⟩
    simp only [Frame.after, Frame.resume, ht]
    exact runs_operands ⟨_, _, hs, rfl, rfl⟩

theorem runs_round {rounds : List (List Value)} {s : Except Halt Unit}
    (h : g.Rounds l.args l.condition l.operands w rounds w₁)
    (hs : g.Ending l.args l.condition l.operands w₁ s z) :
    (Job.round l last).Runs g w (s.map fun _ => (rounds.map firstValue).getLastD last) z := by
  generalize hcondition : l.condition = condition at h hs
  generalize hoperands : l.operands = operands at h hs
  induction h generalizing last with
  | nil =>
    subst hcondition hoperands
    exact runs_ending hs
  | cons hc ht hvalues _ ih =>
    subst hcondition hoperands
    refine (Job.runs_step rfl).2 (runs_await.2 ⟨_, _, hc, ?_⟩)
    simp only [Frame.after, Frame.resume, ht]
    refine runs_operands ⟨_, _, hvalues, ?_⟩
    rw [List.map_cons, List.getLastD_cons]
    exact ih hs

/-- A loop that is about to test its condition runs through rounds to its end. -/
theorem runs_round_iff (hb : g.Builtin) :
    (Job.round l last).Runs g w r z ↔ ∃ rounds w₁ s,
      g.Rounds l.args l.condition l.operands w rounds w₁ ∧
      g.Ending l.args l.condition l.operands w₁ s z ∧
      r = s.map fun _ => (rounds.map firstValue).getLastD last := by
  constructor
  · rintro ⟨n, hn⟩
    induction n using Nat.strongRecOn generalizing w last with
    | _ n ih =>
      rcases run_round hb hn with ⟨s, hs, rfl⟩ | ⟨c, w₁, values, w₂, hc, ht, hvalues, m, hm, hrun⟩
      · exact ⟨[], w, s, .nil, hs, rfl⟩
      · obtain ⟨rounds, w₃, s, hrounds, hs, rfl⟩ := ih m hm hrun
        refine ⟨values :: rounds, w₃, s, .cons hc ht hvalues hrounds, hs, ?_⟩
        rw [List.map_cons, List.getLastD_cons]
  · rintro ⟨rounds, w₁, s, hrounds, hs, rfl⟩
    exact runs_round hrounds hs

end Rounds

/-! ## Nodes that loop -/

/-- The value of a loop: that of the first operand in the last round. -/
def bodyValue (rounds : List (List Value)) : Value := lastValue (rounds.map firstValue)

/-- What is evaluated first either fails or leaves the rest of the course. -/
theorem exists_course_cons {v : Value} {P : Except Halt (List (List Value)) → Prop} :
    (∃ s, g.Course args (v :: init) condition operands w s z ∧ P s) ↔
      ∃ r₁ w₁, g.Evaluates v args w r₁ w₁ ∧ match r₁ with
        | .ok _ => ∃ s, g.Course args init condition operands w₁ s z ∧ P s
        | .error e => P (.error e) ∧ z = w₁ := by
  constructor
  · rintro ⟨s, hs, hp⟩
    cases hs with
    | unstarted h =>
      generalize ht : (Except.error _ : Except Halt (List Value)) = t at h
      cases h with
      | halt hv =>
        cases ht
        exact ⟨_, _, hv, hp, rfl⟩
      | @cons _ _ _ x w₁ t _ hv hvs =>
        cases t with
        | ok xs => cases ht
        | error e =>
          cases ht
          exact ⟨_, _, hv, _, .unstarted hvs, hp⟩
    | ended h hrounds hs =>
      generalize ht : (Except.ok _ : Except Halt (List Value)) = t at h
      cases h with
      | halt hv => cases ht
      | @cons _ _ _ x w₁ t _ hv hvs =>
        cases t with
        | ok xs => exact ⟨_, _, hv, _, .ended hvs hrounds hs, hp⟩
        | error e => cases ht
  · rintro ⟨r₁, w₁, hv, h⟩
    cases r₁ with
    | error e =>
      obtain ⟨hp, rfl⟩ := h
      exact ⟨_, .unstarted (.halt hv), hp⟩
    | ok x =>
      obtain ⟨s, hs, hp⟩ := h
      cases hs with
      | unstarted h => exact ⟨_, .unstarted (.cons hv h), hp⟩
      | ended h hrounds hs => exact ⟨_, .ended (.cons hv h) hrounds hs, hp⟩

/-- What begins a loop and the rest of the course. -/
theorem course_after {xs : List Value} {s : Except Halt (List (List Value))}
    (hi : g.Sequence args init w (.ok xs) w₁) (h : g.Course args [] condition operands w₁ s z) :
    g.Course args init condition operands w s z := by
  cases h with
  | unstarted h => cases h
  | ended h hrounds hs =>
    cases h
    exact .ended hi hrounds hs

theorem map_bodyValue (rounds : List (List Value)) (s : Except Halt Unit) :
    (s.map fun _ => rounds).map bodyValue =
      s.map fun _ => (rounds.map firstValue).getLastD .empty := by
  cases s with
  | ok => exact congrArg Except.ok (List.getLastD_eq_getLast? ..).symm
  | error e => rfl

/-- A loop that has not had a round comes to the value of its rounds. -/
theorem runs_of_course {l : Loop} {s : Except Halt (List (List Value))}
    (h : g.Course l.args [] l.condition l.operands w s z) :
    (Job.round l .empty).Runs g w (s.map bodyValue) z := by
  cases h with
  | unstarted h => cases h
  | ended h hrounds hs =>
    cases h
    rw [map_bodyValue]
    exact runs_round hrounds hs

theorem runs_start {l : Loop} (hb : g.Builtin) :
    (Job.round l .empty).Runs g w r z ↔
      ∃ s, g.Course l.args [] l.condition l.operands w s z ∧ r = s.map bodyValue := by
  constructor
  · intro h
    obtain ⟨rounds, w₁, s, hrounds, hs, rfl⟩ := (runs_round_iff hb).1 h
    exact ⟨_, .ended .nil hrounds hs, (map_bodyValue rounds s).symm⟩
  · rintro ⟨s, hs, rfl⟩
    exact runs_of_course hs

theorem evaluates_while {h : Handle} {n : Node} {body : Value} (hw : g.Wired w)
    (ha : ∀ a ∈ args, a.Below g.nodes.size) (hn : g.Hosts h n .whileLoop [condition, body]) :
    g.Evaluates (.node h) args w r z ↔
      ∃ s, g.Course args [] condition [body] (n.entered w) s z ∧ r = s.map bodyValue := by
  rw [evaluates_hosted hw ha hn]
  simp only [Node.run, hn.primitive, hn.operands]
  exact runs_start hw.builtin

theorem evaluates_for {h : Handle} {n : Node} {start step body : Value} (hw : g.Wired w)
    (ha : ∀ a ∈ args, a.Below g.nodes.size)
    (hn : g.Hosts h n .forLoop [start, condition, step, body]) :
    g.Evaluates (.node h) args w r z ↔
      ∃ s, g.Course args [start] condition [body, step] (n.entered w) s z ∧
        r = s.map bodyValue := by
  rw [evaluates_hosted hw ha hn]
  simp only [Node.run, hn.primitive, hn.operands]
  rw [runs_await, exists_course_cons]
  refine exists_congr fun r₁ => exists_congr fun w₁ => and_congr_right fun _ => ?_
  cases r₁ with
  | ok x => exact runs_start hw.builtin
  | error e => exact Iff.rfl

/-- A loop has the value of its course, whatever else the graph holds. -/
theorem for_of_course {h : Handle} {n : Node} {start step body : Value}
    {rounds : List (List Value)} (hn : g.Hosts h n .forLoop [start, condition, step, body])
    (hs : g.Course args [start] condition [body, step] (n.entered w) (.ok rounds) z) :
    g.Evaluates (.node h) args w (.ok (bodyValue rounds)) z := by
  obtain ⟨r₁, w₁, hstart, hrest⟩ := (exists_course_cons (P := (· = .ok rounds))).1 ⟨_, hs, rfl⟩
  cases r₁ with
  | error e => cases hrest.1
  | ok x =>
    obtain ⟨_, hcourse, rfl⟩ := hrest
    refine evaluates_entered hn ?_
    simp only [Node.run, hn.primitive, hn.operands]
    exact runs_await.2 ⟨_, _, hstart,
      runs_of_course (l := ⟨n.site, args, condition, body, some step⟩) hcourse⟩

/-! ## Courses that agree -/

section Simulations

variable {like : World → World → Prop} {args' init' operands' : List Value} {condition' : Value}
  {R : List Value → List Value → Prop}

section Heads

/- `head` relates the states in which the loops are about to test their conditions, `like`
all others. -/
variable (head : World → World → Prop)
  (hc : ∀ u u' s z, head u u' → g.Evaluates condition args u s z → ∃ s' z',
    g.Evaluates condition' args' u' s' z' ∧ like z z' ∧
      Related (fun c c' => c.truthy? = c'.truthy?) s s')
  (ho : Simulates like (g.Sequence args operands) (g.Sequence args' operands') R)

include hc ho

theorem ending_simulates {u u' : World} {s : Except Halt Unit} (hu : head u u')
    (h : g.Ending args condition operands u s z) :
    ∃ s' z', g.Ending args' condition' operands' u' s' z' ∧ like z z' ∧
      Related (fun _ _ => True) s s' := by
  cases h with
  | finished hcond ht =>
    obtain ⟨_, z', hcond', hz, hr⟩ := hc _ _ _ _ hu hcond
    cases hr with | @ok c c' hr => ?_
    exact ⟨_, z', .finished hcond' (hr ▸ ht), hz, .ok trivial⟩
  | condition hcond =>
    obtain ⟨_, z', hcond', hz, hr⟩ := hc _ _ _ _ hu hcond
    cases hr
    exact ⟨_, z', .condition hcond', hz, .error⟩
  | operand hcond ht hvalues =>
    obtain ⟨_, v', hcond', hv, hr⟩ := hc _ _ _ _ hu hcond
    cases hr with | @ok c c' hr => ?_
    obtain ⟨_, z', hvalues', hz, hr'⟩ := ho _ _ _ _ hv hvalues
    cases hr'
    exact ⟨_, z', .operand hcond' (hr ▸ ht) hvalues', hz, .error⟩

variable
  (hnext : ∀ {u u' values values' x x'}, head u u' →
    g.Rounds args condition operands u [values] x →
    g.Rounds args' condition' operands' u' [values'] x' → like x x' → head x x')

include hnext

theorem rounds_simulate {u u' : World} {rounds : List (List Value)} (hu : head u u')
    (h : g.Rounds args condition operands u rounds z) :
    ∃ rounds' z', g.Rounds args' condition' operands' u' rounds' z' ∧ head z z' ∧
      List.Forall₂ R rounds rounds' := by
  induction h generalizing u' with
  | nil => exact ⟨[], u', .nil, hu, .nil⟩
  | cons hcond ht hvalues _ ih =>
    obtain ⟨_, v', hcond', hv, hr⟩ := hc _ _ _ _ hu hcond
    cases hr with | @ok c c' hr => ?_
    obtain ⟨_, v₁', hvalues', hv₁, hr'⟩ := ho _ _ _ _ hv hvalues
    cases hr' with | @ok values values' hr' => ?_
    have hhead := hnext hu (.cons hcond ht hvalues .nil) (.cons hcond' (hr ▸ ht) hvalues' .nil) hv₁
    obtain ⟨rounds', z', hrounds', hz, hR⟩ := ih hhead
    exact ⟨_, z', .cons hcond' (hr ▸ ht) hvalues' hrounds', hz, .cons hr' hR⟩

/-- A loop that nothing begins agrees with another one from its first test on. -/
theorem course_simulates_heads {u u' : World} {s : Except Halt (List (List Value))}
    (hu : head u u') (h : g.Course args [] condition operands u s z) :
    ∃ s' z', g.Course args' [] condition' operands' u' s' z' ∧ like z z' ∧
      Related (List.Forall₂ R) s s' := by
  cases h with
  | unstarted h => cases h
  | ended h hrounds hs =>
    cases h
    obtain ⟨rounds', v', hrounds', hv, hR⟩ := rounds_simulate head hc ho hnext hu hrounds
    obtain ⟨_, z', hs', hz, hr⟩ := ending_simulates head hc ho hv hs
    refine ⟨_, z', .ended .nil hrounds' hs', hz, ?_⟩
    cases hr with
    | ok => exact .ok hR
    | error => exact .error

end Heads

/-- Courses agree when their parts do. -/
theorem course_simulates
    (hc : Simulates like (g.Evaluates condition args) (g.Evaluates condition' args')
      fun c c' => c.truthy? = c'.truthy?)
    (ho : Simulates like (g.Sequence args operands) (g.Sequence args' operands') R)
    (hi : Simulates like (g.Sequence args init) (g.Sequence args' init') fun _ _ => True) :
    Simulates like (g.Course args init condition operands)
      (g.Course args' init' condition' operands') (List.Forall₂ R) := by
  intro u u' s z hu h
  cases h with
  | unstarted h =>
    obtain ⟨_, z', h', hz, hr⟩ := hi _ _ _ _ hu h
    cases hr
    exact ⟨_, z', .unstarted h', hz, .error⟩
  | ended h hrounds hs =>
    obtain ⟨_, v', h', hv, hr⟩ := hi _ _ _ _ hu h
    cases hr
    obtain ⟨s', z', hs', hz, hr'⟩ := course_simulates_heads like hc ho (fun _ _ _ hx => hx) hv
      (.ended .nil hrounds hs)
    exact ⟨s', z', course_after h' hs', hz, hr'⟩

end Simulations

/-! ## Literals -/

theorem launch_literal {v : Value} (hv : v.Plain) (w : World) :
    g.launch v args w = (.done (.ok v), w) := by
  cases v with
  | node h => cases hv
  | _ => rfl

theorem evaluates_literal {v : Value} (hv : v.Plain) :
    g.Evaluates v args w r z ↔ r = .ok v ∧ z = w := by
  rw [evaluates_iff, launch_literal hv]
  exact runs_done

theorem sequence_literal {v : Value} {s : Except Halt (List Value)} (hv : v.Plain) :
    g.Sequence args [v] w s z ↔ s = .ok [v] ∧ z = w := by
  constructor
  · intro h
    cases h with
    | cons hv' hvs =>
      obtain ⟨hr, rfl⟩ := (evaluates_literal hv).1 hv'
      obtain ⟨rfl, rfl⟩ := sequence_nil.1 hvs
      cases hr
      exact ⟨rfl, rfl⟩
    | halt hv' => cases ((evaluates_literal hv).1 hv').1
  · rintro ⟨rfl, rfl⟩
    exact .cons ((evaluates_literal hv).2 ⟨rfl, rfl⟩) .nil

/-- A literal at the end of a sequence adds its value and nothing else. -/
theorem sequence_then_literal {v x : Value} {s : Except Halt (List Value)} (hx : x.Plain) :
    g.Sequence args [v, x] w s z ↔
      ∃ s', g.Sequence args [v] w s' z ∧ s = s'.map (· ++ [x]) := by
  have hiff : (∃ s', g.Sequence args [v, x] w s' z ∧ s' = s) ↔
      ∃ s', g.Sequence args [v] w s' z ∧ s'.map (· ++ [x]) = s := by
    rw [exists_sequence_cons, exists_sequence_cons]
    refine exists_congr fun r₁ => exists_congr fun w₁ => and_congr_right fun _ => ?_
    cases r₁ with
    | error e => exact Iff.rfl
    | ok y =>
      dsimp only
      rw [exists_sequence_nil]
      simp only [sequence_literal hx]
      constructor
      · rintro ⟨_, ⟨rfl, rfl⟩, rfl⟩
        exact ⟨rfl, rfl⟩
      · rintro ⟨rfl, rfl⟩
        exact ⟨_, ⟨rfl, rfl⟩, rfl⟩
  simpa [eq_comm] using hiff

/-- Rounds whose first operands have the same values. -/
def SameFirst (values values' : List Value) : Prop := firstValue values = firstValue values'

theorem firstValue_append {values : List Value} {n : Nat} (h : values.length = n + 1)
    (more : List Value) : SameFirst (values ++ more) values := by
  cases values with
  | nil => cases h
  | cons v values => rfl

theorem bodyValue_congr (rounds rounds' : List (List Value))
    (h : List.Forall₂ SameFirst rounds rounds') : bodyValue rounds = bodyValue rounds' :=
  congrArg lastValue (map_eq_of_forall₂ h fun _ _ he => Eq.symm he).symm

section Literals

variable {like : World → World → Prop} {start body step : Value} (hstart : start.Plain)
  (hstep : step.Plain)
  (hc : Simulates like (g.Evaluates condition args) (g.Evaluates condition args) Eq)
  (hbody : Simulates like (g.Evaluates body args) (g.Evaluates body args) Eq)

include hstart hstep hc hbody

theorem course_drop_literals :
    Simulates like (g.Course args [start] condition [body, step])
      (g.Course args [] condition [body]) (List.Forall₂ SameFirst) := by
  refine course_simulates (hc.imp fun _ _ => congrArg _) ?_ ?_
  · intro u u' s z hu h
    obtain ⟨s', h', rfl⟩ := (sequence_then_literal hstep).1 h
    obtain ⟨t, z', ht, hz, hr⟩ :=
      sequence_simulates (List.forall_mem_singleton.2 hbody) _ _ _ _ hu h'
    rw [← hr.eq] at ht
    refine ⟨s', z', ht, hz, ?_⟩
    cases s' with
    | error e => exact .error
    | ok values => exact .ok (firstValue_append (sequence_length h') _)
  · intro u u' s z hu h
    obtain ⟨rfl, rfl⟩ := (sequence_literal hstart).1 h
    exact ⟨_, u', .nil, hu, .ok trivial⟩

theorem course_add_literals :
    Simulates like (g.Course args [] condition [body])
      (g.Course args [start] condition [body, step]) (List.Forall₂ SameFirst) := by
  refine course_simulates (hc.imp fun _ _ => congrArg _) ?_ ?_
  · intro u u' s z hu h
    obtain ⟨t, z', ht, hz, hr⟩ :=
      sequence_simulates (List.forall_mem_singleton.2 hbody) _ _ _ _ hu h
    rw [← hr.eq] at ht
    refine ⟨_, z', (sequence_then_literal hstep).2 ⟨s, ht, rfl⟩, hz, ?_⟩
    cases s with
    | error e => exact .error
    | ok values => exact .ok (firstValue_append (sequence_length ht) _).symm
  · intro u u' s z hu h
    obtain ⟨rfl, rfl⟩ := sequence_nil.1 h
    exact ⟨_, u', (sequence_literal hstart).2 ⟨rfl, rfl⟩, hu, .ok trivial⟩

/-- Courses with literals and without them come to the same outcomes. -/
theorem course_literals_iff {P : World → Prop} {u u' : World} (hu : like u u')
    (hu' : like u' u) (hP : ∀ z z', like z z' → P z → P z') :
    (∃ z, (∃ s, g.Course args [start] condition [body, step] u s z ∧ r = s.map bodyValue) ∧
      P z) ↔
      ∃ z, (∃ s, g.Course args [] condition [body] u' s z ∧ r = s.map bodyValue) ∧ P z :=
  (course_drop_literals hstart hstep hc hbody).outcome_iff
    (course_add_literals hstart hstep hc hbody) bodyValue_congr bodyValue_congr hu hu' hP

end Literals

/-! ## The law -/

/-- A loop has a value just when its course comes to rounds, and an error just when its
course comes to that error, and it leaves the state of the course. The value is that of the
last body, or empty without rounds. A `while` is a `for` whose other operands are
literals. -/
theorem loop_law (hw : g.Wired w) (ha : ∀ a ∈ args, a.Below g.nodes.size) :
    (∀ h n start condition step body, g.Hosts h n .forLoop [start, condition, step, body] →
      (∀ v z, g.Evaluates (.node h) args w (.ok v) z ↔ ∃ rounds,
        g.Course args [start] condition [body, step] (n.entered w) (.ok rounds) z ∧
          v = bodyValue rounds) ∧
      ∀ e z, g.Evaluates (.node h) args w (.error e) z ↔
        g.Course args [start] condition [body, step] (n.entered w) (.error e) z) ∧
    (∀ h n condition body, g.Hosts h n .whileLoop [condition, body] →
      (∀ v z, g.Evaluates (.node h) args w (.ok v) z ↔ ∃ rounds,
        g.Course args [] condition [body] (n.entered w) (.ok rounds) z ∧
          v = bodyValue rounds) ∧
      ∀ e z, g.Evaluates (.node h) args w (.error e) z ↔
        g.Course args [] condition [body] (n.entered w) (.error e) z) ∧
    (∀ h n h' n' start condition step body,
      g.Hosts h n .forLoop [start, condition, step, body] →
      g.Hosts h' n' .whileLoop [condition, body] → start.Plain → step.Plain →
      (∀ r slots, (∃ z, g.Evaluates (.node h) args w r z ∧ z.slots = slots) ↔
        ∃ z, g.Evaluates (.node h') args w r z ∧ z.slots = slots) ∧
      (n.entered w = n'.entered w →
        ∀ r z, g.Evaluates (.node h) args w r z ↔ g.Evaluates (.node h') args w r z)) := by
  refine ⟨?_, ?_, ?_⟩
  · intro h n start condition step body hn
    exact ⟨fun v z => (evaluates_for hw ha hn).trans outcome_ok,
      fun e z => (evaluates_for hw ha hn).trans outcome_error⟩
  · intro h n condition body hn
    exact ⟨fun v z => (evaluates_while hw ha hn).trans outcome_ok,
      fun e z => (evaluates_while hw ha hn).trans outcome_error⟩
  · intro h n h' n' start condition step body hn hn' hstart hstep
    simp only [evaluates_for hw ha hn, evaluates_while hw ha hn']
    have hslots : (n.entered w).SameSlots (n'.entered w) := by
      rw [World.SameSlots, slots_entered, slots_entered]
    constructor
    · intro r slots
      have hc := evaluates_simulates hw.builtin args condition
      have hbody := evaluates_simulates hw.builtin args body
      exact course_literals_iff hstart hstep hc hbody hslots hslots.symm
        fun _ _ hz => hz.symm.trans
    · intro he r z
      have hc := simulates_self (g.Evaluates condition args)
      have hbody := simulates_self (g.Evaluates body args)
      have hiff := course_literals_iff (r := r) hstart hstep hc hbody (P := (· = z)) he he.symm
        fun _ _ hz => hz.symm.trans
      simpa only [exists_eq_right] using hiff

/-- A flag, a body that lowers it and comes to seven, and two loops while the flag is up. -/
def lowering : Graph where
  nodes := #[⟨.variable, [.bool true], ⟨"flag", "sample"⟩, .here⟩,
    ⟨.store, [.node ⟨0, "flag"⟩, .bool false], ⟨"lower", "sample"⟩, .here⟩,
    ⟨.block, [.node ⟨1, "lower"⟩, .int 7], ⟨"body", "sample"⟩, .here⟩,
    ⟨.forLoop, [.int 1, .node ⟨0, "flag"⟩, .int 2, .node ⟨2, "body"⟩], ⟨"for", "sample"⟩, .here⟩,
    ⟨.whileLoop, [.node ⟨0, "flag"⟩, .node ⟨2, "body"⟩], ⟨"while", "sample"⟩, .here⟩]

/-- The flag is up for one round, in the one loop as in the other. -/
theorem lowering_once :
    (∃ rounds, lowering.Course [] [.int 1] (.node ⟨0, "flag"⟩) [.node ⟨2, "body"⟩, .int 2]
      ⟨#[.bool true], #[]⟩ (.ok rounds) ⟨#[.bool false], #[]⟩ ∧ .int 7 = bodyValue rounds) ∧
    (∃ rounds, lowering.Course [] [] (.node ⟨0, "flag"⟩) [.node ⟨2, "body"⟩]
      ⟨#[.bool true], #[]⟩ (.ok rounds) ⟨#[.bool false], #[]⟩ ∧ .int 7 = bodyValue rounds) := by
  have hw : lowering.Wired ⟨#[.bool true], #[]⟩ := by
    refine ⟨by decide, ?_, by decide, fun i _ _ _ => ?_⟩
    · simp only [lowering, List.mem_toArray, List.forall_mem_cons]
      exact ⟨rfl, rfl, rfl, rfl, rfl, List.forall_mem_nil _⟩
    · exact below_slot (by simp [Value.Below]) i
  obtain ⟨hfor, hwhile, hsame⟩ := loop_law hw (List.forall_mem_nil _)
  have hf : lowering.Hosts ⟨3, "for"⟩ _ .forLoop _ := ⟨rfl, served_of_inline rfl, rfl, rfl⟩
  have hl : lowering.Hosts ⟨4, "while"⟩ _ .whileLoop _ := ⟨rfl, served_of_inline rfl, rfl, rfl⟩
  have he : lowering.Evaluates (.node ⟨3, "for"⟩) [] ⟨#[.bool true], #[]⟩ (.ok (.int 7))
      ⟨#[.bool false], #[]⟩ := ⟨30, rfl⟩
  have he' := ((hsame _ _ _ _ _ _ _ _ hf hl rfl rfl).2 rfl _ _).1 he
  exact ⟨((hfor _ _ _ _ _ _ hf).1 _ _).1 he, ((hwhile _ _ _ _ hl).1 _ _).1 he'⟩

end ArrayGraph
