import ArrayGraph.Proofs.Evaluation.Scope
/-!
# States that agree

A job reads the slots of the nodes in its scope and no others. So it takes the same
steps on two states whose slots agree there, and the states that it leaves agree again:
`step_agree` says so of one step, and `run_agree` of a run.
-/

namespace ArrayGraph

variable {g : Graph} {S : Scope} {u w : World}

/-- The slots of the scope's nodes hold the same. The log may differ. -/
structure World.Agree (S : Scope) (u w : World) : Prop where
  size : u.slots.size = w.slots.size
  slot : ∀ i, S.node i → u.slot i = w.slot i

namespace World

theorem agree_of_slots (h : u.slots = w.slots) : u.Agree S w :=
  ⟨by rw [h], fun i _ => by simp only [slot, h]⟩

theorem Agree.trans {v : World} (h : u.Agree S v) (h' : v.Agree S w) : u.Agree S w :=
  ⟨h.size.trans h'.size, fun i hi => (h.slot i hi).trans (h'.slot i hi)⟩

theorem Agree.symm (h : u.Agree S w) : w.Agree S u :=
  ⟨h.size.symm, fun i hi => (h.slot i hi).symm⟩

theorem Agree.congr {u' w' : World} (h : u.Agree S w) (hu : u'.slots = u.slots)
    (hw : w'.slots = w.slots) : u'.Agree S w' :=
  (agree_of_slots hu).trans (h.trans (agree_of_slots hw.symm))

theorem Agree.setSlot (h : u.Agree S w) (i : Nat) (v : Value) :
    (u.setSlot i v).Agree S (w.setSlot i v) := by
  refine ⟨by simpa [World.setSlot] using h.size, fun k hk => ?_⟩
  by_cases hik : i = k
  · subst hik
    -- a slot that is not there stays as it is in both
    by_cases hb : i < u.slots.size
    · have hb' : i < w.slots.size := by rw [← h.size]; exact hb
      rw [slot_setSlot_self u i v hb, slot_setSlot_self w i v hb']
    · have hb' : ¬ i < w.slots.size := by rw [← h.size]; exact hb
      simp [World.slot, World.setSlot, hb, hb']
  · rw [slot_setSlot_of_ne u v hik, slot_setSlot_of_ne w v hik]
    exact h.slot k hk

end World

theorem Scope.Closed.agree (hc : S.Closed g u) (h : u.Agree S w) : S.Closed g w := by
  intro i n hi hn
  obtain ⟨hw, hs⟩ := hc i n hi hn
  refine ⟨hw, fun hp => ?_⟩
  rw [← h.slot i hi]
  exact hs hp

/-! ## What happens at once -/

theorem dispatch_job (l : Locality) (site : Site) (j : Job) (u w : World) :
    (l.dispatch site j u).1 = (l.dispatch site j w).1 := by
  unfold Locality.dispatch
  split
  · rfl
  · rfl
  · split <;> rfl

theorem launch_agree {v : Value} {args : List Value} (hv : v.Within S) (h : u.Agree S w) :
    (g.launch v args u).1 = (g.launch v args w).1 := by
  cases v with
  | node t =>
    simp only [Graph.launch, h.slot t.index (within_node.1 hv)]
    split
    · exact dispatch_job ..
    · rfl
  | _ => rfl

theorem launch_of_slots {v : Value} {args : List Value} (h : u.slots = w.slots) :
    (g.launch v args u).1 = (g.launch v args w).1 :=
  launch_agree (within_all v) (World.agree_of_slots h)

/-- To launch one operand changes no slot, so all are launched as if alone. -/
theorem launchAll_jobs {args : List Value} (h : u.slots = w.slots) (vs : List Value) :
    (g.launchAll args vs u).1 = vs.map fun v => (g.launch v args w).1 := by
  induction vs generalizing u with
  | nil => rfl
  | cons v vs ih =>
    have h' : (g.launch v args u).2.slots = w.slots := (launch_slots ..).trans h
    simp only [Graph.launchAll, List.map_cons, launch_of_slots h, ih h']

theorem launchAll_agree {vs args : List Value} (hv : WithinAll S vs) (h : u.Agree S w) :
    (g.launchAll args vs u).1 = (g.launchAll args vs w).1 := by
  rw [launchAll_jobs rfl, launchAll_jobs rfl]
  exact List.map_congr_left fun v hm => launch_agree (hv v hm) h

/-- An action does the same on states that agree. -/
theorem Action.agree {f : World → Job × World} (hf : Action g S f) (h : u.Agree S w) :
    (f u).1 = (f w).1 ∧ (f u).2.Agree S (f w).2 := by
  cases hf with
  | job _ _ => exact ⟨rfl, h⟩
  | launch hv _ => exact ⟨launch_agree hv h, h.congr (launch_slots ..) (launch_slots ..)⟩
  | @await k v args _ hv _ =>
    exact ⟨congrArg (Job.waiting k) (launch_agree hv h),
      h.congr (launch_slots ..) (launch_slots ..)⟩
  | @join k vs args hv _ =>
    refine ⟨?_, h.congr (join_slots ..) (join_slots ..)⟩
    rw [join_eq, join_eq, launchAll_agree hv h]
  | write _ _ => exact ⟨rfl, h.setSlot _ _⟩

/-! ## Steps and runs -/

/-- A job takes the same step on states that agree. -/
theorem step_agree {j : Job} (hj : j.Within S) (hc : S.Closed g u) (h : u.Agree S w) :
    (j.step g u).1 = (j.step g w).1 ∧ (j.step g u).2.Agree S (j.step g w).2 := by
  induction hj with
  | done _ => exact ⟨rfl, h⟩
  | start hn hcon ha =>
    obtain ⟨hp, hw⟩ := (run_action hn hcon ha).agree h
    exact ⟨congrArg Progress.moved hp, hw⟩
  | @round l last hl hp =>
    have hk : (Frame.loopCondition l last).Within S := ⟨hl, hp⟩
    obtain ⟨hj, hw⟩ := (Action.await (g := g) hk hl.condition hl.args).agree h
    exact ⟨congrArg Progress.moved hj, hw⟩
  | rest _ _ => exact ⟨rfl, h⟩
  | @waiting k j hk hj ih =>
    rw [step_waiting, step_waiting]
    have hin := step_within hj hc
    obtain ⟨hp, hw⟩ := ih
    rw [← hp]
    generalize (j.step g u).1 = p at hin hp ⊢
    cases p with
    | finished r =>
      cases r with
      | error e => exact ⟨rfl, hw⟩
      | ok v =>
        -- what the frame does with the value is an action again
        obtain ⟨hj', hw'⟩ := (resume_action (g := g) hk hin.1).agree hw
        exact ⟨congrArg Progress.moved hj', hw'⟩
    | moved j' => exact ⟨rfl, hw⟩
    | suspended j' => exact ⟨rfl, hw⟩
  | @joined k turned j coming _ _ _ _ _ ih _ =>
    rw [step_joined, step_joined]
    exact ⟨congrArg (k.after turned coming) ih.1, ih.2⟩
  | @placed id site j _ ih =>
    rw [step_placed, step_placed]
    exact ⟨congrArg (Progress.reported id site) ih.1, ih.2⟩

/-- A job runs to the same end on states that agree, in as many steps. -/
theorem run_agree {j : Job} {limit : Nat} {r : Outcome} {z : World} (hj : j.Within S)
    (hc : S.Closed g u) (h : u.Agree S w) (hr : j.run g limit u = some (r, z)) :
    ∃ z', j.run g limit w = some (r, z') ∧ z.Agree S z' := by
  induction limit generalizing j u w with
  | zero => simp [Job.run] at hr
  | succ n ih =>
    have hin := step_within hj hc
    have hag := step_agree hj hc h
    rcases hu : j.step g u with ⟨p, u'⟩
    rcases hw : j.step g w with ⟨p', w'⟩
    rw [hu] at hin
    rw [hu, hw] at hag
    obtain ⟨rfl, hag⟩ := hag
    rw [Job.run_succ n hu] at hr
    rw [Job.run_succ n hw]
    cases p with
    | finished r' =>
      simp only [Option.some.injEq, Prod.mk.injEq] at hr
      obtain ⟨rfl, rfl⟩ := hr
      exact ⟨_, rfl, hag⟩
    | moved j' => exact ih hin.1 (hc.kept hin.2) hag hr
    | suspended j' => exact ih hin.1.2 (hc.kept hin.2) hag hr

theorem evaluates_agree {v : Value} {args : List Value} {r : Outcome} {z : World}
    (hc : S.Closed g u) (hv : v.Within S) (ha : S.Given args) (h : u.Agree S w)
    (he : g.Evaluates v args u r z) : ∃ z', g.Evaluates v args w r z' ∧ z.Agree S z' := by
  obtain ⟨limit, hr⟩ := he
  have hl : (g.launch v args u).2.Agree S (g.launch v args w).2 :=
    h.congr (launch_slots ..) (launch_slots ..)
  have hc' : S.Closed g (g.launch v args u).2 :=
    hc.agree (World.agree_of_slots (launch_slots ..).symm)
  obtain ⟨z', hr', hag⟩ := run_agree (launch_within hc hv ha) hc' hl hr
  rw [launch_agree hv h] at hr'
  exact ⟨z', ⟨limit, hr'⟩, hag⟩

end ArrayGraph
