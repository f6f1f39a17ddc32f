import ArrayGraph.Evaluation.Step
/-!
# Runs

`Job.ComesTo` is what some steps of a job come to, `Job.Runs` is the way of a job to
its end, and `Graph.Evaluates` is that of an operand from its launch on. Each form of
job that waits for others runs as they do: see `runs_waiting`, `runs_joined` and
`runs_placed`.

All of this is in the turns of the caller. Where nodes are on a pool, that is one schedule of
its threads, and says what may happen but not what must: for any schedule there are
`Job.Scheduled` and `Graph.Schedules`.
-/

namespace ArrayGraph

variable {g : Graph}

/-! ## Steps and runs -/

/-- The job stepped to its end in its caller's turns. -/
def Job.Runs (g : Graph) (j : Job) (w : World) (r : Outcome) (z : World) : Prop :=
  ∃ limit, j.run g limit w = some (r, z)

/-- The operand evaluated to the end in its caller's turns. A node on a pool may have others:
`Graph.Schedules`. -/
def Graph.Evaluates (g : Graph) (v : Value) (args : List Value) (w : World) (r : Outcome)
    (z : World) : Prop :=
  ∃ limit, g.evaluate limit v args w = some (r, z)

/-- What is left of a job after a step, run to its end. -/
def Progress.Runs (g : Graph) (p : Progress) (w : World) (r : Outcome) (z : World) : Prop :=
  match p with
  | .finished r' => r = r' ∧ z = w
  | .moved j | .suspended j => j.Runs g w r z

/-- Some steps of a job, all but the last of which only move it, come to `p`. -/
inductive Job.ComesTo (g : Graph) : Job → World → Progress → World → Prop
  | now {j w p w'} : j.step g w = (p, w') → ComesTo g j w p w'
  | later {j w j' w' p w''} : j.step g w = (.moved j', w') → ComesTo g j' w' p w'' →
      ComesTo g j w p w''

/-- Some steps of a job lead to another. -/
inductive Job.Steps (g : Graph) : Job → World → Job → World → Prop
  | refl {j w} : Steps g j w j w
  | moved {j w j' w' j'' w''} : j.step g w = (.moved j', w') → Steps g j' w' j'' w'' →
      Steps g j w j'' w''
  | suspended {j w j' w' j'' w''} : j.step g w = (.suspended j', w') → Steps g j' w' j'' w'' →
      Steps g j w j'' w''

/-- The job never lets the jobs beside it run before its end. -/
def Job.Quiet (g : Graph) (j : Job) (w : World) : Prop :=
  ∀ j' w', ¬ j.ComesTo g w (.suspended j') w'

theorem evaluates_iff {v : Value} {args : List Value} {w z : World} {r : Outcome} :
    g.Evaluates v args w r z ↔ (g.launch v args w).1.Runs g (g.launch v args w).2 r z := Iff.rfl

namespace Job

theorem run_succ {j : Job} {w w' : World} {p : Progress} (n : Nat) (h : j.step g w = (p, w')) :
    j.run g (n + 1) w = match p with
      | .finished r => some (r, w')
      | .moved j' | .suspended j' => j'.run g n w' := by
  simp only [run, h]
  cases p <;> rfl

theorem runs_step {j : Job} {w w' z : World} {p : Progress} {r : Outcome}
    (h : j.step g w = (p, w')) : j.Runs g w r z ↔ p.Runs g w' r z := by
  constructor
  · rintro ⟨n, hn⟩
    cases n with
    | zero => simp [run] at hn
    | succ n =>
      rw [run_succ n h] at hn
      cases p with
      | finished r' =>
        simp only [Option.some.injEq, Prod.mk.injEq] at hn
        exact ⟨hn.1.symm, hn.2.symm⟩
      | moved j' | suspended j' => exact ⟨n, hn⟩
  · intro hp
    cases p with
    | finished r' => obtain ⟨rfl, rfl⟩ := hp; exact ⟨1, run_succ 0 h⟩
    | moved j' | suspended j' => obtain ⟨n, hn⟩ := hp; exact ⟨n + 1, (run_succ n h).trans hn⟩

theorem runs_comesTo {j : Job} {w w' z : World} {p : Progress} {r : Outcome}
    (h : j.ComesTo g w p w') : j.Runs g w r z ↔ p.Runs g w' r z := by
  induction h with
  | now h => exact runs_step h
  | later h _ ih => exact (runs_step h).trans ih

/-- A node that begins runs what it does first. -/
theorem runs_begin {n : Node} {content : Value} {args : List Value} {w z : World} {r : Outcome} :
    (start n content args).Runs g w r z ↔
      (n.run g content args w).1.Runs g (n.run g content args w).2 r z := runs_step rfl

/-- What can be shown of a job at its last step, and of a job from what a step leaves
of it, can be shown of every job that runs to its end. -/
theorem Runs.rec_step {r : Outcome} {z : World} {P : Job → World → Prop}
    (last : ∀ j w, j.step g w = (.finished r, z) → P j w)
    (moved : ∀ j w j' w', j.step g w = (.moved j', w') → P j' w' → P j w)
    (suspended : ∀ j w j' w', j.step g w = (.suspended j', w') → P j' w' → P j w)
    {j : Job} {w : World} (h : j.Runs g w r z) : P j w := by
  obtain ⟨n, hn⟩ := h
  induction n generalizing j w with
  | zero => simp [run] at hn
  | succ n ih =>
    rcases hs : j.step g w with ⟨p, w'⟩
    rw [run_succ n hs] at hn
    cases p with
    | finished r' =>
      simp only [Option.some.injEq, Prod.mk.injEq] at hn
      obtain ⟨rfl, rfl⟩ := hn
      exact last j w hs
    | moved j' => exact moved j w j' w' hs (ih hn)
    | suspended j' => exact suspended j w j' w' hs (ih hn)

/-- A job runs to one end only. -/
theorem Runs.unique {j : Job} {w z z' : World} {r r' : Outcome} (h : j.Runs g w r z)
    (h' : j.Runs g w r' z') : r = r' ∧ z = z' := by
  revert h'
  refine h.rec_step (P := fun j w => j.Runs g w r' z' → r = r' ∧ z = z') ?_ ?_ ?_
  · intro j w hs h'
    obtain ⟨rfl, rfl⟩ := (runs_step hs).1 h'
    exact ⟨rfl, rfl⟩
  · intro j w j₁ w₁ hs ih h'
    exact ih ((runs_step hs).1 h')
  · intro j w j₁ w₁ hs ih h'
    exact ih ((runs_step hs).1 h')

theorem ComesTo.trans {j j' : Job} {w w' w'' : World} {p : Progress}
    (h : j.ComesTo g w (.moved j') w') (h' : j'.ComesTo g w' p w'') : j.ComesTo g w p w'' := by
  generalize hp : Progress.moved j' = q at h
  induction h with
  | now hs => subst hp; exact .later hs h'
  | later hs _ ih => exact .later hs (ih h' hp)

theorem Quiet.of_moved {j j' : Job} {w w' : World} (h : j.Quiet g w)
    (hs : j.step g w = (.moved j', w')) : j'.Quiet g w' :=
  fun j₁ w₁ h' => h j₁ w₁ (.later hs h')

theorem Quiet.comesTo {j : Job} {w z : World} {r : Outcome} (hq : j.Quiet g w)
    (h : j.Runs g w r z) : j.ComesTo g w (.finished r) z := by
  revert hq
  refine h.rec_step (P := fun j w => j.Quiet g w → j.ComesTo g w (.finished r) z) ?_ ?_ ?_
  · intro j w hs _
    exact .now hs
  · intro j w j₁ w₁ hs ih hq
    exact .later hs (ih (hq.of_moved hs))
  · intro j w j₁ w₁ hs _ hq
    exact absurd (.now hs) (hq j₁ w₁)

end Job

/-- Steps on the way of a job are counted among those to its end. -/
theorem run_of_comesTo {j : Job} {w z w₁ : World} {p : Progress} {r : Outcome} {n : Nat}
    (h : j.ComesTo g w p w₁) (hn : j.run g n w = some (r, z)) :
    match p with
    | .finished r' => r = r' ∧ z = w₁
    | .moved j' | .suspended j' => ∃ m, m < n ∧ j'.run g m w₁ = some (r, z) := by
  induction h generalizing n with
  | @now j w p w₁ hs =>
    cases n with
    | zero => simp [Job.run] at hn
    | succ n =>
      rw [Job.run_succ n hs] at hn
      cases p with
      | finished r' =>
        simp only [Option.some.injEq, Prod.mk.injEq] at hn
        exact ⟨hn.1.symm, hn.2.symm⟩
      | moved j' | suspended j' => exact ⟨n, Nat.lt_succ_self n, hn⟩
  | @later j w j' w' p w₁ hs _ ih =>
    cases n with
    | zero => simp [Job.run] at hn
    | succ n =>
      rw [Job.run_succ n hs] at hn
      have hp := ih hn
      cases p with
      | finished r' => exact hp
      | moved j' | suspended j' =>
        obtain ⟨m, hm, hrun⟩ := hp
        exact ⟨m, Nat.lt_succ_of_lt hm, hrun⟩

/-! ## One operand -/

/-- What becomes of a job that waits for another when that one has stepped. -/
def Frame.after (g : Graph) (k : Frame) (p : Progress) (w : World) : Progress × World :=
  match p with
  | .finished (.ok v) => (.moved (k.resume g v w).1, (k.resume g v w).2)
  | .finished (.error h) => (.finished (.error h), w)
  | .moved j => (.moved (.waiting k j), w)
  | .suspended j => (.suspended (.waiting k j), w)

theorem step_waiting (k : Frame) (j : Job) (w : World) :
    (Job.waiting k j).step g w = k.after g (j.step g w).1 (j.step g w).2 := by
  rcases h : j.step g w with ⟨p, w'⟩
  rcases p with (_ | _) | _ | _ <;> simp only [Job.step, h, Frame.after]

theorem comesTo_waiting {k : Frame} {j : Job} {w w' : World} {p : Progress}
    (h : j.ComesTo g w p w') :
    (Job.waiting k j).ComesTo g w (k.after g p w').1 (k.after g p w').2 := by
  induction h with
  | now hs => exact .now (by rw [step_waiting, hs])
  | later hs _ ih => exact .later (by rw [step_waiting, hs]; rfl) ih

/-- A job that waits runs the one that it waits for, then what that leads to. -/
theorem runs_waiting {k : Frame} {j : Job} {w z : World} {r : Outcome} :
    (Job.waiting k j).Runs g w r z ↔ ∃ r₁ w₁, j.Runs g w r₁ w₁ ∧
      (k.after g (.finished r₁) w₁).1.Runs g (k.after g (.finished r₁) w₁).2 r z := by
  constructor
  · rintro ⟨n, hn⟩
    -- the steps of the whole are counted, so that those of `j` are among them
    induction n generalizing j w with
    | zero => simp [Job.run] at hn
    | succ n ih =>
      rcases hs : j.step g w with ⟨p, w'⟩
      have hw := step_waiting (g := g) k j w
      rw [hs] at hw
      cases p with
      | finished r₁ =>
        exact ⟨r₁, w', (Job.runs_step hs).2 ⟨rfl, rfl⟩, (Job.runs_step hw).1 ⟨n + 1, hn⟩⟩
      | moved j' | suspended j' =>
        obtain ⟨r₁, w₁, h₁, h₂⟩ := ih ((Job.run_succ n hw).symm.trans hn)
        exact ⟨r₁, w₁, (Job.runs_step hs).2 h₁, h₂⟩
  · rintro ⟨r₁, w₁, h₁, h₂⟩
    refine h₁.rec_step (P := fun j w => (Job.waiting k j).Runs g w r z) ?_ ?_ ?_
    · intro j w hs
      exact (Job.runs_step (step_waiting k j w)).2 (by rw [hs]; exact h₂)
    · intro j w j' w' hs ih
      exact (Job.runs_step (step_waiting k j w)).2 (by rw [hs]; exact ih)
    · intro j w j' w' hs ih
      exact (Job.runs_step (step_waiting k j w)).2 (by rw [hs]; exact ih)

theorem runs_await {k : Frame} {v : Value} {args : List Value} {w z : World} {r : Outcome} :
    (g.await k v args w).1.Runs g (g.await k v args w).2 r z ↔
      ∃ r₁ w₁, g.Evaluates v args w r₁ w₁ ∧
        (k.after g (.finished r₁) w₁).1.Runs g (k.after g (.finished r₁) w₁).2 r z :=
  runs_waiting

/-! ## Several operands -/

def Join.after (k : Join) (turned coming : List Job) : Progress → Progress
  | .finished (.ok v) => k.turn (.done (.ok v) :: turned) coming
  | .finished (.error h) => .finished (.error h)
  | .moved j => .moved (.joined k turned j coming)
  | .suspended j => k.turn (j :: turned) coming

theorem step_joined (k : Join) (turned : List Job) (j : Job) (coming : List Job) (w : World) :
    (Job.joined k turned j coming).step g w =
      (k.after turned coming (j.step g w).1, (j.step g w).2) := by
  rcases h : j.step g w with ⟨p, w'⟩
  rcases p with (_ | _) | _ | _ <;> simp only [Job.step, h, Join.after]

theorem comesTo_joined {k : Join} {turned : List Job} {j : Job} {coming : List Job} {w w' : World}
    {p : Progress} (h : j.ComesTo g w p w') :
    (Job.joined k turned j coming).ComesTo g w (k.after turned coming p) w' := by
  induction h with
  | now hs => exact .now (by rw [step_joined, hs])
  | later hs _ ih => exact .later (by rw [step_joined, hs]; rfl) ih

/-- A join whose current operand never lets others run runs that operand, then goes on
with the next. -/
theorem runs_joined {k : Join} {turned : List Job} {j : Job} {coming : List Job} {w z : World}
    {r : Outcome} (hq : j.Quiet g w) :
    (Job.joined k turned j coming).Runs g w r z ↔
      ∃ r₁ w₁, j.Runs g w r₁ w₁ ∧ (k.after turned coming (.finished r₁)).Runs g w₁ r z := by
  constructor
  · rintro ⟨n, hn⟩
    induction n generalizing j w with
    | zero => simp [Job.run] at hn
    | succ n ih =>
      rcases hs : j.step g w with ⟨p, w'⟩
      have hw := step_joined (g := g) k turned j coming w
      rw [hs] at hw
      cases p with
      | finished r₁ =>
        exact ⟨r₁, w', (Job.runs_step hs).2 ⟨rfl, rfl⟩, (Job.runs_step hw).1 ⟨n + 1, hn⟩⟩
      | moved j' =>
        obtain ⟨r₁, w₁, h₁, h₂⟩ := ih (hq.of_moved hs) ((Job.run_succ n hw).symm.trans hn)
        exact ⟨r₁, w₁, (Job.runs_step hs).2 h₁, h₂⟩
      | suspended j' => exact absurd (.now hs) (hq j' w')
  · rintro ⟨r₁, w₁, h₁, h₂⟩
    exact (Job.runs_comesTo (comesTo_joined (hq.comesTo h₁))).2 h₂

/-- The jobs of operands whose values are known. -/
def Job.finished (vs : List Value) : List Job := vs.map fun v => .done (.ok v)

theorem finished_snoc (vs : List Value) (v : Value) :
    Job.done (.ok v) :: (Job.finished vs).reverse = (Job.finished (vs ++ [v])).reverse := by
  simp [Job.finished]

theorem value?_eq_some {j : Job} {v : Value} (h : j.value? = some v) : j = .done (.ok v) := by
  unfold Job.value? at h
  split at h
  · cases h; rfl
  · cases h

theorem mapM_value_finished (vs : List Value) : (Job.finished vs).mapM Job.value? = some vs := by
  induction vs with
  | nil => rfl
  | cons v vs ih =>
    have ih' : (List.map (fun v => Job.done (.ok v)) vs).mapM Job.value? = some vs := ih
    simp [Job.finished, List.mapM_cons, Job.value?, ih']

theorem finished_or_not (jobs : List Job) :
    (∃ vs, jobs = Job.finished vs) ∨
      (jobs.mapM Job.value? = none ∧ ∃ j ∈ jobs, j.value? = none) := by
  induction jobs with
  | nil => exact .inl ⟨[], rfl⟩
  | cons j js ih =>
    cases hj : j.value? with
    | none => exact .inr ⟨by simp [List.mapM_cons, hj], j, List.mem_cons_self, hj⟩
    | some v =>
      rcases ih with ⟨vs, rfl⟩ | ⟨hn, j', hj', hv⟩
      · exact .inl ⟨v :: vs, by rw [value?_eq_some hj]; rfl⟩
      · exact .inr ⟨by simp [List.mapM_cons, hj, hn], j', List.mem_cons_of_mem _ hj', hv⟩

theorem turn_finished (k : Join) (vs : List Value) :
    k.turn (Job.finished vs).reverse [] = .finished (k.finish vs) := by
  simp only [Join.turn, List.reverse_reverse, mapM_value_finished]

/-- A join of these jobs, none of which has had its turn. -/
def Join.start (k : Join) : List Job → Job
  | [] => .done (k.finish [])
  | j :: js => .joined k [] j js

theorem join_eq (g : Graph) (k : Join) (vs args : List Value) (w : World) :
    g.join k vs args w = (k.start (g.launchAll args vs w).1, (g.launchAll args vs w).2) := by
  unfold Graph.join
  rcases g.launchAll args vs w with ⟨_ | ⟨j, js⟩, w'⟩ <;> rfl

/-- A join is suspended when all operands have had their turn and one has no value. -/
theorem turn_unfinished (k : Join) {jobs : List Job} (h : jobs.mapM Job.value? = none) :
    k.turn jobs.reverse [] = .suspended (k.start jobs) := by
  simp only [Join.turn, List.reverse_reverse, h]
  cases jobs with
  | nil => cases h
  | cons j js => rfl

/-! ## Localities -/

/-- The outcome of a job as the caller of its locality learns of it. -/
def Outcome.reported (id : LocalityId) (site : Site) : Outcome → Outcome
  | .error .panic => .fail site (.incomplete id)
  | r => r

def Progress.reported (id : LocalityId) (site : Site) : Progress → Progress
  | .finished r => .finished (r.reported id site)
  | .moved j => .moved (.placed id site j)
  | .suspended j => .suspended (.placed id site j)

theorem step_placed (id : LocalityId) (site : Site) (j : Job) (w : World) :
    (Job.placed id site j).step g w = ((j.step g w).1.reported id site, (j.step g w).2) := by
  rcases h : j.step g w with ⟨p, w'⟩
  rcases p with ((_ | _) | _) | _ | _ <;>
    simp only [Job.step, h, Progress.reported, Outcome.reported]

theorem comesTo_placed {id : LocalityId} {site : Site} {j : Job} {w w' : World} {p : Progress}
    (h : j.ComesTo g w p w') : (Job.placed id site j).ComesTo g w (p.reported id site) w' := by
  induction h with
  | now hs => exact .now (by rw [step_placed, hs])
  | later hs _ ih => exact .later (by rw [step_placed, hs]; rfl) ih

theorem runs_placed {id : LocalityId} {site : Site} {j : Job} {w z : World} {r : Outcome}
    (h : j.Runs g w r z) : (Job.placed id site j).Runs g w (r.reported id site) z := by
  refine h.rec_step
    (P := fun j w => (Job.placed id site j).Runs g w (r.reported id site) z) ?_ ?_ ?_
  · intro j w hs
    exact (Job.runs_step (step_placed id site j w)).2 (by rw [hs]; exact ⟨rfl, rfl⟩)
  · intro j w j' w' hs ih
    exact (Job.runs_step (step_placed id site j w)).2 (by rw [hs]; exact ih)
  · intro j w j' w' hs ih
    exact (Job.runs_step (step_placed id site j w)).2 (by rw [hs]; exact ih)

/-- A placed job runs to what its locality reports of the end of the job. -/
theorem runs_placed_iff {id : LocalityId} {site : Site} {j : Job} {w z : World} {r : Outcome} :
    (Job.placed id site j).Runs g w r z ↔ ∃ r₁, j.Runs g w r₁ z ∧ r = r₁.reported id site := by
  constructor
  · rintro ⟨n, hn⟩
    induction n generalizing j w with
    | zero => simp [Job.run] at hn
    | succ n ih =>
      rcases hs : j.step g w with ⟨p, w'⟩
      have hw := step_placed (g := g) id site j w
      rw [hs] at hw
      cases p with
      | finished r₁ =>
        obtain ⟨rfl, rfl⟩ := (Job.runs_step hw).1 ⟨n + 1, hn⟩
        exact ⟨r₁, (Job.runs_step hs).2 ⟨rfl, rfl⟩, rfl⟩
      | moved j' | suspended j' =>
        obtain ⟨r₁, h₁, h₂⟩ := ih ((Job.run_succ n hw).symm.trans hn)
        exact ⟨r₁, (Job.runs_step hs).2 h₁, h₂⟩
  · rintro ⟨r₁, h₁, rfl⟩
    exact runs_placed h₁

end ArrayGraph
