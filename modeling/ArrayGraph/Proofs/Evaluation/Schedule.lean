import ArrayGraph.Proofs.Evaluation.Crew
/-!
# Schedules

A job that is placed on a pool is spawned when it is made: a thread of the pool runs it,
while the thread that made it goes on with other jobs or has to wait. `Job.Acts` is what a
job may do in its turn, `Job.Aside` what threads may do for parts of it in the meantime, and
`Job.Scheduled` what it may come to under some schedule of the threads. The jobs beside one
that fails are let go of, and what they still do is not followed.

`Job.step` follows one of the schedules, in which every placed job is run by the one that
waits for it, and in its turns. A job no part of which is placed has no other:
`scheduled_near`.
-/

namespace ArrayGraph

variable {g : Graph} {S : Scope} {w w' z : World}

/-! ## Schedules -/

/-- What a job may do in its turn. The thread of a placed job may have to wait. -/
inductive Job.Acts (g : Graph) : Job → World → Progress → World → Prop
  | step {j w} : j.Single → Acts g j w (j.step g w).1 (j.step g w).2
  | waiting {k j w p w'} : Acts g j w p w' →
      Acts g (.waiting k j) w (k.after g p w').1 (k.after g p w').2
  | joined {k turned j coming w p w'} : Acts g j w p w' →
      Acts g (.joined k turned j coming) w (k.after turned coming p) w'
  | placed {id site j w p w'} : Acts g j w p w' →
      Acts g (.placed id site j) w (p.reported id site) w'
  | paused {id site j w} : Acts g (.placed id site j) w (.suspended (.placed id site j)) w

/-- What may be done for a job out of its turn: the thread of a placed part goes on. What
that part has come to is noticed in its turn. -/
inductive Job.Aside (g : Graph) : Job → World → Job → World → Prop
  | spawned {id site j w p w'} : j.Acts g w p w' →
      Aside g (.placed id site j) w (.placed id site p.rest) w'
  | within {id site j w j' w'} : Aside g j w j' w' →
      Aside g (.placed id site j) w (.placed id site j') w'
  | waiting {k j w j' w'} : Aside g j w j' w' → Aside g (.waiting k j) w (.waiting k j') w'
  | turned {k left t t' right j coming w w'} : Aside g t w t' w' →
      Aside g (.joined k (left ++ t :: right) j coming) w
        (.joined k (left ++ t' :: right) j coming) w'
  | current {k turned j j' coming w w'} : Aside g j w j' w' →
      Aside g (.joined k turned j coming) w (.joined k turned j' coming) w'
  | coming {k turned j left c c' right w w'} : Aside g c w c' w' →
      Aside g (.joined k turned j (left ++ c :: right)) w
        (.joined k turned j (left ++ c' :: right)) w'

/-- What is left of a job after something that is done for it, in its turn or not. -/
inductive Job.Goes (g : Graph) : Job → World → Job → World → Prop
  | turn {j w p w'} : j.Acts g w p w' → Goes g j w p.rest w'
  | aside {j w j' w'} : j.Aside g w j' w' → Goes g j w j' w'

/-- Some schedule leads from a job to what is left of it. -/
inductive Job.Scheduled (g : Graph) : Job → World → Job → World → Prop
  | refl {j w} : Scheduled g j w j w
  | next {j w j' w' j'' w''} : j.Goes g w j' w' → Scheduled g j' w' j'' w'' →
      Scheduled g j w j'' w''

theorem Job.Scheduled.trans {j j' j'' : Job} {w'' : World} (h : j.Scheduled g w j' w')
    (h' : j'.Scheduled g w' j'' w'') : j.Scheduled g w j'' w'' := by
  induction h with
  | refl => exact h'
  | next hg _ ih => exact .next hg (ih h')

/-- A step is one of the things that a job may do. -/
theorem acts_step (j : Job) (w : World) : j.Acts g w (j.step g w).1 (j.step g w).2 := by
  match j with
  | .done _ | .start .. | .round .. | .rest .. => exact .step trivial
  | .waiting k j =>
    rw [step_waiting]
    exact .waiting (acts_step j w)
  | .joined k turned j coming =>
    rw [step_joined]
    exact .joined (acts_step j w)
  | .placed id site j =>
    rw [step_placed]
    exact .placed (acts_step j w)

/-- The caller's own turns are a schedule. -/
theorem scheduled_of_runs {j : Job} {r : Outcome} (h : j.Runs g w r z) :
    j.Scheduled g w (.done r) z := by
  have hnext : ∀ {j : Job} {w w' : World} {p : Progress}, j.step g w = (p, w') →
      p.rest.Scheduled g w' (.done r) z → j.Scheduled g w (.done r) z := by
    intro j w w' p hs hp
    have ha := acts_step (g := g) j w
    rw [hs] at ha
    exact .next (.turn ha) hp
  refine h.rec_step (P := fun j w => j.Scheduled g w (.done r) z) ?_ ?_ ?_
  · exact fun j w hs => hnext hs .refl
  · exact fun j w j' w' hs ih => hnext hs ih
  · exact fun j w j' w' hs ih => hnext hs ih

/-- Nothing more is done for a job that is done. -/
theorem scheduled_done {r : Outcome} {j : Job} (h : (Job.done r).Scheduled g w j z) :
    j = .done r ∧ z = w := by
  generalize hd : Job.done r = d at h
  induction h with
  | refl => exact ⟨rfl, rfl⟩
  | next hg _ ih =>
    subst hd
    cases hg with
    | turn ha =>
      cases ha
      exact ih rfl
    | aside ha => cases ha

/-- In a join of a team, what is done out of turn is done for one member. -/
theorem over_aside {k : Join} {team : List Member} {j j' : Job} (ho : k.Over team j)
    (h : j.Aside g w j' w') : ∃ before s after t, team = before ++ s :: after ∧
      s.job.Aside g w t w' ∧ k.Over (before ++ ⟨s.scope, t⟩ :: after) j' := by
  cases h with
  | spawned | within | waiting => cases ho
  | turned ha =>
    obtain ⟨before, s, after, rfl, rfl, hover⟩ := over_turned ho
    exact ⟨before, s, after, _, rfl, ha, hover _⟩
  | current ha =>
    obtain ⟨before, s, after, rfl, rfl, hover⟩ := over_current ho
    exact ⟨before, s, after, _, rfl, ha, hover _⟩
  | coming ha =>
    obtain ⟨before, s, after, rfl, rfl, hover⟩ := over_coming ho
    exact ⟨before, s, after, _, rfl, ha, hover _⟩

/-! ## A node and a locality -/

/-- A node that begins is scheduled as what it does first. -/
theorem scheduled_begin {n : Node} {content : Value} {args : List Value} {r : Outcome} :
    (Job.start n content args).Scheduled g w (.done r) z ↔
      (n.run g content args w).1.Scheduled g (n.run g content args w).2 (.done r) z := by
  constructor
  · intro h
    cases h with
    | next hg hs =>
      cases hg with
      | turn ha =>
        cases ha
        exact hs
      | aside ha => cases ha
  · exact fun h => .next (.turn (acts_step _ _)) h

/-- A placed job comes to what its locality reports of an end that the job may come to. -/
theorem scheduled_placed {id : LocalityId} {site : Site} {j : Job} {r : Outcome} :
    (Job.placed id site j).Scheduled g w (.done r) z ↔
      ∃ r₁, j.Scheduled g w (.done r₁) z ∧ r = r₁.reported id site := by
  constructor
  · intro h
    generalize hp : Job.placed id site j = i at h
    generalize hd : Job.done r = d at h
    induction h generalizing j with
    | refl =>
      subst hp
      cases hd
    | next hg hs ih =>
      subst hp hd
      cases hg with
      | turn ha =>
        cases ha with
        | step hsingle => exact hsingle.elim
        | @placed _ _ _ _ p _ ha =>
          cases p with
          | finished r₁ =>
            obtain ⟨hr, rfl⟩ := scheduled_done hs
            cases hr
            exact ⟨r₁, .next (.turn ha) .refl, rfl⟩
          | moved j₁ | suspended j₁ =>
            obtain ⟨r₁, hj, hr⟩ := ih rfl rfl
            exact ⟨r₁, .next (.turn ha) hj, hr⟩
        | paused => exact ih rfl rfl
      | aside ha =>
        cases ha with
        | spawned ha =>
          obtain ⟨r₁, hj, hr⟩ := ih rfl rfl
          exact ⟨r₁, .next (.turn ha) hj, hr⟩
        | within ha =>
          obtain ⟨r₁, hj, hr⟩ := ih rfl rfl
          exact ⟨r₁, .next (.aside ha) hj, hr⟩
  · rintro ⟨r₁, h, rfl⟩
    generalize hd : Job.done r₁ = d at h
    induction h with
    | refl =>
      subst hd
      exact .next (.turn (acts_step (.placed id site (.done r₁)) _))
        (by rw [step_placed]; exact .refl)
    | next hg _ ih =>
      cases hg with
      | turn ha => exact .next (.aside (.spawned ha)) (ih hd)
      | aside ha => exact .next (.aside (.within ha)) (ih hd)

/-! ## Scopes -/

theorem acts_within {j : Job} {p : Progress} (h : j.Acts g w p w') (hj : j.Within S)
    (hl : S.loops) (hc : S.Closed g w) : p.Within S ∧ w.Kept S w' := by
  induction h with
  | step _ => exact step_within hj hc
  | waiting _ ih =>
    cases hj with
    | waiting hk hj =>
      obtain ⟨hp, hw⟩ := ih hj hc
      obtain ⟨hp', hw'⟩ := frame_after_within hk hp (hc.kept hw)
      exact ⟨hp', hw.trans hw'⟩
  | joined _ ih =>
    cases hj with
    | joined ht htl hj hcom =>
      obtain ⟨hp, hw⟩ := ih hj hc
      exact ⟨join_after_within ht htl hcom hp, hw⟩
  | placed _ ih =>
    cases hj with
    | placed hj =>
      obtain ⟨hp, hw⟩ := ih hj hc
      exact ⟨reported_within hp, hw⟩
  | paused => exact ⟨⟨hl, hj⟩, .refl _⟩

theorem rest_within {p : Progress} (h : p.Within S) : p.rest.Within S := by
  cases p with
  | finished r => exact .done h
  | moved j => exact h
  | suspended j => exact h.2

theorem aside_within {j j' : Job} (h : j.Aside g w j' w') (hj : j.Within S) (hl : S.loops)
    (hc : S.Closed g w) : j'.Within S ∧ w.Kept S w' := by
  induction h with
  | spawned ha =>
    cases hj with
    | placed hj =>
      obtain ⟨hp, hw⟩ := acts_within ha hj hl hc
      exact ⟨.placed (rest_within hp), hw⟩
  | within _ ih =>
    cases hj with
    | placed hj =>
      obtain ⟨hj', hw⟩ := ih hj hc
      exact ⟨.placed hj', hw⟩
  | waiting _ ih =>
    cases hj with
    | waiting hk hj =>
      obtain ⟨hj', hw⟩ := ih hj hc
      exact ⟨.waiting hk hj', hw⟩
  | turned _ ih =>
    cases hj with
    | joined ht _ hj hcom =>
      obtain ⟨ht', hw⟩ := ih (ht _ (by simp)) hc
      exact ⟨.joined (forall_replaced ht ht') (fun _ _ _ => hl) hj hcom, hw⟩
  | current _ ih =>
    cases hj with
    | joined ht htl hj hcom =>
      obtain ⟨hj', hw⟩ := ih hj hc
      exact ⟨.joined ht htl hj' hcom, hw⟩
  | coming _ ih =>
    cases hj with
    | joined ht htl hj hcom =>
      obtain ⟨hc', hw⟩ := ih (hcom _ (by simp)) hc
      exact ⟨.joined ht htl hj (forall_replaced hcom hc'), hw⟩

theorem goes_within {j j' : Job} (h : j.Goes g w j' w') (hj : j.Within S) (hl : S.loops)
    (hc : S.Closed g w) : j'.Within S ∧ w.Kept S w' := by
  cases h with
  | turn ha => exact (acts_within ha hj hl hc).imp rest_within id
  | aside ha => exact aside_within ha hj hl hc

theorem scheduled_within {j j' : Job} (h : j.Scheduled g w j' w') (hj : j.Within S)
    (hl : S.loops) (hc : S.Closed g w) : j'.Within S ∧ w.Kept S w' := by
  induction h with
  | refl => exact ⟨hj, .refl _⟩
  | next hg _ ih =>
    obtain ⟨hj₁, hk⟩ := goes_within hg hj hl hc
    obtain ⟨hj', hk'⟩ := ih hj₁ (hc.kept hk)
    exact ⟨hj', hk.trans hk'⟩

/-! ## Jobs of one thread -/

/-- No part of the job is placed. -/
inductive Job.Near : Job → Prop
  | single {j : Job} : j.Single → Near j
  | waiting {k j} : Near j → Near (.waiting k j)
  | joined {k turned j coming} : (∀ t ∈ turned, Near t) → Near j → (∀ c ∈ coming, Near c) →
      Near (.joined k turned j coming)

/-- The jobs of the scope's nodes are not placed. -/
def Scope.Near (g : Graph) (S : Scope) : Prop :=
  ∀ i n, S.node i → g.nodes[i]? = some n → n.locality.Near

theorem near_of_nodes (h : ∀ n ∈ g.nodes, n.locality.isInline = true) : S.Near g :=
  fun _ n _ hn => near_of_inline (h n (Array.mem_of_getElem? hn))

theorem near_done (r : Outcome) : (Job.done r).Near := .single trivial

theorem start_near (k : Join) {jobs : List Job} (h : ∀ j ∈ jobs, j.Near) :
    (k.start jobs).Near := by
  cases jobs with
  | nil => exact near_done _
  | cons j js =>
    rw [List.forall_mem_cons] at h
    exact .joined (List.forall_mem_nil _) h.1 h.2

theorem dispatch_near {l : Locality} {site : Site} {j : Job} (hl : l.Near) (hj : j.Near)
    (w : World) : (l.dispatch site j w).1.Near := by
  unfold Locality.dispatch
  split
  · exact hj
  · exact hj
  · rename_i size name ht
    exact absurd ht (hl size name)

theorem launch_near (hS : S.Near g) {v : Value} (hv : v.Within S) (args : List Value) (w : World) :
    (g.launch v args w).1.Near := by
  cases v with
  | node h =>
    simp only [Graph.launch]
    split
    · rename_i n hn
      have hstart : (Job.start n (w.slot h.index) args).Near := .single trivial
      exact dispatch_near (hS h.index n (within_node.1 hv) hn) hstart w
    · exact near_done _
  | _ => exact near_done _

theorem Action.near {f : World → Job × World} (h : Action g S f) (hS : S.Near g) (w : World) :
    (f w).1.Near := by
  cases h with
  | job _ hj => exact .single hj
  | launch hv _ => exact launch_near hS hv _ w
  | await _ hv _ => exact .waiting (launch_near hS hv _ w)
  | @join k vs args hv _ =>
    rw [join_eq, launchAll_jobs rfl]
    exact start_near k (List.forall_mem_map.2 fun v hm => launch_near hS (hv v hm) args w)
  | write _ _ => exact near_done _

theorem frame_after_near (hS : S.Near g) {k : Frame} {p : Progress} (hk : k.Within S)
    (hp : p.Within S) (hn : p.rest.Near) : (k.after g p w).1.rest.Near := by
  rcases p with (e | v) | j | j
  · exact near_done _
  · exact (resume_action hk hp).near hS w
  · exact .waiting hn
  · exact .waiting hn

theorem turn_near {k : Join} {turned coming : List Job} (ht : ∀ t ∈ turned, t.Near)
    (hc : ∀ c ∈ coming, c.Near) : (k.turn turned coming).rest.Near := by
  cases coming with
  | cons c coming =>
    rw [List.forall_mem_cons] at hc
    exact .joined ht hc.1 hc.2
  | nil =>
    rw [← List.reverse_reverse turned]
    rcases finished_or_not turned.reverse with ⟨vs, hv⟩ | ⟨hn, -⟩
    · rw [hv, turn_finished]
      exact near_done _
    · rw [turn_unfinished k hn]
      exact start_near k fun t h => ht t (List.mem_reverse.1 h)

theorem join_after_near {k : Join} {turned coming : List Job} {p : Progress}
    (ht : ∀ t ∈ turned, t.Near) (hc : ∀ c ∈ coming, c.Near) (hp : p.rest.Near) :
    (k.after turned coming p).rest.Near := by
  rcases p with (e | v) | j | j
  · exact near_done _
  · exact turn_near (List.forall_mem_cons.2 ⟨near_done _, ht⟩) hc
  · exact .joined ht hp hc
  · exact turn_near (List.forall_mem_cons.2 ⟨hp, ht⟩) hc

/-- A step places nothing if the localities of the scope's nodes do not. -/
theorem step_near (hS : S.Near g) {j : Job} (hj : j.Within S) (hc : S.Closed g w) (h : j.Near) :
    (j.step g w).1.rest.Near := by
  induction hj with
  | done _ => exact near_done _
  | start hn hcon ha => exact (run_action hn hcon ha).near hS w
  | @round l last hl hp =>
    have hk : (Frame.loopCondition l last).Within S := ⟨hl, hp⟩
    exact (Action.await (g := g) hk hl.condition hl.args).near hS w
  | rest _ _ => exact .single trivial
  | waiting hk hj ih =>
    cases h with
    | single h => exact h.elim
    | waiting h =>
      rw [step_waiting]
      exact frame_after_near hS hk (step_within hj hc).1 (ih h)
  | joined _ _ _ _ _ ih _ =>
    cases h with
    | single h => exact h.elim
    | joined ht h hcom =>
      rw [step_joined]
      exact join_after_near ht hcom (ih h)
  | placed =>
    cases h with
    | single h => exact h.elim

theorem acts_near {j : Job} {p : Progress} (h : j.Acts g w p w') (hn : j.Near) :
    j.step g w = (p, w') := by
  induction h with
  | step => rfl
  | waiting _ ih =>
    cases hn with
    | single h => exact h.elim
    | waiting hn => rw [step_waiting, ih hn]
  | joined _ ih =>
    cases hn with
    | single h => exact h.elim
    | joined _ hn _ => rw [step_joined, ih hn]
  | placed | paused =>
    cases hn with
    | single h => exact h.elim

theorem not_aside_near {j j' : Job} (h : j.Aside g w j' w') : ¬ j.Near := by
  intro hn
  induction h with
  | spawned | within =>
    cases hn with
    | single h => exact h.elim
  | waiting _ ih =>
    cases hn with
    | single h => exact h.elim
    | waiting hn => exact ih hn
  | turned _ ih =>
    cases hn with
    | single h => exact h.elim
    | joined ht _ _ => exact ih (ht _ (by simp))
  | current _ ih =>
    cases hn with
    | single h => exact h.elim
    | joined _ hn _ => exact ih hn
  | coming _ ih =>
    cases hn with
    | single h => exact h.elim
    | joined _ _ hcom => exact ih (hcom _ (by simp))

/-- At every moment of a schedule of a job without placed parts, the job is on its way to the
end of its run. -/
theorem scheduled_near (hS : S.Near g) {j j' : Job} (h : j.Scheduled g w j' w') (hj : j.Within S)
    (hc : S.Closed g w) (hn : j.Near) (r : Outcome) (z : World) :
    j'.Runs g w' r z ↔ j.Runs g w r z := by
  induction h with
  | refl => exact Iff.rfl
  | next hg _ ih =>
    cases hg with
    | turn ha =>
      have hstep := acts_near ha hn
      have hin := step_within hj hc
      have hn' := step_near hS hj hc hn
      rw [hstep] at hin hn'
      rw [ih (rest_within hin.1) (hc.kept hin.2) hn', runs_rest, Job.runs_step hstep]
    | aside ha => exact absurd hn (not_aside_near ha)

/-! ## Evaluations -/

/-- What the evaluation may have come to under some schedule. -/
def Graph.Schedules (g : Graph) (v : Value) (args : List Value) (w : World) (j : Job)
    (u : World) : Prop :=
  (g.launch v args w).1.Scheduled g (g.launch v args w).2 j u

section Evaluations

variable {v : Value} {args : List Value} {j : Job} {u : World}

theorem schedules_of_evaluates {r : Outcome} (h : g.Evaluates v args w r z) :
    g.Schedules v args w (.done r) z := scheduled_of_runs h

theorem schedules_within (hc : S.Closed g w) (hl : S.loops) (hv : v.Within S)
    (ha : S.Given args) (h : g.Schedules v args w j u) : j.Within S ∧ w.Kept S u := by
  have hk : w.Kept S (g.launch v args w).2 := .of_slots (launch_slots ..)
  obtain ⟨hj, hk'⟩ := scheduled_within h (launch_within hc hv ha) hl (hc.kept hk)
  exact ⟨hj, hk.trans hk'⟩

/-- Where no slot is written, none is at any moment. -/
theorem schedules_still (hs : ∀ i, ¬ S.slot i) (hc : S.Closed g w) (hl : S.loops)
    (hv : v.Within S) (ha : S.Given args) (h : g.Schedules v args w j u) : u.slots = w.slots :=
  (schedules_within hc hl hv ha h).2.slots_eq hs

/-- In the scope of nodes none of which is placed, an evaluation has the caller's schedule
only. -/
theorem schedules_near (hS : S.Near g) (hc : S.Closed g w) (hv : v.Within S) (ha : S.Given args)
    (h : g.Schedules v args w j u) (r : Outcome) (z : World) :
    j.Runs g u r z ↔ g.Evaluates v args w r z :=
  scheduled_near hS h (launch_within hc hv ha) (hc.kept (.of_slots (launch_slots ..)))
    (launch_near hS hv args w) r z

end Evaluations

end ArrayGraph
