import ArrayGraph.Proofs.Evaluation.Fairness
import ArrayGraph.Proofs.Evaluation.Order
import ArrayGraph.Proofs.Evaluation.Tracking
/-!
# What an evaluation reads and writes

`Graph.Reads` holds of the variables that some operands reach, `Graph.Writes` of the
targets of the stores that they reach. Under no schedule does an evaluation change a slot but
those that it writes. Where schedules tell nothing apart (`Graph.Steady`), what it comes to
depends on no slot but those that it reads: `evaluation_footprint`.

Two states that agree on what is read may differ in the slots of nodes that are no
variables, and a job is told at its launch what the slot of its node holds. So the jobs
of the two evaluations need not be equal, but they are `Alike`: nodes that are variables were
told the same. `goes_alike` says that like jobs do alike, in their turns and out of them.
-/

namespace ArrayGraph

variable {g : Graph} {S : Scope} {u w : World}

/-! ## What is read, what is written -/

/-- The variables that the roots reach. -/
def Graph.Reads (g : Graph) (w : World) (roots : List Value) (i : Nat) : Prop :=
  g.Reaches w roots i ∧ ∃ n, g.nodes[i]? = some n ∧ n.primitive = .variable

/-- A store is among the nodes that the roots reach. -/
def Graph.Stores (g : Graph) (w : World) (roots : List Value) : Prop :=
  ∃ k n, g.Reaches w roots k ∧ g.nodes[k]? = some n ∧ n.primitive = .store

/-- Of the nodes of a scope, the variables. -/
def Scope.variables (g : Graph) (S : Scope) : Scope :=
  { S with node := fun i => S.node i ∧ ∃ n, g.nodes[i]? = some n ∧ n.primitive = .variable }

/-- The scope of what the roots reach, loops included. -/
def Graph.footprint (g : Graph) (w : World) (roots : List Value) : Scope :=
  { g.reach w roots with loops := True }

theorem closed_footprint {roots : List Value} (hb : g.Builtin) :
    (g.footprint w roots).Closed g w := by
  intro i n hi hn
  obtain ⟨⟨htame, ho, hs, -, ha⟩, hcon⟩ := closed_reach hb i n hi hn
  exact ⟨⟨htame, ho, hs, fun _ => trivial, ha⟩, hcon⟩

/-- Evaluations of an operand in a row under any schedules, each on the state that the last one
left, with what they came to. -/
inductive Graph.Repeats (g : Graph) (v : Value) (args : List Value) :
    World → List Outcome → World → Prop
  | nil {x} : Repeats g v args x [] x
  | cons {x r y rs z} : g.Schedules v args x (.done r) y → Repeats g v args y rs z →
      Repeats g v args x (r :: rs) z

/-! ## Like jobs -/

/-- The jobs differ at most in what a node that is no variable was told of its slot. -/
inductive Job.Alike : Job → Job → Prop
  | done {r} : Alike (.done r) (.done r)
  | start {n content content' args} : (n.primitive = .variable → content = content') →
      Alike (.start n content args) (.start n content' args)
  | round {l last} : Alike (.round l last) (.round l last)
  | rest {l last} : Alike (.rest l last) (.rest l last)
  | waiting {k j j'} : Alike j j' → Alike (.waiting k j) (.waiting k j')
  | joined {k turned turned' j j' coming coming'} : List.Forall₂ Alike turned turned' →
      Alike j j' → List.Forall₂ Alike coming coming' →
      Alike (.joined k turned j coming) (.joined k turned' j' coming')
  | placed {id site j j'} : Alike j j' → Alike (.placed id site j) (.placed id site j')

inductive Progress.Alike : Progress → Progress → Prop
  | finished {r} : Alike (.finished r) (.finished r)
  | moved {j j'} : j.Alike j' → Alike (.moved j) (.moved j')
  | suspended {j j'} : j.Alike j' → Alike (.suspended j) (.suspended j')

theorem Job.Within.alike {j : Job} (h : j.Within S) : j.Alike j := by
  induction h with
  | done _ => exact .done
  | start _ _ _ => exact .start fun _ => rfl
  | round _ _ => exact .round
  | rest _ _ => exact .rest
  | waiting _ _ ih => exact .waiting ih
  | joined _ _ _ _ iht ihj ihc =>
    exact .joined (List.forall₂_same.2 iht) ihj (List.forall₂_same.2 ihc)
  | placed _ ih => exact .placed ih

theorem Job.Within.alike_symm {j j' : Job} (hj : j.Within S) (h : j.Alike j') : j'.Alike j := by
  have hflip : ∀ {js js' : List Job}, (∀ t ∈ js, ∀ {t' : Job}, t.Alike t' → t'.Alike t) →
      List.Forall₂ Job.Alike js js' → List.Forall₂ Job.Alike js' js := fun hjs h =>
    (((List.forall₂_and_left _ _).2 ⟨hjs, h⟩).imp fun _ _ ht => ht.1 ht.2).flip
  induction hj generalizing j' with
  | done _ =>
    cases h
    exact .done
  | start _ _ _ =>
    cases h with
    | start he => exact .start fun hp => (he hp).symm
  | round _ _ =>
    cases h
    exact .round
  | rest _ _ =>
    cases h
    exact .rest
  | waiting _ _ ih =>
    cases h with
    | waiting h => exact .waiting (ih h)
  | joined _ _ _ _ iht ih ihc =>
    cases h with
    | joined ht h hc => exact .joined (hflip iht ht) (ih h) (hflip ihc hc)
  | placed _ ih =>
    cases h with
    | placed h => exact .placed (ih h)

theorem start_alike {k : Join} {js js' : List Job} (h : List.Forall₂ Job.Alike js js') :
    (k.start js).Alike (k.start js') := by
  cases h with
  | nil => exact .done
  | cons hj hjs => exact .joined .nil hj hjs

theorem value?_alike {j j' : Job} (h : j.Alike j') : j.value? = j'.value? := by
  cases h <;> rfl

theorem values_alike {js js' : List Job} (h : List.Forall₂ Job.Alike js js') :
    js.mapM Job.value? = js'.mapM Job.value? := by
  induction h with
  | nil => rfl
  | cons hj _ ih => rw [List.mapM_cons, List.mapM_cons, value?_alike hj, ih]

theorem finished_alike {vs : List Value} {js : List Job}
    (h : List.Forall₂ Job.Alike (Job.finished vs) js) : js = Job.finished vs := by
  induction vs generalizing js with
  | nil => cases h; rfl
  | cons v vs ih =>
    obtain ⟨hj, hjs⟩ | ⟨hj, hjs⟩ := h
    cases hj
    rw [ih hjs]
    rfl

theorem turn_alike {k : Join} {turned turned' coming coming' : List Job}
    (ht : List.Forall₂ Job.Alike turned turned') (hc : List.Forall₂ Job.Alike coming coming') :
    (k.turn turned coming).Alike (k.turn turned' coming') := by
  cases hc with
  | cons hj hjs => exact .moved (.joined ht hj hjs)
  | nil =>
    -- the round is over, and the operands are looked at in their order
    have hr : List.Forall₂ Job.Alike turned.reverse turned'.reverse := List.rel_reverse ht
    rw [← List.reverse_reverse turned, ← List.reverse_reverse turned']
    rcases finished_or_not turned.reverse with ⟨vs, hv⟩ | ⟨hn, -⟩
    · rw [hv] at hr ⊢
      rw [finished_alike hr, turn_finished]
      exact .finished
    · rw [turn_unfinished k hn, turn_unfinished k ((values_alike hr).symm.trans hn)]
      exact .suspended (start_alike hr)

/-! ## What happens at once -/

theorem dispatch_alike {l : Locality} {site : Site} {j j' : Job} (h : j.Alike j') :
    (l.dispatch site j u).1.Alike (l.dispatch site j' w).1 := by
  unfold Locality.dispatch
  split
  · exact h
  · exact h
  · split
    · exact .placed h
    · exact .done

theorem launch_alike {v : Value} {args : List Value} (hv : v.Within S)
    (h : u.Agree (S.variables g) w) : (g.launch v args u).1.Alike (g.launch v args w).1 := by
  cases v with
  | node t =>
    simp only [Graph.launch]
    split
    · rename_i n hn
      exact dispatch_alike (.start fun hp => h.slot t.index ⟨within_node.1 hv, n, hn, hp⟩)
    · exact .done
  | _ => exact .done

theorem launchAll_alike {vs args : List Value} (hv : WithinAll S vs)
    (h : u.Agree (S.variables g) w) :
    List.Forall₂ Job.Alike (g.launchAll args vs u).1 (g.launchAll args vs w).1 := by
  rw [launchAll_jobs rfl, launchAll_jobs rfl, List.forall₂_map_left_iff, List.forall₂_map_right_iff]
  exact List.forall₂_same.2 fun v hm => launch_alike (hv v hm) h

/-- An action does alike on states that agree on variables. -/
theorem Action.alike {f : World → Job × World} (hf : Action g S f)
    (h : u.Agree (S.variables g) w) :
    (f u).1.Alike (f w).1 ∧ (f u).2.Agree (S.variables g) (f w).2 := by
  cases hf with
  | job hj _ => exact ⟨hj.alike, h⟩
  | launch hv _ => exact ⟨launch_alike hv h, h.congr (launch_slots ..) (launch_slots ..)⟩
  | await _ hv _ =>
    exact ⟨.waiting (launch_alike hv h), h.congr (launch_slots ..) (launch_slots ..)⟩
  | join hv _ =>
    refine ⟨?_, h.congr (join_slots ..) (join_slots ..)⟩
    rw [join_eq, join_eq]
    exact start_alike (launchAll_alike hv h)
  | write _ _ => exact ⟨.done, h.setSlot _ _⟩

/-! ## Steps and runs -/

theorem frame_after_alike {k : Frame} {p p' : Progress} (hk : k.Within S) (hin : p.Within S)
    (hp : p.Alike p') (h : u.Agree (S.variables g) w) :
    (k.after g p u).1.Alike (k.after g p' w).1 ∧
      (k.after g p u).2.Agree (S.variables g) (k.after g p' w).2 := by
  cases hp with
  | @finished r =>
    cases r with
    | error e => exact ⟨.finished, h⟩
    | ok v =>
      obtain ⟨hr, hw⟩ := (resume_action (g := g) hk hin).alike h
      exact ⟨.moved hr, hw⟩
  | moved hj => exact ⟨.moved (.waiting hj), h⟩
  | suspended hj => exact ⟨.suspended (.waiting hj), h⟩

theorem join_after_alike {k : Join} {turned turned' coming coming' : List Job} {p p' : Progress}
    (ht : List.Forall₂ Job.Alike turned turned') (hc : List.Forall₂ Job.Alike coming coming')
    (hp : p.Alike p') : (k.after turned coming p).Alike (k.after turned' coming' p') := by
  cases hp with
  | @finished r =>
    cases r with
    | error e => exact .finished
    | ok v => exact turn_alike (.cons .done ht) hc
  | moved hj => exact .moved (.joined ht hj hc)
  | suspended hj => exact turn_alike (.cons hj ht) hc

theorem reported_alike {id : LocalityId} {site : Site} {p p' : Progress} (hp : p.Alike p') :
    (p.reported id site).Alike (p'.reported id site) := by
  cases hp with
  | finished => exact .finished
  | moved hj => exact .moved (.placed hj)
  | suspended hj => exact .suspended (.placed hj)

/-- Like jobs take like steps on states that agree on the variables of their scope. -/
theorem step_alike {j j' : Job} (hj : j.Within S) (hc : S.Closed g u) (ha : j.Alike j')
    (h : u.Agree (S.variables g) w) :
    (j.step g u).1.Alike (j'.step g w).1 ∧
      (j.step g u).2.Agree (S.variables g) (j'.step g w).2 := by
  induction hj generalizing j' with
  | done _ =>
    cases ha
    exact ⟨.finished, h⟩
  | @start n content args hn hcon hargs =>
    cases ha with
    | @start _ _ content' _ he =>
      obtain ⟨hr, hw⟩ := (run_action hn hcon hargs).alike h
      have hrun : n.run g content' args w = n.run g content args w := by
        by_cases hp : n.primitive = .variable
        · rw [he hp]
        · exact run_content hp content' content args w
      simp only [Job.step, hrun]
      exact ⟨.moved hr, hw⟩
  | @round l last hl hp =>
    cases ha
    have hk : (Frame.loopCondition l last).Within S := ⟨hl, hp⟩
    obtain ⟨hr, hw⟩ := (Action.await (g := g) hk hl.condition hl.args).alike h
    exact ⟨.moved hr, hw⟩
  | rest hl hp =>
    cases ha
    exact ⟨.suspended .round, h⟩
  | waiting hk hj ih =>
    cases ha with
    | waiting hi =>
      rw [step_waiting, step_waiting]
      obtain ⟨hp, hw⟩ := ih hi
      exact frame_after_alike hk (step_within hj hc).1 hp hw
  | joined _ _ _ _ _ ih _ =>
    cases ha with
    | joined ht hi hcom =>
      rw [step_joined, step_joined]
      obtain ⟨hp, hw⟩ := ih hi
      exact ⟨join_after_alike ht hcom hp, hw⟩
  | placed _ ih =>
    cases ha with
    | placed hi =>
      rw [step_placed, step_placed]
      obtain ⟨hp, hw⟩ := ih hi
      exact ⟨reported_alike hp, hw⟩

/-! ## Schedules -/

theorem rest_alike {p p' : Progress} (h : p.Alike p') : p.rest.Alike p'.rest := by
  cases h with
  | finished => exact .done
  | moved hj | suspended hj => exact hj

theorem single_alike {j j' : Job} (h : j.Alike j') (hs : j.Single) : j'.Single := by
  cases h with
  | done | start _ | round | rest => trivial
  | waiting _ | joined _ _ _ | placed _ => exact hs.elim

/-- What one of two like jobs may do in its turn, the other may do as well. -/
theorem acts_alike {j j' : Job} {p : Progress} {u' : World} (h : j.Acts g u p u')
    (hj : j.Within S) (hl : S.loops) (hc : S.Closed g u) (ha : j.Alike j')
    (hw : u.Agree (S.variables g) w) :
    ∃ p' w', j'.Acts g w p' w' ∧ p.Alike p' ∧ u'.Agree (S.variables g) w' := by
  induction h generalizing j' with
  | step hs =>
    obtain ⟨hp, hag⟩ := step_alike hj hc ha hw
    exact ⟨_, _, .step (single_alike ha hs), hp, hag⟩
  | waiting hacts ih =>
    cases hj with
    | waiting hk hj =>
      cases ha with
      | waiting hi =>
        obtain ⟨p', w', hacts', hp, hag⟩ := ih hj hc hi hw
        obtain ⟨hp', hag'⟩ := frame_after_alike hk (acts_within hacts hj hl hc).1 hp hag
        exact ⟨_, _, .waiting hacts', hp', hag'⟩
  | joined _ ih =>
    cases hj with
    | joined _ _ hj _ =>
      cases ha with
      | joined ht hi hcom =>
        obtain ⟨p', w', hacts', hp, hag⟩ := ih hj hc hi hw
        exact ⟨_, _, .joined hacts', join_after_alike ht hcom hp, hag⟩
  | placed _ ih =>
    cases hj with
    | placed hj =>
      cases ha with
      | placed hi =>
        obtain ⟨p', w', hacts', hp, hag⟩ := ih hj hc hi hw
        exact ⟨_, _, .placed hacts', reported_alike hp, hag⟩
  | paused =>
    cases ha with
    | placed hi => exact ⟨_, _, .paused, .suspended (.placed hi), hw⟩

theorem aside_alike {j i j' : Job} {u' : World} (h : j.Aside g u i u') (hj : j.Within S)
    (hl : S.loops) (hc : S.Closed g u) (ha : j.Alike j') (hw : u.Agree (S.variables g) w) :
    ∃ i' w', j'.Aside g w i' w' ∧ i.Alike i' ∧ u'.Agree (S.variables g) w' := by
  induction h generalizing j' with
  | spawned hacts =>
    cases hj with
    | placed hj =>
      cases ha with
      | placed ha =>
        obtain ⟨p', w', hacts', hp, hag⟩ := acts_alike hacts hj hl hc ha hw
        exact ⟨_, w', .spawned hacts', .placed (rest_alike hp), hag⟩
  | within _ ih =>
    cases hj with
    | placed hj =>
      cases ha with
      | placed ha =>
        obtain ⟨i', w', haside, hi, hag⟩ := ih hj hc ha hw
        exact ⟨_, w', .within haside, .placed hi, hag⟩
  | waiting _ ih =>
    cases hj with
    | waiting _ hj =>
      cases ha with
      | waiting ha =>
        obtain ⟨i', w', haside, hi, hag⟩ := ih hj hc ha hw
        exact ⟨_, w', .waiting haside, .waiting hi, hag⟩
  | turned _ ih =>
    cases hj with
    | joined hturned _ _ _ =>
      cases ha with
      | joined ht hj' hcom =>
        obtain ⟨left, t, right, rfl, ha, hat⟩ := exists_at ht
        obtain ⟨i', w', haside, hi, hag⟩ := ih (hturned _ (by simp)) hc ha hw
        exact ⟨_, w', .turned haside, .joined (hat _ _ hi) hj' hcom, hag⟩
  | current _ ih =>
    cases hj with
    | joined _ _ hj _ =>
      cases ha with
      | joined ht ha hcom =>
        obtain ⟨i', w', haside, hi, hag⟩ := ih hj hc ha hw
        exact ⟨_, w', .current haside, .joined ht hi hcom, hag⟩
  | coming _ ih =>
    cases hj with
    | joined _ _ _ hcoming =>
      cases ha with
      | joined ht hj' hcom =>
        obtain ⟨left, c, right, rfl, ha, hat⟩ := exists_at hcom
        obtain ⟨i', w', haside, hi, hag⟩ := ih (hcoming _ (by simp)) hc ha hw
        exact ⟨_, w', .coming haside, .joined ht hj' (hat _ _ hi), hag⟩

theorem goes_alike {j i j' : Job} {u' : World} (h : j.Goes g u i u') (hj : j.Within S)
    (hl : S.loops) (hc : S.Closed g u) (ha : j.Alike j') (hw : u.Agree (S.variables g) w) :
    ∃ i' w', j'.Goes g w i' w' ∧ i.Alike i' ∧ u'.Agree (S.variables g) w' := by
  cases h with
  | turn hacts =>
    obtain ⟨p', w', hacts', hp, hag⟩ := acts_alike hacts hj hl hc ha hw
    exact ⟨_, w', .turn hacts', rest_alike hp, hag⟩
  | aside haside =>
    obtain ⟨i', w', haside', hi, hag⟩ := aside_alike haside hj hl hc ha hw
    exact ⟨i', w', .aside haside', hi, hag⟩

/-- Like jobs track each other on states that agree on the variables of their scope. -/
theorem alike_tracks (hl : S.loops) : Tracks g g fun j u j' w =>
    j.Within S ∧ S.Closed g u ∧ j.Alike j' ∧ u.Agree (S.variables g) w := by
  rintro j u j' w i u' ⟨hj, hc, ha, hw⟩ hg
  obtain ⟨hi, hk⟩ := goes_within hg hj hl hc
  obtain ⟨i', w', hg', ha', hw'⟩ := goes_alike hg hj hl hc ha hw
  exact ⟨i', w', .next hg' .refl, hi, hc.kept hk, ha', hw'⟩

theorem scheduled_alike {j i j' : Job} {u' : World} (h : j.Scheduled g u i u') (hj : j.Within S)
    (hl : S.loops) (hc : S.Closed g u) (ha : j.Alike j') (hw : u.Agree (S.variables g) w) :
    ∃ i' w', j'.Scheduled g w i' w' ∧ i.Alike i' ∧ u'.Agree (S.variables g) w' := by
  obtain ⟨i', w', hs, -, -, ha', hw'⟩ := (alike_tracks hl).scheduled ⟨hj, hc, ha, hw⟩ h
  exact ⟨i', w', hs, ha', hw'⟩

section Evaluations

variable {v : Value} {args : List Value} {j : Job} {x z : World} {r : Outcome}

/-- Every moment of an evaluation is like one of the evaluation on a state that agrees. -/
theorem schedules_alike (hc : S.Closed g u) (hl : S.loops) (hv : v.Within S) (ha : S.Given args)
    (h : u.Agree (S.variables g) w) (hs : g.Schedules v args u j x) :
    ∃ j' y, g.Schedules v args w j' y ∧ j.Alike j' ∧ x.Agree (S.variables g) y := by
  have hc' : S.Closed g (g.launch v args u).2 := hc.kept (.of_slots (launch_slots ..))
  exact scheduled_alike hs (launch_within hc hv ha) hl hc' (launch_alike hv h)
    (h.congr (launch_slots ..) (launch_slots ..))

end Evaluations

theorem Scope.Closed.variables (hc : S.Closed g w) (h : w.Agree (S.variables g) u) :
    S.Closed g u := by
  intro i n hi hn
  refine ⟨(hc i n hi hn).1, fun hp => ?_⟩
  rw [← h.slot i ⟨hi, n, hn, hp⟩]
  exact (hc i n hi hn).2 hp

/-! ## Evaluations that no schedule tells apart -/

/-- No schedule makes a difference to the evaluation: either the thread that calls runs all
nodes that are reached, or whenever a join is come to, it is fair. -/
def Graph.Steady (g : Graph) (v : Value) (args : List Value) (w : World) : Prop :=
  (g.footprint w (v :: args)).Near g ∨ g.Grounded w ∧ g.FairFor v args w

section Evaluations

variable {v : Value} {args : List Value} {j : Job} {x z : World} {r : Outcome}

theorem within_footprint : v.Within (g.footprint w (v :: args)) :=
  fun _ he => .root (he ▸ List.mem_cons_self)

theorem given_footprint : (g.footprint w (v :: args)).Given args :=
  fun _ _ ha _ he => .root (he ▸ List.mem_cons_of_mem v ha)

theorem steady_like (hb : g.Builtin) (hs : g.Steady v args w) (h : g.Schedules v args w j x) :
    (g.launch v args w).1.Like g (g.launch v args w).2 j x := by
  rcases hs with hn | ⟨hw, hf⟩
  · have hruns := schedules_near hn (closed_footprint hb) within_footprint given_footprint h
    exact (Job.Like.refl ..).congr hruns
  · exact schedules_like hw hf h

/-- If one schedule comes to an end, then every moment of all of them is on the way there. -/
theorem steady_gives (hb : g.Builtin) (hs : g.Steady v args w)
    (h : g.Schedules v args w (.done r) z) (hj : g.Schedules v args w j x) : j.Gives g x r := by
  rw [(steady_like hb hs hj).ends, ← (steady_like hb hs h).ends]
  exact gives_done.2 rfl

/-- All schedules leave the same in the slots, unless threads are cut short by a failure. -/
theorem steady_slots (hb : g.Builtin) (hs : g.Steady v args w)
    (hr : (g.footprint w (v :: args)).Near g ∨ ∃ a, r = .ok a)
    (h : g.Schedules v args w (.done r) z) (h' : g.Schedules v args w (.done r) x) :
    z.slots = x.slots := by
  rcases hr with hn | ⟨a, rfl⟩
  · have hruns : ∀ {y}, g.Schedules v args w (.done r) y → g.Evaluates v args w r y := fun hy =>
      (schedules_near hn (closed_footprint hb) within_footprint given_footprint hy r _).1
        (runs_done.2 ⟨rfl, rfl⟩)
    rw [(Job.Runs.unique (hruns h) (hruns h')).2]
  · have hlike := steady_like hb hs h
    obtain ⟨y, hy⟩ : (g.launch v args w).1.Gives g (g.launch v args w).2 (.ok a) := by
      rw [← hlike.ends]
      exact gives_done.2 rfl
    have hdone : ∀ {u : World}, (Job.done (.ok a)).Runs g u (.ok a) u := runs_done.2 ⟨rfl, rfl⟩
    rw [← hlike.slots a y z hy hdone, (steady_like hb hs h').slots a y x hy hdone]

/-- Under no schedule is a slot changed but the targets of stores that are reached. -/
theorem schedules_writes (hb : g.Builtin) (h : g.Schedules v args w j x) {i : Nat}
    (hi : ¬ g.Writes w (v :: args) i) : x.slot i = w.slot i := by
  have hk := (schedules_within (closed_footprint hb) trivial within_footprint given_footprint h).2
  exact (hk.slot i).resolve_right fun hw => hi hw.1

theorem not_writes_of_not_stores {roots : List Value} (hn : ¬ g.Stores w roots) (i : Nat) :
    ¬ g.Writes w roots i := by
  rintro ⟨k, n, _, _, hk, hk', hp, -, -⟩
  exact hn ⟨k, n, hk, hk', hp⟩

/-- On a state with the same contents of the variables that are reached, every moment is on the
way to the same end. -/
theorem steady_agree (hb : g.Builtin) (hs : g.Steady v args w)
    (h : g.Schedules v args w (.done r) z)
    (hu : w.Agree ((g.footprint w (v :: args)).variables g) u) :
    (∀ j x, g.Schedules v args u j x → ∃ y, j.Scheduled g x (.done r) y) ∧
      ∀ r' y, g.Schedules v args u (.done r') y → r' = r ∧
        ((g.footprint w (v :: args)).Near g ∨ (∃ a, r = .ok a) →
          y.Agree ((g.footprint w (v :: args)).variables g) z) := by
  have hc : (g.footprint w (v :: args)).Closed g w := closed_footprint hb
  have hcu := hc.variables hu
  constructor
  · intro j x hj
    obtain ⟨j', y, hj', ha, hag⟩ :=
      schedules_alike hcu trivial within_footprint given_footprint hu.symm hj
    obtain ⟨e, he⟩ := steady_gives hb hs h hj'
    -- the way of `j'` to its end is one for `j` as well
    have hin := (schedules_within hcu trivial within_footprint given_footprint hj).1
    obtain ⟨hin', hk⟩ := schedules_within hc trivial within_footprint given_footprint hj'
    obtain ⟨i, e', hi, hdone, -⟩ := scheduled_alike (scheduled_of_runs he) hin' trivial
      (hc.kept hk) (hin.alike_symm ha) hag.symm
    cases hdone
    exact ⟨e', hi⟩
  · intro r' y hy
    obtain ⟨j', x, hj', ha, hag⟩ :=
      schedules_alike hcu trivial within_footprint given_footprint hu.symm hy
    cases ha
    obtain rfl : r' = r := (gives_done.1 (steady_gives hb hs h hj')).symm
    exact ⟨rfl, fun hr => hag.trans (World.agree_of_slots (steady_slots hb hs hr hj' h))⟩

/-- If no store is reached, it comes to the same end again and again. -/
theorem steady_repeats (hb : g.Builtin) (hs : g.Steady v args w)
    (h : g.Schedules v args w (.done r) z) (hn : ¬ g.Stores w (v :: args)) {rs : List Outcome}
    {y : World} (hx : x.slots = w.slots) (hr : g.Repeats v args x rs y) :
    y.slots = w.slots ∧ ∀ r' ∈ rs, r' = r := by
  induction hr with
  | nil => exact ⟨hx, List.forall_mem_nil _⟩
  | @cons x r' y rs z he _ ih =>
    have hu : w.Agree (g.footprint w (v :: args)) x := World.agree_of_slots hx.symm
    have hstill : y.slots = x.slots := schedules_still (not_writes_of_not_stores hn)
      ((closed_footprint hb).agree hu) trivial within_footprint given_footprint he
    obtain ⟨hy, hrest⟩ := ih (hstill.trans hx)
    obtain ⟨rfl, -⟩ := (steady_agree hb hs h (World.agree_of_slots hx.symm)).2 _ _ he
    exact ⟨hy, List.forall_mem_cons.2 ⟨rfl, hrest⟩⟩

end Evaluations

/-! ## Main statement -/

/-- Under no schedule and at no moment does an evaluation change a slot but the targets of
stores that its operand and arguments reach. Let it be one that no schedule tells apart, and
let it come to an end. On a state with the same contents of the variables that are reached it
can always be brought to an end, and comes to no other; it leaves the same contents there if
it has a value, or if the thread that calls runs all of it. If no store is reached, it comes
to the same end however often it is repeated. -/
theorem evaluation_footprint {v : Value} {args : List Value} {w : World} (hb : g.Builtin) :
    (∀ j z, g.Schedules v args w j z →
      (∀ i, ¬ g.Writes w (v :: args) i → z.slot i = w.slot i) ∧
      (¬ g.Stores w (v :: args) → z.slots = w.slots)) ∧
    (g.Steady v args w → ∀ r z, g.Schedules v args w (.done r) z →
      (∀ u : World, u.slots.size = w.slots.size →
        (∀ i, g.Reads w (v :: args) i → u.slot i = w.slot i) →
        (∀ j x, g.Schedules v args u j x → ∃ y, j.Scheduled g x (.done r) y) ∧
        ∀ r' y, g.Schedules v args u (.done r') y → r' = r ∧
          ((g.footprint w (v :: args)).Near g ∨ (∃ a, r = .ok a) →
            ∀ i, g.Reads w (v :: args) i → y.slot i = z.slot i)) ∧
      (¬ g.Stores w (v :: args) → ∀ rs y, g.Repeats v args z rs y → y.slots = w.slots ∧
        (∀ r' ∈ rs, r' = r) ∧ ∃ x, g.Schedules v args y (.done r) x)) := by
  have hc : (g.footprint w (v :: args)).Closed g w := closed_footprint hb
  have hstill : ¬ g.Stores w (v :: args) → ∀ {j z}, g.Schedules v args w j z → z.slots = w.slots :=
    fun hn _ _ => schedules_still (not_writes_of_not_stores hn) hc trivial within_footprint
      given_footprint
  refine ⟨fun j z h => ⟨fun i hi => schedules_writes hb h hi, fun hn => hstill hn h⟩,
    fun hs r z h => ⟨fun u hsize hu => ?_, fun hn rs y hr => ?_⟩⟩
  · have hag : w.Agree ((g.footprint w (v :: args)).variables g) u :=
      ⟨hsize.symm, fun i hi => (hu i hi).symm⟩
    obtain ⟨hends, hsame⟩ := steady_agree hb hs h hag
    refine ⟨hends, fun r' y hy => ?_⟩
    obtain ⟨hr', hcontents⟩ := hsame r' y hy
    exact ⟨hr', fun hr i hi => (hcontents hr).slot i hi⟩
  · obtain ⟨hslots, hall⟩ := steady_repeats hb hs h hn (hstill hn h) hr
    obtain ⟨x, hx⟩ := (steady_agree hb hs h (World.agree_of_slots hslots.symm)).1 _ _ .refl
    exact ⟨hslots, hall, x, hx⟩

/-- A loop that counts one of two variables down. -/
def countdown : Graph where
  nodes := #[⟨.variable, [.int 2], ⟨"count", "sample"⟩, .here⟩,
    ⟨.variable, [.int 7], ⟨"other", "sample"⟩, .here⟩,
    ⟨.arithmetic .sub, [.node ⟨0, "count"⟩, .int 1], ⟨"less", "sample"⟩, .here⟩,
    ⟨.store, [.node ⟨0, "count"⟩, .node ⟨2, "less"⟩], ⟨"step", "sample"⟩, .here⟩,
    ⟨.whileLoop, [.node ⟨0, "count"⟩, .node ⟨3, "step"⟩], ⟨"loop", "sample"⟩, .here⟩]

def countdownState (count other : Int64) : World := ⟨#[.int count, .int other], #[]⟩

/-- Two stores on two localities of a pool, and a third variable that they do not reach. -/
def twoStores : Graph where
  nodes := #[⟨.variable, [.int 0], ⟨"left", "sample"⟩, .here⟩,
    ⟨.variable, [.int 0], ⟨"right", "sample"⟩, .here⟩,
    ⟨.variable, [.int 7], ⟨"other", "sample"⟩, .here⟩,
    ⟨.store, [.node ⟨0, "left"⟩, .int 1], ⟨"first", "sample"⟩, ⟨⟨0⟩, .pool 2 "pool"⟩⟩,
    ⟨.store, [.node ⟨1, "right"⟩, .int 2], ⟨"second", "sample"⟩, ⟨⟨1⟩, .pool 2 "pool"⟩⟩,
    ⟨.parallelBlock, [.node ⟨3, "first"⟩, .node ⟨4, "second"⟩], ⟨"both", "sample"⟩, .here⟩]

def twoStoresState (other : Int64) : World :=
  ⟨#[.int 0, .int 0, .int other, .empty, .empty, .empty], #[]⟩

theorem twoStores_grounded : twoStores.Grounded (twoStoresState 7) where
  size := rfl
  tame := Graph.Builtin.tame (by decide)
  checked := by
    simp only [twoStores, List.mem_toArray, List.forall_mem_cons]
    exact ⟨rfl, rfl, rfl, rfl, rfl, rfl, List.forall_mem_nil _⟩
  ordered i n hn := by
    match i with
    | 0 | 1 | 2 | 3 | 4 | 5 =>
      cases hn
      decide
    | i + 6 => cases hn
  slots i n hn _ := by
    match i with
    | 0 | 1 | 2 | 3 | 4 | 5 => exact .inr rfl
    | i + 6 => cases hn

theorem twoStores_fair : twoStores.FairFor (.node ⟨5, "both"⟩) [] (twoStoresState 7) := by
  intro j u hs n hn args _ hk
  have hplain : ∀ i, (u.slot i).Plain := fun i => by
    rcases (schedules_kept twoStores_grounded hs).slot i with he | ⟨-, hp⟩
    · rw [he]
      match i with
      | 0 | 1 | 2 | 3 | 4 | 5 => rfl
      | i + 6 => rfl
    · exact hp
  have hleads : ∀ i ks, (u.slot i).leadsInto ks = true := fun i => leadsInto_of_plain (hplain i)
  have hnode : n = twoStores.nodes[5] := by
    simp only [twoStores, List.mem_toArray, List.mem_cons, List.not_mem_nil, or_false] at hn
    rcases hn with rfl | rfl | rfl | rfl | rfl | rfl <;> first | rfl | cases hk
  subst hnode
  refine List.pairwise_pair.2 ⟨apart_span (by decide) ?_, ?_⟩
  · refine apart_of_closedOn [0, 3] [1, 4] (by decide) rfl rfl ?_ ?_ <;>
      simp [Graph.closedOn, hleads] <;> decide
  · rintro ⟨⟨e, z, hz⟩, -⟩
    have hok : twoStores.Evaluates (.node ⟨3, "first"⟩) args u (.ok .empty)
        (u.setSlot 0 (.int 1)) := ⟨20, rfl⟩
    cases (Job.Runs.unique hz hok).1

theorem countdown_reads (i : Nat) :
    countdown.Reads (countdownState 2 7) [.node ⟨4, "loop"⟩] i ↔ i = 0 := by
  have hroot : countdown.Reaches (countdownState 2 7) [.node ⟨4, "loop"⟩] 4 :=
    .root (h := ⟨4, "loop"⟩) List.mem_cons_self
  refine ⟨fun ⟨hi, n, hn, hp⟩ => ?_, ?_⟩
  · have hmem : i ∈ [0, 2, 3, 4] := mem_of_reaches rfl rfl hi
    simp only [List.mem_cons, List.not_mem_nil, or_false] at hmem
    rcases hmem with rfl | rfl | rfl | rfl <;> cases hn <;> first | rfl | cases hp
  · rintro rfl
    exact ⟨.operand (h := ⟨0, "count"⟩) hroot rfl List.mem_cons_self, _, rfl, rfl⟩

theorem twoStores_reads (i : Nat) :
    twoStores.Reads (twoStoresState 7) [.node ⟨5, "both"⟩] i ↔ i = 0 ∨ i = 1 := by
  have hroot : twoStores.Reaches (twoStoresState 7) [.node ⟨5, "both"⟩] 5 :=
    .root (h := ⟨5, "both"⟩) List.mem_cons_self
  refine ⟨fun ⟨hi, n, hn, hp⟩ => ?_, ?_⟩
  · have hmem : i ∈ [0, 1, 3, 4, 5] := mem_of_reaches rfl rfl hi
    simp only [List.mem_cons, List.not_mem_nil, or_false] at hmem
    rcases hmem with rfl | rfl | rfl | rfl | rfl <;> cases hn <;>
      first | exact .inl rfl | exact .inr rfl | cases hp
  · rintro (rfl | rfl)
    · have hfirst := hroot.operand (h := ⟨3, "first"⟩) rfl List.mem_cons_self
      exact ⟨hfirst.operand (h := ⟨0, "left"⟩) rfl List.mem_cons_self, _, rfl, rfl⟩
    · have hsecond := hroot.operand (h := ⟨4, "second"⟩) rfl
        (List.mem_cons_of_mem _ List.mem_cons_self)
      exact ⟨hsecond.operand (h := ⟨1, "right"⟩) rfl List.mem_cons_self, _, rfl, rfl⟩

/-- The loop leaves the other variable alone and does not depend on it, and what comes before
the store can be evaluated over and over. The stores on the pool do not depend on that variable
either, whichever comes first. -/
theorem countdown_footprint :
    let loop := Value.node ⟨4, "loop"⟩
    let both := Value.node ⟨5, "both"⟩
    countdown.Builtin ∧ twoStores.Builtin ∧
    countdown.Steady loop [] (countdownState 2 7) ∧ twoStores.Steady both [] (twoStoresState 7) ∧
    (∀ j z, countdown.Schedules loop [] (countdownState 2 7) j z → z.slot 1 = .int 7) ∧
    (∀ r y, countdown.Schedules loop [] (countdownState 2 9) (.done r) y →
      r = .ok .empty ∧ y.slot 0 = .int 0) ∧
    (∀ rs y, countdown.Repeats (.node ⟨2, "less"⟩) [] (countdownState 2 7) rs y →
      y.slots = (countdownState 2 7).slots ∧ ∀ r ∈ rs, r = .ok (.int 1)) ∧
    (∀ j x, twoStores.Schedules both [] (twoStoresState 9) j x →
      ∃ y, j.Scheduled twoStores x (.done (.ok .empty)) y) ∧
    ∀ r y, twoStores.Schedules both [] (twoStoresState 9) (.done r) y →
      r = .ok .empty ∧ y.slot 0 = .int 1 ∧ y.slot 1 = .int 2 := by
  intro loop both
  have hb : countdown.Builtin := by decide
  have hb' : twoStores.Builtin := by decide
  have hnear : ∀ {v : Value}, countdown.Steady v [] (countdownState 2 7) :=
    .inl (near_of_nodes (by decide))
  have hfair : twoStores.Steady both [] (twoStoresState 7) :=
    .inr ⟨twoStores_grounded, twoStores_fair⟩
  have hloop : countdown.Evaluates loop [] (countdownState 2 7) (.ok .empty)
      (countdownState 0 7) := ⟨60, rfl⟩
  have hless : countdown.Evaluates (.node ⟨2, "less"⟩) [] (countdownState 2 7) (.ok (.int 1))
      (countdownState 2 7) := ⟨20, rfl⟩
  obtain ⟨z, hz, hleft, hright⟩ : ∃ z, twoStores.Evaluates both [] (twoStoresState 7)
      (.ok .empty) z ∧ z.slot 0 = .int 1 ∧ z.slot 1 = .int 2 := ⟨_, ⟨40, rfl⟩, rfl, rfl⟩
  obtain ⟨hframe, hloops⟩ := @evaluation_footprint countdown loop [] (countdownState 2 7) hb
  obtain ⟨-, hdown⟩ :=
    @evaluation_footprint countdown (.node ⟨2, "less"⟩) [] (countdownState 2 7) hb
  obtain ⟨-, hstores⟩ := @evaluation_footprint twoStores both [] (twoStoresState 7) hb'
  obtain ⟨-, hcount⟩ := (hloops hnear _ _ (schedules_of_evaluates hloop)).1
    (countdownState 2 9) rfl fun i hi => by rw [(countdown_reads i).1 hi]; rfl
  obtain ⟨hends, hsame⟩ := (hstores hfair _ _ (schedules_of_evaluates hz)).1
    (twoStoresState 9) rfl fun i hi => by rcases (twoStores_reads i).1 hi with rfl | rfl <;> rfl
  refine ⟨hb, hb', hnear, hfair, fun j z hj => (hframe j z hj).1 1 fun hw => ?_,
    fun r y hy => ?_, fun rs y hr => ?_, hends, fun r y hy => ?_⟩
  · have hmem : 1 ∈ [0, 2, 3, 4] := mem_of_reaches rfl rfl (reaches_of_writes hw)
    exact absurd hmem (by decide)
  · obtain ⟨rfl, hslots⟩ := hcount r y hy
    exact ⟨rfl, hslots (.inr ⟨_, rfl⟩) 0 ((countdown_reads 0).2 rfl)⟩
  · have hno : ¬ countdown.Stores (countdownState 2 7) [.node ⟨2, "less"⟩] := by
      rintro ⟨k, n, hk, hn, hp⟩
      have hmem : k ∈ [0, 2] := mem_of_reaches rfl rfl hk
      rcases List.mem_pair.1 hmem with rfl | rfl <;> cases hn <;> cases hp
    obtain ⟨hslots, hall, -⟩ := (hdown hnear _ _ (schedules_of_evaluates hless)).2 hno rs y hr
    exact ⟨hslots, hall⟩
  · obtain ⟨rfl, hslots⟩ := hsame r y hy
    have hslots := hslots (.inr ⟨_, rfl⟩)
    exact ⟨rfl, (hslots 0 ((twoStores_reads 0).2 (.inl rfl))).trans hleft,
      (hslots 1 ((twoStores_reads 1).2 (.inr rfl))).trans hright⟩

end ArrayGraph
