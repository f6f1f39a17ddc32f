import ArrayGraph.Proofs.Evaluation.Agreement
import ArrayGraph.Proofs.Session.Reachable
import Mathlib.Data.List.Basic
/-!
# Turns end

Whoever runs a job until it is finished or suspended gets it back: only a loop can go on
for ever, and a loop is suspended before each further round. `pauses_of_within` says so
of every job of a grounded graph. First, by induction on the node (`ready_below`), it is
shown of the jobs of all operands: an operand and the first content of a slot are older
than their node, and a value that was stored is no handle. What a node evaluates of its
arguments is evaluated without arguments, so arguments come in one layer only.
-/

namespace ArrayGraph

variable {g : Graph}

/-- The job has had its turn: it is finished, or lets the jobs beside it run. -/
def Progress.Paused : Progress → Prop
  | .moved _ => False
  | _ => True

/-- The turn of the job ends, from whatever grounded state it is run. -/
def Job.Pauses (g : Graph) (j : Job) : Prop :=
  j.Within .all ∧ ∀ w, g.Grounded w → ∃ p z, j.ComesTo g w p z ∧ p.Paused

/-- The turn of the job of the operand ends, whenever it is launched. -/
def Graph.Ready (g : Graph) (v : Value) (args : List Value) : Prop :=
  ∀ w, g.Grounded w → (g.launch v args w).1.Pauses g

/-! ## Jobs that wait -/

theorem pauses_grounded {j : Job} {w : World} (hj : j.Pauses g) (hw : g.Grounded w) :
    ∃ p z, j.ComesTo g w p z ∧ p.Paused ∧ p.Within .all ∧ g.Grounded z := by
  obtain ⟨p, z, h, hp⟩ := hj.2 w hw
  obtain ⟨hs, hk⟩ := comesTo_within h hj.1 (hw.tame.closed_all w)
  exact ⟨p, z, h, hp, hs, hw.kept hk⟩

theorem pauses_done {r : Outcome} (hr : r.Sane) : (Job.done r).Pauses g :=
  ⟨.done hr, fun w _ => ⟨.finished r, w, .now rfl, trivial⟩⟩

theorem pauses_fail {site : Site} {c : Cause} (hc : ∀ k, c ≠ .notCondition k) :
    (Job.done (.fail site c)).Pauses g := pauses_done (sane_fail hc)

theorem pauses_rest {l : Loop} {last : Value} (hl : l.Within .all) (hv : last.Plain) :
    (Job.rest l last).Pauses g :=
  ⟨.rest hl hv, fun w _ => ⟨.suspended (.round l last), w, .now rfl, trivial⟩⟩

/-- A turn of a job that waits ends if that of the job it waits for does, and that of
what this leads to does. -/
theorem pauses_waiting {k : Frame} {j : Job} (hk : k.Within .all) (hj : j.Pauses g)
    (hr : ∀ v w, v.Plain → g.Grounded w → (k.resume g v w).1.Pauses g) :
    (Job.waiting k j).Pauses g := by
  refine ⟨.waiting hk hj.1, fun w hw => ?_⟩
  obtain ⟨p, z, h, hp, hs, hz⟩ := pauses_grounded hj hw
  have hc := comesTo_waiting (k := k) h
  cases p with
  | finished r =>
    cases r with
    | error e => exact ⟨_, z, hc, trivial⟩
    | ok v =>
      have hz' : g.Grounded (k.resume g v z).2 :=
        hz.kept ((resume_action hk hs).within (hz.tame.closed_all z)).2
      obtain ⟨p, z', h', hp'⟩ := (hr v z hs hz).2 _ hz'
      exact ⟨p, z', hc.trans h', hp'⟩
  | moved j' => exact hp.elim
  | suspended j' => exact ⟨_, z, hc, trivial⟩

theorem pauses_placed {id : LocalityId} {site : Site} {j : Job} (hj : j.Pauses g) :
    (Job.placed id site j).Pauses g := by
  refine ⟨.placed hj.1, fun w hw => ?_⟩
  obtain ⟨p, z, h, hp⟩ := hj.2 w hw
  refine ⟨p.reported id site, z, comesTo_placed h, ?_⟩
  cases p with
  | finished r => trivial
  | moved j' => exact hp.elim
  | suspended j' => trivial

theorem pauses_dispatch {l : Locality} {site : Site} {j : Job} {w : World} (hj : j.Pauses g) :
    (l.dispatch site j w).1.Pauses g := by
  unfold Locality.dispatch
  split
  · exact hj
  · exact hj
  · split
    · exact pauses_placed hj
    · exact pauses_fail fun _ => Cause.noConfusion

/-- A round of a join ends if the turn of each operand does. -/
theorem joined_comesTo {k : Join} {turned : List Job} {j : Job} {coming : List Job} {w : World}
    (hj : j.Pauses g) (hc : ∀ c ∈ coming, c.Pauses g) (hw : g.Grounded w) :
    ∃ p z, (Job.joined k turned j coming).ComesTo g w p z ∧ p.Paused := by
  induction coming generalizing turned j w with
  | nil =>
    obtain ⟨p, z, h, hp, -, -⟩ := pauses_grounded hj hw
    refine ⟨_, z, comesTo_joined h, ?_⟩
    have hturn : ∀ jobs, (k.turn jobs []).Paused := by
      intro jobs
      simp only [Join.turn]
      split <;> trivial
    cases p with
    | finished r =>
      cases r with
      | error e => trivial
      | ok v => exact hturn _
    | moved j' => exact hp.elim
    | suspended j' => exact hturn _
  | cons c coming ih =>
    rw [List.forall_mem_cons] at hc
    obtain ⟨p, z, h, hp, -, hz⟩ := pauses_grounded hj hw
    have hcome : (Job.joined k turned j (c :: coming)).ComesTo g w
        (k.after turned (c :: coming) p) z := comesTo_joined h
    -- unless it failed, the next operand has its turn
    have hnext : ∀ j', k.after turned (c :: coming) p = .moved (.joined k (j' :: turned) c coming) →
        ∃ p z, (Job.joined k turned j (c :: coming)).ComesTo g w p z ∧ p.Paused := by
      intro j' he
      obtain ⟨p', z', h', hp'⟩ := @ih (j' :: turned) c z hc.1 hc.2 hz
      rw [he] at hcome
      exact ⟨p', z', hcome.trans h', hp'⟩
    cases p with
    | finished r =>
      cases r with
      | error e => exact ⟨_, z, hcome, trivial⟩
      | ok v => exact hnext _ rfl
    | moved j' => exact hp.elim
    | suspended j' => exact hnext _ rfl

theorem pauses_start_join {k : Join} {jobs : List Job} (hj : ∀ j ∈ jobs, j.Pauses g) :
    (k.start jobs).Pauses g := by
  refine ⟨start_within fun j hm => (hj j hm).1, fun w hw => ?_⟩
  cases jobs with
  | nil => exact ⟨_, w, .now rfl, trivial⟩
  | cons j coming =>
    rw [List.forall_mem_cons] at hj
    exact joined_comesTo hj.1 hj.2 hw

/-! ## What happens at once -/

theorem ready_plain {v : Value} {args : List Value} (hv : v.Plain) : g.Ready v args := by
  intro w _
  cases v with
  | node h => cases hv
  | _ => exact pauses_done rfl

theorem pauses_join {k : Join} {vs args : List Value} {w : World} (hv : ∀ v ∈ vs, g.Ready v args)
    (hw : g.Grounded w) : (g.join k vs args w).1.Pauses g := by
  rw [join_eq, launchAll_jobs rfl]
  exact pauses_start_join (List.forall_mem_map.2 fun v hm => hv v hm w hw)

/-- What a loop evaluates is ready. -/
structure Loop.Ready (g : Graph) (l : Loop) : Prop where
  condition : g.Ready l.condition l.args
  body : g.Ready l.body l.args
  step : ∀ v, l.step = some v → g.Ready v l.args

/-- What a frame goes on with is ready. -/
def Frame.Ready (g : Graph) : Frame → Prop
  | .constantName _ | .store _ => True
  | .choice _ args yes no =>
    (∀ v, yes = some v → g.Ready v args) ∧ ∀ v, no = some v → g.Ready v args
  | .block args rest => ∀ v ∈ rest, g.Ready v args
  | .loopInit l | .loopBody l => l.Ready g
  | .loopCondition l last | .loopStep l last => l.Ready g ∧ last.Plain

theorem loop_within_all (l : Loop) : l.Within .all :=
  ⟨trivial, given_all _, within_all _, within_all _, fun _ _ => within_all _⟩

theorem Frame.Ready.within {k : Frame} (hk : k.Ready g) : k.Within .all := by
  cases k with
  | constantName | store => trivial
  | choice => exact ⟨given_all _, fun _ _ => within_all _, fun _ _ => within_all _⟩
  | block => exact ⟨given_all _, withinAll_all _⟩
  | loopInit l | loopBody l => exact loop_within_all l
  | loopCondition l last | loopStep l last => exact ⟨loop_within_all l, hk.2⟩

theorem pauses_block {args rest : List Value} {j : Job} (hj : j.Pauses g)
    (hr : ∀ v ∈ rest, g.Ready v args) : (Job.waiting (.block args rest) j).Pauses g := by
  induction rest generalizing j with
  | nil => exact pauses_waiting (Frame.Ready.within hr) hj fun v w hv _ => pauses_done hv
  | cons v rest ih =>
    have hk : (Frame.block args (v :: rest)).Ready g := hr
    rw [List.forall_mem_cons] at hr
    exact pauses_waiting hk.within hj fun x w _ hw => ih (hr.1 w hw) hr.2

theorem pauses_loopBody {l : Loop} (hl : l.Ready g) {v : Value} {w : World} (hv : v.Plain)
    (hw : g.Grounded w) : ((Frame.loopBody l).resume g v w).1.Pauses g := by
  have hk : ∀ last : Value, last.Plain → (Frame.loopStep l last).Ready g := fun _ h => ⟨hl, h⟩
  simp only [Frame.resume]
  cases hs : l.step with
  | none => exact pauses_rest (loop_within_all l) hv
  | some step =>
    exact pauses_waiting (hk v hv).within (hl.step step hs w hw)
      fun x z _ _ => pauses_rest (loop_within_all l) hv

theorem pauses_loopCondition {l : Loop} (hl : l.Ready g) {v last : Value} {w : World}
    (hv : v.Plain) (hlast : last.Plain) (hw : g.Grounded w) :
    ((Frame.loopCondition l last).resume g v w).1.Pauses g := by
  obtain ⟨b, hb⟩ := truthy_of_plain hv
  simp only [Frame.resume, hb]
  cases b with
  | true =>
    exact pauses_waiting (loop_within_all l) (hl.body w hw) fun x z hx hz =>
      pauses_loopBody hl hx hz
  | false => exact pauses_done hlast

/-- A loop is suspended before its next round. -/
theorem pauses_round {l : Loop} {last : Value} (hl : l.Ready g) (hv : last.Plain) :
    (Job.round l last).Pauses g := by
  refine ⟨.round (loop_within_all l) hv, fun w hw => ?_⟩
  have hk : (Frame.loopCondition l last).Ready g := ⟨hl, hv⟩
  have hj := pauses_waiting hk.within (hl.condition w hw)
    fun x z hx hz => pauses_loopCondition hl hx hv hz
  have hw' : g.Grounded (g.launch l.condition l.args w).2 :=
    hw.kept (.of_slots (launch_slots ..) : w.Kept .all _)
  obtain ⟨p, z, hc, hp⟩ := hj.2 _ hw'
  exact ⟨p, z, .later rfl hc, hp⟩

/-- The turn of what a frame does with a value ends. -/
theorem pauses_resume {k : Frame} {v : Value} {w : World} (hk : k.Ready g) (hv : v.Plain)
    (hw : g.Grounded w) : (k.resume g v w).1.Pauses g := by
  cases k with
  | constantName site =>
    cases v with
    | str name => exact pauses_done (sane_constantNamed ..)
    | _ => exact pauses_fail fun _ => Cause.noConfusion
  | store target => exact pauses_done rfl
  | choice site args yes no =>
    obtain ⟨b, hb⟩ := truthy_of_plain hv
    simp only [Frame.resume, hb]
    cases hc : if b then yes else no with
    | none => exact pauses_done rfl
    | some branch =>
      cases b
      · exact hk.2 branch hc w hw
      · exact hk.1 branch hc w hw
  | block args rest =>
    cases rest with
    | nil => exact pauses_done hv
    | cons next rest =>
      have hr : ∀ v ∈ next :: rest, g.Ready v args := hk
      rw [List.forall_mem_cons] at hr
      exact pauses_block (hr.1 w hw) hr.2
  | loopInit l => exact pauses_round hk rfl
  | loopCondition l last => exact pauses_loopCondition hk.1 hv hk.2 hw
  | loopBody l => exact pauses_loopBody hk hv hw
  | loopStep l last => exact pauses_rest (loop_within_all l) hk.2

theorem pauses_await {k : Frame} {v : Value} {args : List Value} {w : World} (hk : k.Ready g)
    (hv : g.Ready v args) (hw : g.Grounded w) : (g.await k v args w).1.Pauses g :=
  pauses_waiting hk.within (hv w hw) fun _ _ hx hz => pauses_resume hk hx hz

/-! ## First actions -/

theorem ready_bind {n : Node} {args : List Value} (ho : ∀ v ∈ n.operands, g.Ready v args)
    (ha : ∀ a ∈ args, g.Ready a []) : ∀ v ∈ (n.bind args).1, g.Ready v (n.bind args).2 := by
  unfold Node.bind
  split
  · exact ha
  · exact ho

/-- The turn of what a node does first ends, if its operands are ready, its arguments are
when they are evaluated without arguments, and what its slot holds is. -/
theorem pauses_run {n : Node} {content : Value} {args : List Value} {w : World}
    (hw : g.Grounded w) (hn : n.Tame) (ho : ∀ v ∈ n.operands, g.Ready v args)
    (ha : ∀ a ∈ args, g.Ready a []) (hc : n.primitive = .variable → g.Ready content args) :
    (n.run g content args w).1.Pauses g := by
  have hbind := ready_bind ho ha
  have hfirst := run_first n g content args
  generalize n.run g content args = first at hfirst ⊢
  cases hfirst with
  | named => exact pauses_done (sane_constantNamed ..)
  | name _ hv => exact pauses_await trivial (hbind _ (by simp [hv])) hw
  | slot hp => exact hc hp w hw
  | store _ hops => exact pauses_await trivial (ho _ (by simp [hops])) hw
  | argument _ hx => exact ha _ (List.mem_of_getElem? hx) w hw
  | missing | refused => exact pauses_fail fun _ => Cause.noConfusion
  | join => exact pauses_join hbind hw
  | forLoop _ hops =>
    simp only [hops, List.forall_mem_cons] at ho
    have hl : Loop.Ready g ⟨n.site, args, _, _, some _⟩ :=
      ⟨ho.2.1, ho.2.2.2.1, fun v hv => by cases hv; exact ho.2.2.1⟩
    exact pauses_await (k := .loopInit _) hl ho.1 hw
  | whileLoop _ hops =>
    simp only [hops, List.forall_mem_cons] at ho
    exact pauses_round ⟨ho.1, ho.2.1, fun v hv => by cases hv⟩ rfl
  | @choice condition branches _ hops =>
    rw [hops, List.forall_mem_cons] at ho
    have hb : ∀ i v, branches[i]? = some v → g.Ready v args :=
      fun i v hi => ho.2 v (List.mem_of_getElem? hi)
    exact pauses_await (k := .choice ..) ⟨hb 0, hb 1⟩ ho.1 hw
  | block _ hops =>
    rw [hops, List.forall_mem_cons] at ho
    exact pauses_block (ho.1 w hw) ho.2
  | trace hp => simp only [Node.Tame, hp] at hn
  | echo hp =>
    simp only [Node.Tame, hp] at hn
    obtain ⟨v, rest, hops, hv⟩ := hn
    rw [bind_of_operands (by simp [hops]), hops]
    exact pauses_done hv
  | empty | threadName => exact pauses_done rfl
  | panic => exact pauses_done trivial

theorem node_within_all {n : Node} (hn : n.Tame) : n.Within .all :=
  ⟨hn, withinAll_all _, fun _ _ _ _ => trivial, fun _ => trivial, fun _ => trivial⟩

theorem pauses_start {n : Node} {content : Value} {args : List Value} (hn : n.Tame)
    (ho : ∀ v ∈ n.operands, g.Ready v args) (ha : ∀ a ∈ args, g.Ready a [])
    (hc : n.primitive = .variable → g.Ready content args) :
    (Job.start n content args).Pauses g := by
  have hin : n.Within .all := node_within_all hn
  refine ⟨.start hin (fun _ => within_all _) (given_all _), fun w hw => ?_⟩
  have hk := (run_action hin (fun _ => within_all content) (given_all args)).within
    (hw.tame.closed_all w)
  obtain ⟨p, z, hcome, hp⟩ := (pauses_run hw hn ho ha hc).2 _ (hw.kept hk.2)
  exact ⟨p, z, .later rfl hcome, hp⟩

/-! ## All operands and jobs -/

/-- Operands that refer to the first `k` nodes are ready, by induction on `k`: what a
node evaluates besides its arguments is older than the node. -/
theorem ready_below {w₀ : World} (hg : g.Grounded w₀) {args : List Value}
    (ha : ∀ a ∈ args, g.Ready a []) (k : Nat) : ∀ v, v.Below k → g.Ready v args := by
  induction k with
  | zero =>
    intro v hv
    refine ready_plain ?_
    cases v with
    | node h => exact absurd (hv h rfl) (by omega)
    | _ => rfl
  | succ k ih =>
    intro v hv
    cases v with
    | node h =>
      have hlt : h.index < k + 1 := hv h rfl
      intro w hw
      simp only [Graph.launch]
      split
      · rename_i n hn
        have ho : ∀ v ∈ n.operands, g.Ready v args := by
          intro v hv'
          refine ih v fun h' he => ?_
          have := hg.ordered h.index n hn v hv' h' he
          omega
        have ht := hg.tame n (Array.mem_of_getElem? hn)
        refine pauses_dispatch (pauses_start ht ho ha fun hp => ?_)
        -- the slot holds the operand of the variable, or what was stored
        rcases hw.slots h.index n hn hp with he | hs
        · exact ho _ (by rw [he]; exact List.mem_singleton_self _)
        · exact ready_plain hs
      · exact pauses_done trivial
    | _ => exact ready_plain rfl

theorem exists_below (v : Value) : ∃ k, v.Below k := by
  cases v with
  | node h => exact ⟨h.index + 1, fun h' he => by cases he; exact Nat.lt_succ_self _⟩
  | _ => exact ⟨0, fun h' he => by cases he⟩

/-- All operands of a grounded graph are ready, whatever the arguments are. -/
theorem Graph.Grounded.ready {w₀ : World} (hg : g.Grounded w₀) (v : Value) (args : List Value) :
    g.Ready v args := by
  -- first without arguments, then with arguments that are evaluated without any
  have hbare : ∀ v, g.Ready v [] := fun v => by
    obtain ⟨k, hk⟩ := exists_below v
    exact ready_below hg (List.forall_mem_nil _) k v hk
  obtain ⟨k, hk⟩ := exists_below v
  exact ready_below hg (fun a _ => hbare a) k v hk

theorem Frame.Within.all {S : Scope} {k : Frame} (hk : k.Within S) : k.Within .all := by
  cases k with
  | constantName | store => trivial
  | choice => exact ⟨given_all _, fun _ _ => within_all _, fun _ _ => within_all _⟩
  | block => exact ⟨given_all _, withinAll_all _⟩
  | loopInit l | loopBody l => exact loop_within_all l
  | loopCondition l last | loopStep l last => exact ⟨loop_within_all l, hk.2⟩

theorem Job.Within.all {S : Scope} {j : Job} (hj : j.Within S) : j.Within .all := by
  induction hj with
  | done hr => exact .done hr
  | start hn _ _ => exact .start (node_within_all hn.tame) (fun _ => within_all _) (given_all _)
  | round _ hv => exact .round (loop_within_all _) hv
  | rest _ hv => exact .rest (loop_within_all _) hv
  | waiting hk _ ih => exact .waiting hk.all ih
  | joined _ _ _ _ iht ih ihc => exact .joined iht (fun _ _ _ => trivial) ih ihc
  | placed _ ih => exact .placed ih

/-- Every turn of every job ends. -/
theorem pauses_of_within {w₀ : World} (hg : g.Grounded w₀) {j : Job} (hj : j.Within .all) :
    j.Pauses g := by
  have hloop : ∀ l : Loop, l.Ready g :=
    fun l => ⟨hg.ready _ _, hg.ready _ _, fun _ _ => hg.ready _ _⟩
  have hframe : ∀ k : Frame, k.Within .all → k.Ready g := by
    intro k hk
    cases k with
    | constantName | store => trivial
    | choice => exact ⟨fun _ _ => hg.ready _ _, fun _ _ => hg.ready _ _⟩
    | block => exact fun _ _ => hg.ready _ _
    | loopInit l | loopBody l => exact hloop l
    | loopCondition l last | loopStep l last => exact ⟨hloop l, hk.2⟩
  induction hj with
  | done hr => exact pauses_done hr
  | start hn _ _ =>
    exact pauses_start hn.tame (fun _ _ => hg.ready _ _) (fun _ _ => hg.ready _ _)
      fun _ => hg.ready _ _
  | round _ hv => exact pauses_round (hloop _) hv
  | rest hl hv => exact pauses_rest hl hv
  | waiting hk _ ih =>
    exact pauses_waiting hk ih fun _ _ hx hz => pauses_resume (hframe _ hk) hx hz
  | joined ht hl hj hc _ ih ihc =>
    exact ⟨.joined ht hl hj hc, fun w hw => joined_comesTo ih ihc hw⟩
  | placed _ ih => exact pauses_placed ih

end ArrayGraph
