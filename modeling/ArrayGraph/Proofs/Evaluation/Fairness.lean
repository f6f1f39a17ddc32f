import ArrayGraph.Proofs.Evaluation.Schedule
/-!
# Fair joins

A join is `Fair` if no operand of it writes what another one touches and no two of them
fail. If all joins that schedules come to are, no schedule makes a difference: at every
moment the job comes to what it came to at first (`scheduled_like`).
-/

namespace ArrayGraph

variable {g : Graph} {S : Scope} {w w' z : World}

/-! ## Jobs that are alike -/

theorem Job.Like.refl (j : Job) (w : World) : j.Like g w j w :=
  ⟨rfl, fun _ _ _ hz hz' => by rw [(hz.unique hz').2]⟩

theorem Job.Like.trans {j j' j'' : Job} {w'' : World} (h : j.Like g w j' w')
    (h' : j'.Like g w' j'' w'') : j.Like g w j'' w'' := by
  refine ⟨h'.ends.trans h.ends, fun v z z'' hz hz'' => ?_⟩
  have hgives : j'.Gives g w' (.ok v) := by
    rw [h.ends]
    exact ⟨z, hz⟩
  obtain ⟨z', hz'⟩ := hgives
  exact (h.slots v z z' hz hz').trans (h'.slots v z' z'' hz' hz'')

theorem like_step (j : Job) (w : World) :
    j.Like g w (j.step g w).1.rest (j.step g w).2 := by
  have hruns : ∀ r z, j.Runs g w r z ↔ (j.step g w).1.rest.Runs g (j.step g w).2 r z :=
    fun r z => (Job.runs_step rfl).trans runs_rest.symm
  refine ⟨funext fun r => propext (exists_congr fun z => (hruns r z).symm), ?_⟩
  intro v z z' hz hz'
  rw [(hz.unique ((hruns _ _).2 hz')).2]

theorem runs_of_slots {j : Job} {u : World} {r : Outcome} (ht : g.Tame) (hj : j.Within S)
    (h : u.slots = w.slots) (hr : j.Runs g u r z) : ∃ z', j.Runs g w r z' ∧ z.slots = z'.slots := by
  obtain ⟨z', hz', hag⟩ := runs_agree hj.all (ht.closed_all u) (World.agree_of_slots h) hr
  exact ⟨z', hz', World.slots_ext hag.size fun i => hag.slot i trivial⟩

theorem runs_frame_after {k : Frame} {p : Progress} {r : Outcome} :
    (k.after g p w).1.rest.Runs g (k.after g p w).2 r z ↔ (Job.waiting k p.rest).Runs g w r z := by
  cases p with
  | finished r' => exact runs_rest.trans (Job.runs_step (step_waiting k (.done r') w)).symm
  | moved j | suspended j => exact Iff.rfl

theorem runs_reported {id : LocalityId} {site : Site} {p : Progress} {r : Outcome} :
    (p.reported id site).rest.Runs g w r z ↔ (Job.placed id site p.rest).Runs g w r z := by
  cases p with
  | finished r' => exact runs_rest.trans (Job.runs_step (step_placed id site (.done r') w)).symm
  | moved j | suspended j => exact Iff.rfl

/-- The frame does the same with the value of a job and with that of another like it. -/
theorem runs_waiting_like {k : Frame} {j j' : Job} {r : Outcome} (ht : g.Tame) (hk : k.Within S)
    (hj : j.Within S) (hc : S.Closed g w) (hl : j.Like g w j' w')
    (hr : (Job.waiting k j).Runs g w r z) :
    ∃ z', (Job.waiting k j').Runs g w' r z' ∧ ∀ v, r = .ok v → z.slots = z'.slots := by
  obtain ⟨r₁, w₁, h₁, h₂⟩ := runs_waiting.1 hr
  have hgives : j'.Gives g w' r₁ := by
    rw [hl.ends]
    exact ⟨w₁, h₁⟩
  obtain ⟨w₂, h₁'⟩ := hgives
  cases r₁ with
  | error e =>
    obtain ⟨rfl, -⟩ := h₂
    exact ⟨w₂, runs_waiting.2 ⟨_, w₂, h₁', rfl, rfl⟩, fun v he => by cases he⟩
  | ok v =>
    have hslots := hl.slots v w₁ w₂ h₁ h₁'
    obtain ⟨hv, hkept⟩ := runs_within h₁ hj hc
    have hin : (k.resume g v w₁).1.Within S :=
      ((resume_action hk hv).within (hc.kept hkept)).1
    obtain ⟨hjob, hag⟩ := (resume_action (g := g) hk.all hv).agree (World.agree_of_slots hslots)
    have hslots' := World.slots_ext hag.size fun i => hag.slot i trivial
    obtain ⟨z', hz', hzz⟩ := runs_of_slots ht hin hslots' h₂
    rw [hjob] at hz'
    exact ⟨z', runs_waiting.2 ⟨_, w₂, h₁', hz'⟩, fun _ _ => hzz⟩

theorem Job.Like.symm {j j' : Job} (h : j.Like g w j' w') : j'.Like g w' j w :=
  ⟨h.ends.symm, fun v z z' hz hz' => (h.slots v z' z hz' hz).symm⟩

/-- Jobs that come to the same ends are alike if they leave the same slots when one runs. -/
theorem like_of_runs {j j' : Job}
    (h : ∀ r z, j.Runs g w r z → ∃ z', j'.Runs g w' r z' ∧ ∀ v, r = .ok v → z.slots = z'.slots)
    (h' : ∀ r z', j'.Runs g w' r z' → j.Gives g w r) : j.Like g w j' w' := by
  constructor
  · funext r
    refine propext ⟨fun ⟨z', hz'⟩ => h' r z' hz', fun ⟨z, hz⟩ => ?_⟩
    obtain ⟨z', hz', -⟩ := h r z hz
    exact ⟨z', hz'⟩
  · intro v z z' hz hz'
    obtain ⟨z₁, hz₁, hs⟩ := h _ z hz
    rw [(hz'.unique hz₁).2]
    exact hs v rfl

theorem like_waiting {k : Frame} {j j' : Job} (ht : g.Tame) (hk : k.Within S) (hj : j.Within S)
    (hc : S.Closed g w) (hj' : j'.Within S) (hc' : S.Closed g w') (hl : j.Like g w j' w') :
    (Job.waiting k j).Like g w (.waiting k j') w' := by
  refine like_of_runs (fun r z hz => runs_waiting_like ht hk hj hc hl hz) fun r z' hz' => ?_
  obtain ⟨z, hz, -⟩ := runs_waiting_like ht hk hj' hc' hl.symm hz'
  exact ⟨z, hz⟩

theorem like_placed {id : LocalityId} {site : Site} {j j' : Job} (hl : j.Like g w j' w') :
    (Job.placed id site j).Like g w (.placed id site j') w' := by
  have hforth : ∀ {j j' : Job} {w w' : World}, j.Like g w j' w' → ∀ r z,
      (Job.placed id site j).Runs g w r z → ∃ z', (Job.placed id site j').Runs g w' r z' ∧
        ∀ v, r = .ok v → z.slots = z'.slots := by
    intro j j' w w' hl r z hz
    obtain ⟨r₁, h₁, rfl⟩ := runs_placed_iff.1 hz
    have hgives : j'.Gives g w' r₁ := by
      rw [hl.ends]
      exact ⟨z, h₁⟩
    obtain ⟨z', h₁'⟩ := hgives
    refine ⟨z', runs_placed h₁', fun v hv => ?_⟩
    rcases r₁ with (e | -) | x
    · cases hv
    · cases hv
    · exact hl.slots x z z' h₁ h₁'
  refine like_of_runs (hforth hl) fun r z' hz' => ?_
  obtain ⟨z, hz, -⟩ := hforth hl.symm r z' hz'
  exact ⟨z, hz⟩

theorem Job.Like.congr {j j' j'' : Job} {w'' : World} (h : j.Like g w j' w')
    (he : ∀ r z, j''.Runs g w'' r z ↔ j'.Runs g w' r z) : j.Like g w j'' w'' := by
  refine ⟨?_, fun v z z' hz hz' => h.slots v z z' hz ((he _ _).1 hz')⟩
  rw [← h.ends]
  exact funext fun r => propext (exists_congr fun z => he r z)

/-! ## What threads keep apart -/

/-- Evaluated alone under these arguments, the operand fails. -/
def Graph.Fails (g : Graph) (w : World) (v : Value) (args : List Value) : Prop :=
  ∃ h z, g.Evaluates v args w (.error h) z

/-- No variable that one of the operands stores is reachable from another, and no two of
them fail. -/
def Graph.Fair (g : Graph) (w : World) (operands args : List Value) : Prop :=
  operands.Pairwise fun a b =>
    (g.span w a args).Apart (g.span w b args) ∧ ¬ (g.Fails w a args ∧ g.Fails w b args)

/-- Where no node takes arguments, operands are apart under any. -/
theorem apart_span {a b : Value} {args : List Value} (hn : ∀ n ∈ g.nodes, ¬ n.TakesArgs)
    (h : (g.reach w [a]).Apart (g.reach w [b])) : (g.span w a args).Apart (g.span w b args) := by
  have hno : ∀ v, ¬ g.TakesArgs w [v] := fun v ⟨k, n, _, hk, ht⟩ =>
    hn n (Array.mem_of_getElem? hk) ht
  constructor
  · rintro i (hi | ⟨ht, -⟩) (hi' | ⟨ht', -⟩)
    · exact h.1 i hi hi'
    · exact hno b ht'
    · exact hno a ht
    · exact hno a ht
  · rintro i (hi | ⟨ht, -⟩) (hi' | ⟨ht', -⟩)
    · exact h.2 i hi hi'
    · exact hno a ht'
    · exact hno b ht
    · exact hno b ht

/-- Part of the job is about to begin this node under these arguments. -/
inductive Job.Begins : Job → Node → List Value → Prop
  | start {n content args} : Begins (.start n content args) n args
  | waiting {k j n args} : Begins j n args → Begins (.waiting k j) n args
  | turned {k turned t j coming n args} : t ∈ turned → Begins t n args →
      Begins (.joined k turned j coming) n args
  | joined {k turned j coming n args} : Begins j n args →
      Begins (.joined k turned j coming) n args
  | coming {k turned j c coming n args} : c ∈ coming → Begins c n args →
      Begins (.joined k turned j coming) n args
  | placed {id site j n args} : Begins j n args → Begins (.placed id site j) n args

/-- A node that joins its operands, once it begins, joins such as a schedule may not
tell apart. -/
def Job.FairNext (g : Graph) (w : World) (j : Job) : Prop :=
  ∀ n ∈ g.nodes, ∀ args, j.Begins n args → n.join?.isSome = true →
    g.Fair w (n.bind args).1 (n.bind args).2

/-- Joins within the job are of crews. -/
inductive Job.Parted (g : Graph) (w : World) : Scope → Job → Prop
  | done {S r} : Parted g w S (.done r)
  | start {S n content args} : n ∈ g.nodes → Parted g w S (.start n content args)
  | round {S l last} : Parted g w S (.round l last)
  | rest {S l last} : Parted g w S (.rest l last)
  | waiting {S k j} : Parted g w S j → Parted g w S (.waiting k j)
  | joined {S : Scope} {k : Join} {team : List Member} {j : Job} : k.Over team j → Crew g team w →
      (∀ t ∈ team, ∀ i, t.scope.node i → S.node i) → (∀ t ∈ team, t.scope.loops) →
      (∀ t ∈ team, Parted g w t.scope t.job) → Parted g w S j
  | placed {S id site j} : Parted g w S j → Parted g w S (.placed id site j)

theorem World.Agree.mono {T : Scope} (h : w.Agree S w') (hT : ∀ i, T.node i → S.node i) :
    w.Agree T w' := ⟨h.size, fun i hi => h.slot i (hT i hi)⟩

theorem Crew.of_agree {team : List Member} (hc : Crew g team w)
    (h : ∀ t ∈ team, w.Agree t.scope w') : Crew g team w' where
  within := hc.within
  closed t ht := (hc.closed t ht).agree (h t ht)
  apart := hc.apart
  own := hc.own
  single := by
    have hends : endsOf g w' team = endsOf g w team :=
      List.map_congr_left fun t ht =>
        (gives_agree (hc.within t ht) (hc.closed t ht) (h t ht)).symm
    rw [hends]
    exact hc.single

theorem Job.Parted.agree {j : Job} (h : j.Parted g w S) (hw : w.Agree S w') :
    j.Parted g w' S := by
  induction h with
  | done => exact .done
  | start hn => exact .start hn
  | round => exact .round
  | rest => exact .rest
  | waiting _ ih => exact .waiting (ih hw)
  | joined ho hc hle hl _ ih =>
    have hag := fun t ht => hw.mono (hle t ht)
    exact .joined ho (hc.of_agree hag) hle hl fun t ht => ih t ht (hag t ht)
  | placed _ ih => exact .placed (ih hw)

theorem launch_parted (g : Graph) (v : Value) (args : List Value) (u w : World) :
    (g.launch v args u).1.Parted g w S := by
  cases v with
  | node h =>
    simp only [Graph.launch]
    split
    · rename_i n hn
      have hstart : (Job.start n (u.slot h.index) args).Parted g w S :=
        .start (Array.mem_of_getElem? hn)
      unfold Locality.dispatch
      split
      · exact hstart
      · exact hstart
      · split
        · exact .placed hstart
        · exact .done
    · exact .done
  | _ => exact .done

theorem await_parted (g : Graph) (k : Frame) (v : Value) (args : List Value) (u w : World) :
    (g.await k v args u).1.Parted g w S := .waiting (launch_parted ..)

theorem launch_fails (ht : g.Tame) {v : Value} {args : List Value} {h : Halt}
    (hf : (g.launch v args w).1.Gives g w (.error h)) : g.Fails w v args := by
  have hc := ht.closed_span (w := w) v args
  rw [gives_agree (launch_within hc (within_span v args) (given_span v args)) hc
    (World.agree_of_slots (launch_slots g v args w).symm)] at hf
  obtain ⟨z, hz⟩ := hf
  exact ⟨h, z, hz⟩

theorem crew_of_fair (ht : g.Tame) {operands args : List Value} (hf : g.Fair w operands args) :
    Crew g (g.crew w operands args) w where
  within := forall_crew.2 fun v _ =>
    launch_within (ht.closed_span v args) (within_span v args) (given_span v args)
  closed := forall_crew.2 fun v _ => ht.closed_span v args
  apart := List.pairwise_map.2 (hf.imp fun h => h.1)
  own := forall_crew.2 fun v _ i hi => node_of_slot_span hi
  single := by
    rw [endsOf, List.pairwise_map]
    refine List.pairwise_map.2 (hf.imp fun hab h h' ha hb => hab.2 ⟨?_, ?_⟩)
    · exact launch_fails ht ha
    · exact launch_fails ht hb

theorem join_parted (ht : g.Tame) (hc : S.Closed g w) {k : Join} {operands args : List Value}
    (ho : WithinAll S operands) (ha : S.Given args) (hf : g.Fair w operands args) :
    (g.join k operands args w).1.Parted g w S := by
  have hle : ∀ t ∈ g.crew w operands args, ∀ i, t.scope.node i → S.node i :=
    forall_crew.2 fun v hv i hi => span_le hc (ho v hv) ha hi
  have hloops : ∀ t ∈ g.crew w operands args, t.scope.loops := forall_crew.2 fun _ _ => trivial
  have hparted : ∀ t ∈ g.crew w operands args, t.job.Parted g w t.scope :=
    forall_crew.2 fun v _ => launch_parted ..
  rw [join_eq, launchAll_crew]
  cases operands with
  | nil => exact .done
  | cons v operands =>
    exact .joined (start_over (List.cons_ne_nil _ _)) (crew_of_fair ht hf) hle hloops hparted

/-- What a node does first puts no operands side by side but those of a fair join. -/
theorem run_parted (ht : g.Tame) (hc : S.Closed g w) {n : Node} (hn : n.Within S)
    {content : Value} {args : List Value} (ha : S.Given args)
    (hf : n.join?.isSome = true → g.Fair w (n.bind args).1 (n.bind args).2) :
    (n.run g content args w).1.Parted g w S := by
  obtain ⟨-, ho, -, -, htakes⟩ := hn
  have hfirst := run_first n g content args
  generalize n.run g content args = first at hfirst ⊢
  cases hfirst with
  | named | missing | refused | empty | echo | threadName | panic => exact .done
  | slot | argument | trace => exact launch_parted ..
  | name | store | forLoop | choice | block => exact await_parted ..
  | whileLoop => exact .round
  | join hk =>
    obtain ⟨hb, hb'⟩ := bind_within ho ha fun he => htakes (.inr ⟨he, builtin_of_join? hk⟩)
    exact join_parted ht hc hb hb' (hf (by rw [hk]; rfl))

theorem resume_parted (k : Frame) (v : Value) (w w' : World) :
    (k.resume g v w).1.Parted g w' S := by
  cases k with
  | constantName site => cases v <;> exact .done
  | store target => exact .done
  | choice site args yes no =>
    simp only [Frame.resume]
    cases v.truthy? with
    | none => exact .done
    | some b =>
      dsimp only
      cases if b then yes else no with
      | none => exact .done
      | some branch => exact launch_parted ..
  | block args rest =>
    cases rest with
    | nil => exact .done
    | cons next rest => exact await_parted ..
  | loopInit l => exact .round
  | loopCondition l last =>
    simp only [Frame.resume]
    cases v.truthy? with
    | none => exact .done
    | some b =>
      cases b with
      | true => exact await_parted ..
      | false => exact .done
  | loopBody l =>
    simp only [Frame.resume]
    cases l.step with
    | none => exact .rest
    | some step => exact await_parted ..
  | loopStep l last => exact .rest

/-! ## Schedules make no difference -/

theorem frame_after_parted {k : Frame} {p : Progress} (hp : p.rest.Parted g w S) :
    (k.after g p w).1.rest.Parted g (k.after g p w).2 S := by
  rcases p with (e | v) | j | j
  · exact .done
  · exact resume_parted ..
  · exact .waiting hp
  · exact .waiting hp

theorem reported_parted {id : LocalityId} {site : Site} {p : Progress}
    (hp : p.rest.Parted g w S) : (p.reported id site).rest.Parted g w S := by
  rcases p with r | j | j
  · exact .done
  · exact .placed hp
  · exact .placed hp

/-- A join of a crew is one still when a member has gone on by itself. -/
theorem parted_advance {k : Join} {before after : List Member} {s : Member} {j t : Job}
    (hc : Crew g (before ++ s :: after) w)
    (hle : ∀ t ∈ before ++ s :: after, ∀ i, t.scope.node i → S.node i)
    (hloops : ∀ t ∈ before ++ s :: after, t.scope.loops)
    (hp : ∀ t ∈ before ++ s :: after, t.job.Parted g w t.scope) (hin : t.Within s.scope)
    (hk : w.Kept s.scope w') (hl : s.job.Like g w t w') (ht : t.Parted g w' s.scope)
    (ho : k.Over (before ++ ⟨s.scope, t⟩ :: after) j) : j.Parted g w' S := by
  have hs : s ∈ before ++ s :: after := by simp
  have hbeside : ∀ t ∈ before ++ after, t.job.Parted g w' t.scope := fun t ht =>
    (hp t (mem_of_beside ht)).agree (hc.agree hk t ht)
  exact .joined ho (hc.advance hin hk fun r => by rw [hl.ends]).1
    (forall_replaced hle (hle s hs)) (forall_replaced hloops (hloops s hs))
    (forall_of_beside ht hbeside)

/-- Whatever is done in its turn, the job comes to the same as before. -/
theorem acts_like {j : Job} {p : Progress} (h : j.Acts g w p w') (hw : g.Grounded w)
    (hj : j.Within S) (hl : S.loops) (hc : S.Closed g w) (hp : j.Parted g w S)
    (hf : j.FairNext g w) : j.Like g w p.rest w' ∧ p.rest.Parted g w' S := by
  induction h generalizing S with
  | @step j w hsingle =>
    refine ⟨like_step j w, ?_⟩
    cases hj with
    | done => exact .done
    | @start n content args hn _ ha =>
      cases hp with
      | start hm =>
        have hrun : (n.run g content args w).1.Parted g w S :=
          run_parted hw.tame hc hn ha fun hk => hf n hm args .start hk
        exact hrun.agree (World.agree_of_slots (run_slots ..).symm)
      | joined ho => cases ho
    | round => exact await_parted ..
    | rest => exact .round
    | waiting | joined | placed => exact hsingle.elim
  | @waiting k j w p w' ha ih =>
    cases hj with
    | waiting hk hj =>
      cases hp with
      | waiting hp =>
        obtain ⟨hlike, hparted⟩ := ih hw hj hl hc hp fun n hn as hb => hf n hn as (.waiting hb)
        obtain ⟨hin, hkept⟩ := acts_within ha hj hl hc
        have hwaiting := like_waiting hw.tame hk hj hc (rest_within hin) (hc.kept hkept) hlike
        exact ⟨hwaiting.congr fun r z => runs_frame_after, frame_after_parted hparted⟩
      | joined ho => cases ho
  | @joined k turned j coming w p w' ha ih =>
    cases hp with
    | @joined _ _ team _ ho hcrew hle hloops hparted =>
      cases ho with
      | @turn before s after =>
        have hs : s ∈ before ++ s :: after := by simp
        obtain ⟨hlike, hparted'⟩ := ih hw (hcrew.within s hs) (hloops s hs) (hcrew.closed s hs)
          (hparted s hs) fun n hn as hb => hf n hn as (.joined hb)
        obtain ⟨hin, hkept⟩ := acts_within ha (hcrew.within s hs) (hloops s hs) (hcrew.closed s hs)
        have hleft := @after_left k before after s p
        refine ⟨over_like .turn hleft hcrew hw (hw.kept hkept) (rest_within hin) hkept hlike, ?_⟩
        have hover : ∀ {i}, k.Over (before ++ ⟨s.scope, p.rest⟩ :: after) i → i.Parted g w' S :=
          fun ho =>
            parted_advance hcrew hle hloops hparted (rest_within hin) hkept hlike hparted' ho
        generalize k.after (jobsOf before).reverse (jobsOf after) p = q at hleft
        cases hleft with
        | failed _ | finished _ => exact .done
        | moved ho | suspended ho => exact hover ho
  | @placed id site j w p w' ha ih =>
    cases hj with
    | placed hj =>
      cases hp with
      | placed hp =>
        obtain ⟨hlike, hparted⟩ := ih hw hj hl hc hp fun n hn as hb => hf n hn as (.placed hb)
        exact ⟨(like_placed hlike).congr fun r z => runs_reported, reported_parted hparted⟩
      | joined ho => cases ho
  | paused => exact ⟨.refl .., hp⟩

/-- A join of a crew comes to the same when the member at one place of it has gone on out of
turn. -/
theorem place_like {k : Join} {team : List Member} {j t t' : Job} {join : Job → Job}
    (hplace : k.Place team t join) (ho : k.Over team j) (hw : g.Grounded w) (hcrew : Crew g team w)
    (hle : ∀ t ∈ team, ∀ i, t.scope.node i → S.node i) (hloops : ∀ t ∈ team, t.scope.loops)
    (hparted : ∀ t ∈ team, t.job.Parted g w t.scope) (ha : t.Aside g w t' w')
    (hlike : ∀ {T : Scope}, g.Grounded w → t.Within T → T.loops → T.Closed g w →
      t.Parted g w T → t.FairNext g w → t.Like g w t' w' ∧ t'.Parted g w' T)
    (hf : t.FairNext g w) : j.Like g w (join t') w' ∧ (join t').Parted g w' S := by
  obtain ⟨before, s, after, rfl, rfl, hover⟩ := hplace
  have hs : s ∈ before ++ s :: after := by simp
  obtain ⟨hl, hp⟩ := hlike hw (hcrew.within s hs) (hloops s hs) (hcrew.closed s hs)
    (hparted s hs) hf
  obtain ⟨hin, hkept⟩ := aside_within ha (hcrew.within s hs) (hloops s hs) (hcrew.closed s hs)
  exact ⟨over_like ho (.moved (hover t')) hcrew hw (hw.kept hkept) hin hkept hl,
    parted_advance hcrew hle hloops hparted hin hkept hl hp (hover t')⟩

/-- Whatever is done out of turn, the job comes to the same as before. -/
theorem aside_like {j j' : Job} (h : j.Aside g w j' w') (hw : g.Grounded w) (hj : j.Within S)
    (hl : S.loops) (hc : S.Closed g w) (hp : j.Parted g w S) (hf : j.FairNext g w) :
    j.Like g w j' w' ∧ j'.Parted g w' S := by
  induction h generalizing S with
  | @spawned id site j w p w' ha =>
    cases hj with
    | placed hj =>
      cases hp with
      | placed hp =>
        obtain ⟨hlike, hparted⟩ :=
          acts_like ha hw hj hl hc hp fun n hn as hb => hf n hn as (.placed hb)
        exact ⟨like_placed hlike, .placed hparted⟩
      | joined ho => cases ho
  | within _ ih =>
    cases hj with
    | placed hj =>
      cases hp with
      | placed hp =>
        obtain ⟨hlike, hparted⟩ := ih hw hj hl hc hp fun n hn as hb => hf n hn as (.placed hb)
        exact ⟨like_placed hlike, .placed hparted⟩
      | joined ho => cases ho
  | waiting ha ih =>
    cases hj with
    | waiting hk hj =>
      cases hp with
      | waiting hp =>
        obtain ⟨hlike, hparted⟩ := ih hw hj hl hc hp fun n hn as hb => hf n hn as (.waiting hb)
        obtain ⟨hin, hkept⟩ := aside_within ha hj hl hc
        exact ⟨like_waiting hw.tame hk hj hc hin (hc.kept hkept) hlike, .waiting hparted⟩
      | joined ho => cases ho
  | turned ha ih =>
    cases hp with
    | joined ho hcrew hle hloops hparted =>
      exact place_like (over_turned ho) ho hw hcrew hle hloops hparted ha ih
        fun n hn as hb => hf n hn as (.turned (by simp) hb)
  | current ha ih =>
    cases hp with
    | joined ho hcrew hle hloops hparted =>
      exact place_like (over_current ho) ho hw hcrew hle hloops hparted ha ih
        fun n hn as hb => hf n hn as (.joined hb)
  | coming ha ih =>
    cases hp with
    | joined ho hcrew hle hloops hparted =>
      exact place_like (over_coming ho) ho hw hcrew hle hloops hparted ha ih
        fun n hn as hb => hf n hn as (.coming (by simp) hb)

theorem goes_like {j j' : Job} (h : j.Goes g w j' w') (hw : g.Grounded w) (hj : j.Within S)
    (hl : S.loops) (hc : S.Closed g w) (hp : j.Parted g w S) (hf : j.FairNext g w) :
    j.Like g w j' w' ∧ j'.Parted g w' S := by
  cases h with
  | turn ha => exact acts_like ha hw hj hl hc hp hf
  | aside ha => exact aside_like ha hw hj hl hc hp hf

/-- At every moment of a schedule, what is left of a job comes to what the job comes to. -/
theorem scheduled_like {j j' : Job} (h : j.Scheduled g w j' w') (hw : g.Grounded w)
    (hj : j.Within S) (hl : S.loops) (hc : S.Closed g w) (hp : j.Parted g w S)
    (hf : ∀ j₁ w₁, j.Scheduled g w j₁ w₁ → j₁.FairNext g w₁) : j.Like g w j' w' := by
  induction h with
  | refl => exact .refl ..
  | next hg _ ih =>
    obtain ⟨hlike, hparted⟩ := goes_like hg hw hj hl hc hp (hf _ _ .refl)
    obtain ⟨hin, hkept⟩ := goes_within hg hj hl hc
    exact hlike.trans (ih (hw.kept hkept) hin (hc.kept hkept) hparted
      fun j₁ w₁ h₁ => hf j₁ w₁ (.next hg h₁))

/-! ## Evaluations -/

/-- Whenever a schedule has come to a join, it is fair. -/
def Graph.FairFor (g : Graph) (v : Value) (args : List Value) (w : World) : Prop :=
  ∀ j u, g.Schedules v args w j u → j.FairNext g u

section Evaluations

variable {v : Value} {args : List Value} {j : Job} {u : World}

theorem schedules_kept (hw : g.Grounded w) (h : g.Schedules v args w j u) :
    w.Kept (g.span w v args) u :=
  (schedules_within (hw.tame.closed_span v args) trivial (within_span v args) (given_span v args)
    h).2

/-- Under a fair schedule, what is left of an evaluation comes to what it comes to when its
caller runs it. -/
theorem schedules_like (hw : g.Grounded w) (hf : g.FairFor v args w)
    (h : g.Schedules v args w j u) : (g.launch v args w).1.Like g (g.launch v args w).2 j u := by
  have hc := hw.tame.closed_span (w := w) v args
  have hk : w.Kept (g.span w v args) (g.launch v args w).2 := .of_slots (launch_slots ..)
  exact scheduled_like h (hw.kept hk) (launch_within hc (within_span v args) (given_span v args))
    trivial (hc.kept hk) (launch_parted ..) hf

end Evaluations

end ArrayGraph
