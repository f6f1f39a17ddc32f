import ArrayGraph.Proofs.Evaluation.Schedule
/-!
# The arguments of a call on their way

An evaluation hands the arguments of its call on from node to node, as they are or not at
all: a node that takes them for its operands evaluates those without arguments, and so does
one that stands for an argument. No other arguments come about on the way, whatever the
graph and the schedule: `schedules_under`.
-/

namespace ArrayGraph

variable {g : Graph} {args as : List Value} {w w' : World}

/-! ## Arguments that are handed on -/

/-- These are the arguments of the call, or there are none. -/
def HandedOn (args as : List Value) : Prop := as = args ∨ as = []

/-- What the frame goes on with has the arguments of the call, or none. -/
def Frame.Under (args : List Value) : Frame → Prop
  | .constantName _ | .store _ => True
  | .choice _ as _ _ | .block as _ => HandedOn args as
  | .loopInit l | .loopBody l | .loopCondition l _ | .loopStep l _ => HandedOn args l.args

/-- All that is left of the job has the arguments of the call, or none. -/
inductive Job.Under (args : List Value) : Job → Prop
  | done {r} : Under args (.done r)
  | start {n content as} : HandedOn args as → Under args (.start n content as)
  | round {l last} : HandedOn args l.args → Under args (.round l last)
  | rest {l last} : HandedOn args l.args → Under args (.rest l last)
  | waiting {k j} : k.Under args → Under args j → Under args (.waiting k j)
  | joined {k turned j coming} : (∀ t ∈ turned, Under args t) → Under args j →
      (∀ c ∈ coming, Under args c) → Under args (.joined k turned j coming)
  | placed {id site j} : Under args j → Under args (.placed id site j)

/-- The job is part of another, or all of it. -/
inductive Job.Part (i : Job) : Job → Prop
  | all : Part i i
  | waiting {k j} : Part i j → Part i (.waiting k j)
  | turned {k turned j coming t} : t ∈ turned → Part i t → Part i (.joined k turned j coming)
  | current {k turned j coming} : Part i j → Part i (.joined k turned j coming)
  | coming {k turned j coming c} : c ∈ coming → Part i c → Part i (.joined k turned j coming)
  | placed {id site j} : Part i j → Part i (.placed id site j)

theorem Job.Under.part {i j : Job} (hj : j.Under args) (h : i.Part j) : i.Under args := by
  induction h with
  | all => exact hj
  | waiting _ ih =>
    cases hj with
    | waiting _ hj => exact ih hj
  | turned ht _ ih =>
    cases hj with
    | joined hturned _ _ => exact ih (hturned _ ht)
  | current _ ih =>
    cases hj with
    | joined _ hj _ => exact ih hj
  | coming hc _ ih =>
    cases hj with
    | joined _ _ hcoming => exact ih (hcoming _ hc)
  | placed _ ih =>
    cases hj with
    | placed hj => exact ih hj

/-! ## Launching -/

theorem handedOn_none : HandedOn args [] := .inr rfl

theorem launch_under (g : Graph) (v : Value) (h : HandedOn args as) (w : World) :
    (g.launch v as w).1.Under args := by
  cases v with
  | node k =>
    simp only [Graph.launch]
    split
    · unfold Locality.dispatch
      split
      · exact .start h
      · exact .start h
      · split
        · exact .placed (.start h)
        · exact .done
    · exact .done
  | _ => exact .done

theorem await_under {k : Frame} (hk : k.Under args) (g : Graph) (v : Value)
    (h : HandedOn args as) (w : World) : (g.await k v as w).1.Under args :=
  .waiting hk (launch_under g v h w)

theorem launchAll_under (g : Graph) (vs : List Value) (h : HandedOn args as) (w : World) :
    ∀ j ∈ (g.launchAll as vs w).1, j.Under args := by
  induction vs generalizing w with
  | nil => exact List.forall_mem_nil _
  | cons v vs ih => exact List.forall_mem_cons.2 ⟨launch_under g v h w, ih _⟩

theorem start_under {k : Join} {jobs : List Job} (h : ∀ j ∈ jobs, j.Under args) :
    (k.start jobs).Under args := by
  cases jobs with
  | nil => exact .done
  | cons j js =>
    rw [List.forall_mem_cons] at h
    exact .joined (List.forall_mem_nil _) h.1 h.2

theorem join_under (g : Graph) (k : Join) (vs : List Value) (h : HandedOn args as) (w : World) :
    (g.join k vs as w).1.Under args := by
  rw [join_eq]
  exact start_under (launchAll_under g vs h w)

/-- A node that takes its arguments for its operands hands none on. -/
theorem bind_under (n : Node) (h : HandedOn args as) : HandedOn args (n.bind as).2 := by
  unfold Node.bind
  split
  · exact handedOn_none
  · exact h

/-! ## Steps -/

/-- What a node does first, it does under the arguments of the call or under none. -/
theorem run_under (n : Node) (g : Graph) (content : Value) (h : HandedOn args as) (w : World) :
    (n.run g content as w).1.Under args := by
  have hbind := bind_under n h
  have hfirst := run_first n g content as
  generalize n.run g content as = first at hfirst ⊢
  cases hfirst with
  | named | missing | refused | empty | echo | threadName | panic => exact .done
  | name => exact await_under (k := .constantName n.site) trivial g _ hbind w
  | slot | trace => exact launch_under g _ h _
  | store => exact await_under (k := .store _) trivial g _ h w
  | argument => exact launch_under g _ handedOn_none w
  | join => exact join_under g _ _ hbind w
  | forLoop => exact await_under (k := .loopInit ⟨n.site, as, _, _, some _⟩) h g _ h w
  | whileLoop => exact .round h
  | choice => exact await_under (k := .choice ..) h g _ h w
  | block => exact await_under (k := .block ..) h g _ h w

theorem resume_under {k : Frame} (hk : k.Under args) (g : Graph) (v : Value) (w : World) :
    (k.resume g v w).1.Under args := by
  cases k with
  | constantName site => cases v <;> exact .done
  | store target => exact .done
  | choice site as yes no =>
    simp only [Frame.resume]
    cases v.truthy? with
    | none => exact .done
    | some b =>
      dsimp only
      cases if b then yes else no with
      | none => exact .done
      | some branch => exact launch_under g branch hk w
  | block as rest =>
    cases rest with
    | nil => exact .done
    | cons next rest => exact await_under (k := .block as rest) hk g next hk w
  | loopInit l => exact .round hk
  | loopCondition l last =>
    simp only [Frame.resume]
    cases v.truthy? with
    | none => exact .done
    | some b =>
      cases b with
      | true => exact await_under (k := .loopBody _) hk g l.body hk w
      | false => exact .done
  | loopBody l =>
    simp only [Frame.resume]
    cases l.step with
    | none => exact .rest hk
    | some step => exact await_under (k := .loopStep ..) hk g step hk w
  | loopStep l last => exact .rest hk

theorem frame_after_under {k : Frame} {p : Progress} (hk : k.Under args)
    (hp : p.rest.Under args) (w : World) : (k.after g p w).1.rest.Under args := by
  rcases p with (e | v) | j | j
  · exact .done
  · exact resume_under hk g v w
  · exact .waiting hk hp
  · exact .waiting hk hp

theorem turn_under {k : Join} {turned coming : List Job} (ht : ∀ t ∈ turned, t.Under args)
    (hc : ∀ c ∈ coming, c.Under args) : (k.turn turned coming).rest.Under args := by
  cases coming with
  | cons c coming =>
    rw [List.forall_mem_cons] at hc
    exact .joined ht hc.1 hc.2
  | nil =>
    rw [← List.reverse_reverse turned]
    rcases finished_or_not turned.reverse with ⟨vs, hv⟩ | ⟨hn, -⟩
    · rw [hv, turn_finished]
      exact .done
    · rw [turn_unfinished k hn]
      exact start_under fun t h => ht t (List.mem_reverse.1 h)

theorem join_after_under {k : Join} {turned coming : List Job} {p : Progress}
    (ht : ∀ t ∈ turned, t.Under args) (hp : p.rest.Under args)
    (hc : ∀ c ∈ coming, c.Under args) : (k.after turned coming p).rest.Under args := by
  rcases p with (e | v) | j | j
  · exact .done
  · exact turn_under (List.forall_mem_cons.2 ⟨.done, ht⟩) hc
  · exact .joined ht hp hc
  · exact turn_under (List.forall_mem_cons.2 ⟨hp, ht⟩) hc

theorem reported_under {id : LocalityId} {site : Site} {p : Progress} (hp : p.rest.Under args) :
    (p.reported id site).rest.Under args := by
  rcases p with r | j | j
  · exact .done
  · exact .placed hp
  · exact .placed hp

/-- Whatever a job does next, what is left of it has the arguments of the call, or none. -/
theorem acts_under {j : Job} {p : Progress} (h : j.Acts g w p w') (hj : j.Under args) :
    p.rest.Under args := by
  induction h with
  | @step j w hsingle =>
    cases hj with
    | done => exact .done
    | start h => exact run_under _ g _ h w
    | round h => exact await_under (k := .loopCondition ..) h g _ h w
    | rest h => exact .round h
    | waiting | joined | placed => exact hsingle.elim
  | waiting _ ih =>
    cases hj with
    | waiting hk hj => exact frame_after_under hk (ih hj) _
  | joined _ ih =>
    cases hj with
    | joined ht hj hc => exact join_after_under ht (ih hj) hc
  | placed _ ih =>
    cases hj with
    | placed hj => exact reported_under (ih hj)
  | paused => exact hj

theorem aside_under {j j' : Job} (h : j.Aside g w j' w') (hj : j.Under args) : j'.Under args := by
  induction h with
  | spawned ha =>
    cases hj with
    | placed hj => exact .placed (acts_under ha hj)
  | within _ ih =>
    cases hj with
    | placed hj => exact .placed (ih hj)
  | waiting _ ih =>
    cases hj with
    | waiting hk hj => exact .waiting hk (ih hj)
  | turned _ ih =>
    cases hj with
    | joined ht hj hc => exact .joined (forall_replaced ht (ih (ht _ (by simp)))) hj hc
  | current _ ih =>
    cases hj with
    | joined ht hj hc => exact .joined ht (ih hj) hc
  | coming _ ih =>
    cases hj with
    | joined ht hj hc => exact .joined ht hj (forall_replaced hc (ih (hc _ (by simp))))

theorem scheduled_under {j j' : Job} (h : j.Scheduled g w j' w') (hj : j.Under args) :
    j'.Under args := by
  induction h with
  | refl => exact hj
  | next hg _ ih =>
    cases hg with
    | turn ha => exact ih (acts_under ha hj)
    | aside ha => exact ih (aside_under ha hj)

/-- At no moment of an evaluation, under no schedule, is a node about to begin under other
arguments than those of the call, unless under none. -/
theorem schedules_under {v : Value} {n : Node} {content : Value} {j : Job} {u : World}
    (h : g.Schedules v args w j u) (hn : (Job.start n content as).Part j) : HandedOn args as := by
  cases (scheduled_under h (launch_under g v (.inl rfl) w)).part hn with
  | start h => exact h

end ArrayGraph
