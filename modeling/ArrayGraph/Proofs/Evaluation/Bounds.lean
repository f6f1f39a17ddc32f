import ArrayGraph.Proofs.Evaluation.Blame
import ArrayGraph.Proofs.Evaluation.Schedule
/-!
# What is read by position

Loops, choices and stores read their operands by position, and comparisons, arithmetic and
statistics read the values of theirs that way. The check of the graph sees to it that the
operands are there (`equipped_of_check`, `run_bound`), and a join has one value for each of
its operands (`over_mingles`). `Job.InBounds` carries both through an evaluation, whatever
the order in which its jobs act: nothing panics but a node that is made to.
-/

namespace ArrayGraph

variable {g : Graph} {S : Scope} {w w' z : World} {k : Join}

/-! ## Operands that are there -/

/-- How many operands a node of the primitive reads by their positions. -/
def Primitive.reads : Primitive → Nat
  | .forLoop => 4
  | .store | .whileLoop | .choice | .trace => 2
  | .variable | .argument => 1
  | _ => 0

/-- The operands that the node reads by their positions are there. The first of a store is
a variable, that of an argument is an index. -/
structure Node.Equipped (g : Graph) (n : Node) : Prop where
  reads : n.primitive.reads ≤ n.operands.length
  target : n.primitive = .store → ∃ v, n.operands.head? = some v ∧ g.isVariable v = true
  index : n.primitive = .argument → ∃ i, n.operands.head?.bind (·.asInt?) = some i ∧ 0 ≤ i

theorem reads_le_of_accepts {p : Primitive} {count : Nat} (h : p.accepts count = true) :
    p.reads ≤ count := by
  cases p <;> simp [Primitive.accepts, Primitive.reads] at h ⊢ <;> omega

theorem equipped_of_check {n : Node} (hc : g.check n.primitive n.operands = .ok ()) :
    n.Equipped g := by
  obtain ⟨hcount, -, htarget, hindex⟩ := check_eq_ok_iff.1 hc
  have hreads := reads_le_of_accepts hcount
  have hhead : 0 < n.primitive.reads → ∃ v, n.operands.head? = some v := by
    intro hpos
    cases ho : n.operands with
    | nil =>
      rw [ho] at hreads
      exact absurd hreads (Nat.not_le_of_lt hpos)
    | cons v rest => exact ⟨v, rfl⟩
  refine ⟨hreads, fun hp => ?_, fun hp => ?_⟩
  · obtain ⟨v, hv⟩ := hhead (by rw [hp]; decide)
    exact ⟨v, hv, htarget hp v hv⟩
  · obtain ⟨v, hv⟩ := hhead (by rw [hp]; decide)
    obtain ⟨i, hi, hle⟩ := (Option.any_eq_true ..).1 (hindex hp v hv)
    exact ⟨i, by rw [hv]; exact hi, of_decide_eq_true hle⟩

/-! ## One value per operand -/

/-- Jobs beside each other go on one at a time, in any order. -/
inductive Job.Mingled (g : Graph) : List Job → World → List Job → World → Prop
  | refl {jobs w} : Mingled g jobs w jobs w
  | next {before j after w j' w' jobs z} : j.Goes g w j' w' →
      Mingled g (before ++ j' :: after) w' jobs z →
      Mingled g (before ++ j :: after) w jobs z

theorem mingled_length {jobs jobs' : List Job} (h : Job.Mingled g jobs w jobs' z) :
    jobs'.length = jobs.length := by
  induction h with
  | refl => rfl
  | next _ _ ih => simpa using ih

theorem mingled_member {before after : List Member} {s : Member} {t : Job} {jobs : List Job}
    (h : s.job.Goes g w t w')
    (hm : Job.Mingled g (jobsOf (before ++ ⟨s.scope, t⟩ :: after)) w' jobs z) :
    Job.Mingled g (jobsOf (before ++ s :: after)) w jobs z := by
  rw [jobsOf_append] at hm ⊢
  exact .next h hm

/-- When a join has ended, its jobs have acted until one of them failed or each had a
value. -/
theorem over_mingles {team : List Member} {j : Job} {r : Outcome} (ho : k.Over team j)
    (h : j.Scheduled g w (.done r) z) :
    ∃ team', Job.Mingled g (jobsOf team) w (jobsOf team') z ∧ k.Left team' (.finished r) := by
  generalize hd : Job.done r = d at h
  induction h generalizing team with
  | refl =>
    subst hd
    cases ho
  | @next j w j' w' j'' w'' hg hs ih =>
    subst hd
    cases hg with
    | turn ha =>
      cases ho with
      | @turn before s after =>
        cases ha with
        | step hsingle => exact hsingle.elim
        | @joined _ _ _ _ _ p _ ha =>
          -- whatever the job of `s` did, the others are as they were
          have hleft := @after_left k before after s p
          have hgoes : s.job.Goes g w p.rest w' := .turn ha
          generalize k.after (jobsOf before).reverse (jobsOf after) p = q at hleft hs ih
          cases hleft with
          | failed hm =>
            obtain ⟨he, rfl⟩ := scheduled_done hs
            cases he
            exact ⟨_, mingled_member hgoes .refl, .failed hm⟩
          | finished hv =>
            obtain ⟨he, rfl⟩ := scheduled_done hs
            cases he
            exact ⟨_, mingled_member hgoes .refl, .finished hv⟩
          | moved ho | suspended ho =>
            obtain ⟨team', hm, hl⟩ := ih ho rfl
            exact ⟨team', mingled_member hgoes hm, hl⟩
    | aside ha =>
      obtain ⟨before, s, after, t, rfl, ha, ho'⟩ := over_aside ho ha
      obtain ⟨team', hm, hl⟩ := ih ho' rfl
      exact ⟨team', mingled_member (.aside ha) hm, hl⟩

/-- A join of operands gives the failure of one of them, or else what its kind makes of
their values, one for each operand and in the order of the operands. -/
theorem join_mingles {vs args : List Value} {r : Outcome}
    (h : (g.join k vs args w).1.Scheduled g (g.join k vs args w).2 (.done r) z) :
    ∃ jobs, Job.Mingled g (g.launchAll args vs w).1 (g.launchAll args vs w).2 jobs z ∧
      ((∃ e, .done (.error e) ∈ jobs ∧ r = .error e) ∨
        ∃ values, values.length = vs.length ∧ jobs = Job.finished values ∧
          r = k.finish values) := by
  have hlen : (g.crew w vs args).length = vs.length := List.length_map ..
  rw [join_eq] at h
  rw [launchAll_crew] at h ⊢
  by_cases hne : g.crew w vs args = []
  · rw [hne] at h hlen ⊢
    obtain ⟨he, rfl⟩ := scheduled_done h
    cases he
    exact ⟨[], .refl, .inr ⟨[], hlen, rfl, rfl⟩⟩
  · obtain ⟨team, hm, hl⟩ := over_mingles (start_over hne) h
    refine ⟨jobsOf team, hm, ?_⟩
    cases hl with
    | @failed e he => exact .inl ⟨e, he, rfl⟩
    | @finished values hv =>
      refine .inr ⟨values, ?_, hv, rfl⟩
      have hsame := mingled_length hm
      rw [hv] at hsame
      simpa [Job.finished, jobsOf, hlen] using hsame

/-! ## Jobs that stay in bounds -/

/-- A node of the scope is made to panic. -/
def Graph.Explodes (g : Graph) (S : Scope) : Prop :=
  ∃ i n, S.node i ∧ g.nodes[i]? = some n ∧ n.primitive = .explode

/-- A value leads to nodes of the scope, and a panic comes from a node that is made to
panic. A locality reports a panic as an error. -/
def Outcome.InBounds (g : Graph) (S : Scope) : Outcome → Prop
  | .ok v => v.Within S
  | .error .panic => g.Explodes S
  | .error (.error (.raised _ (.incomplete _))) => g.Explodes S
  | .error (.error _) => True

structure Loop.InBounds (S : Scope) (l : Loop) : Prop where
  args : WithinAll S l.args
  condition : l.condition.Within S
  body : l.body.Within S
  step : ∀ v, l.step = some v → v.Within S

def Frame.InBounds (S : Scope) : Frame → Prop
  | .constantName _ | .store _ => True
  | .choice _ args yes no =>
    WithinAll S args ∧ (∀ v, yes = some v → v.Within S) ∧ ∀ v, no = some v → v.Within S
  | .block args rest => WithinAll S args ∧ WithinAll S rest
  | .loopInit l | .loopBody l => l.InBounds S
  | .loopCondition l last | .loopStep l last => l.InBounds S ∧ last.Within S

/-- What the job will read by position is there: it is about to run nodes of the graph
only, and its joins are of as many operands as they read values of. -/
inductive Job.InBounds (g : Graph) (S : Scope) : Job → Prop
  | done {r} : r.InBounds g S → InBounds g S (.done r)
  | start {i n content args} : S.node i → g.nodes[i]? = some n →
      (n.primitive = .variable → content.Within S) → WithinAll S args →
      InBounds g S (.start n content args)
  | round {l last} : l.InBounds S → last.Within S → InBounds g S (.round l last)
  | rest {l last} : l.InBounds S → last.Within S → InBounds g S (.rest l last)
  | waiting {k j} : k.InBounds S → InBounds g S j → InBounds g S (.waiting k j)
  | joined {k : Join} {team : List Member} {j : Job} : k.Over team j → k.Takes team.length →
      (∀ t ∈ team, InBounds g S t.job) → InBounds g S j
  | placed {id site j} : InBounds g S j → InBounds g S (.placed id site j)

/-- The nodes of the scope are there, and nothing leads out of them. -/
structure Scope.Encloses (g : Graph) (S : Scope) (w : World) : Prop where
  present : ∀ i, S.node i → i < g.nodes.size
  operands : ∀ (i : Nat) (n : Node), S.node i → g.nodes[i]? = some n → WithinAll S n.operands
  content : ∀ (i : Nat) (n : Node), S.node i → g.nodes[i]? = some n → n.primitive = .variable →
    (w.slot i).Within S

theorem Scope.Encloses.of_slots (h : S.Encloses g w) (hs : w'.slots = w.slots) :
    S.Encloses g w' where
  present := h.present
  operands := h.operands
  content i n hi hn hp := by
    have hslot : w'.slot i = w.slot i := by simp only [World.slot, hs]
    rw [hslot]
    exact h.content i n hi hn hp

theorem Scope.Encloses.setSlot (h : S.Encloses g w) {v : Value} (hv : v.Within S) (i : Nat) :
    S.Encloses g (w.setSlot i v) where
  present := h.present
  operands := h.operands
  content k n hk hn hp := by
    rcases w.slot_setSlot i k v with he | ⟨-, he⟩ <;> rw [he]
    · exact h.content k n hk hn hp
    · exact hv

theorem encloses_reach {roots : List Value}
    (ho : ∀ n ∈ g.nodes, ∀ v ∈ n.operands, v.Below g.nodes.size)
    (hs : ∀ i, (w.slot i).Below g.nodes.size) (hr : ∀ v ∈ roots, v.Below g.nodes.size) :
    (g.reach w roots).Encloses g w where
  present _ hi := lt_of_reaches ho hs hr hi
  operands _ _ hi hn := by
    rintro v hv h rfl
    exact .operand hi hn hv
  content _ _ hi hn hp h he := .content hi hn hp he

/-! ## What happens at once -/

theorem inBounds_value {v : Value} (h : v.Within S) : (Job.done (.ok v)).InBounds g S := .done h

theorem inBounds_plain {v : Value} (h : v.Plain) : (Job.done (.ok v)).InBounds g S :=
  inBounds_value (within_of_plain h)

theorem inBounds_raised {site : Site} {c : Cause} (h : ∀ id, c ≠ .incomplete id) :
    (Outcome.fail site c).InBounds g S := by
  cases c with
  | incomplete id => exact absurd rfl (h id)
  | _ => trivial

theorem inBounds_fail {site : Site} {c : Cause} (h : ∀ id, c ≠ .incomplete id) :
    (Job.done (.fail site c)).InBounds g S := .done (inBounds_raised h)

theorem inBounds_constantNamed (site : Site) (name : String) :
    (Job.done (constantNamed site name)).InBounds g S := by
  unfold constantNamed
  split
  · exact inBounds_plain rfl
  · exact inBounds_fail fun _ => Cause.noConfusion

/-- Kernels give no handles, and fail for reasons that concern their operands. -/
theorem inBounds_kernel {site : Site} {r : Except Cause Value}
    (hs : (Outcome.ofKernel site r).Sane) (he : ∀ c, r = .error c → c.kind ≠ .placement) :
    (Outcome.ofKernel site r).InBounds g S := by
  cases r with
  | ok v => exact within_of_plain hs
  | error c =>
    refine inBounds_raised ?_
    rintro id rfl
    exact he _ rfl rfl

theorem inBounds_finish {values : List Value} (ht : k.Takes values.length)
    (hv : WithinAll S values) : (k.finish values).InBounds g S := by
  cases k with
  | compare op site =>
    rcases values with _ | ⟨a, _ | ⟨b, rest⟩⟩
    iterate 2 simp [Join.Takes] at ht
    refine inBounds_kernel (sane_compare op site a b) fun c hc => ?_
    rcases compare_error_kind hc with he | he <;> rw [he] <;> decide
  | arithmetic op site =>
    rcases values with _ | ⟨a, _ | ⟨b, rest⟩⟩
    iterate 2 simp [Join.Takes] at ht
    refine inBounds_kernel (sane_combine op site a b) fun c hc => ?_
    rcases combine_error_kind hc with he | he <;> rw [he] <;> decide
  | statistic s site =>
    rcases values with _ | ⟨v, rest⟩
    · simp [Join.Takes] at ht
    simp only [Join.finish]
    cases ha : axisOperand rest with
    | error c =>
      have hkind := axisOperand_error ha
      refine inBounds_raised ?_
      rintro id rfl
      cases hkind
    | ok axis =>
      refine inBounds_kernel (sane_reduce s site v axis) fun c hc => ?_
      rcases reduce_error hc with ⟨he, -⟩ | he | he <;> rw [he] <;> decide
  | last =>
    simp only [Join.finish, Outcome.InBounds]
    cases hl : values.getLast? with
    | none => exact within_of_plain rfl
    | some v => exact hv v (List.mem_of_getLast? hl)
  | all => exact within_of_plain rfl

theorem inBounds_left {team : List Member} {p : Progress} (hl : k.Left team p)
    (ht : k.Takes team.length) (hj : ∀ t ∈ team, t.job.InBounds g S) : p.rest.InBounds g S := by
  have hmem : ∀ j ∈ jobsOf team, j.InBounds g S := List.forall_mem_map.2 hj
  cases hl with
  | failed hm => exact hmem _ hm
  | @finished values hv =>
    have hlen : team.length = values.length := by
      simpa [jobsOf, Job.finished] using congrArg List.length hv
    rw [hlen] at ht
    refine .done (inBounds_finish ht fun v hm => ?_)
    have hd := hmem (.done (.ok v)) (by rw [hv]; exact List.mem_map_of_mem hm)
    cases hd with
    | done hv => exact hv
    | joined ho => cases ho
  | moved ho | suspended ho => exact .joined ho ht hj

section Actions

variable (hS : S.Encloses g w)

include hS

theorem inBounds_launch {v : Value} {args : List Value} (hv : v.Within S)
    (ha : WithinAll S args) : (g.launch v args w).1.InBounds g S := by
  cases v with
  | node h =>
    have hh : S.node h.index := within_node.1 hv
    have hlt := hS.present _ hh
    have hn : g.node? h = some g.nodes[h.index] := Array.getElem?_eq_getElem hlt
    have hstart : (Job.start g.nodes[h.index] (w.slot h.index) args).InBounds g S :=
      .start hh hn (fun hp => hS.content _ _ hh hn hp) ha
    simp only [Graph.launch, hn]
    unfold Locality.dispatch
    split
    · exact hstart
    · exact hstart
    · split
      · exact .placed hstart
      · exact inBounds_fail fun _ => Cause.noConfusion
  | _ => exact inBounds_plain rfl

theorem inBounds_await {f : Frame} {v : Value} {args : List Value} (hf : f.InBounds S)
    (hv : v.Within S) (ha : WithinAll S args) : (g.await f v args w).1.InBounds g S :=
  .waiting hf (inBounds_launch hS hv ha)

theorem inBounds_join {vs args : List Value} (ht : k.Takes vs.length) (hv : WithinAll S vs)
    (ha : WithinAll S args) : (g.join k vs args w).1.InBounds g S := by
  rw [join_eq, launchAll_crew]
  cases vs with
  | nil => exact .done (inBounds_finish ht hv)
  | cons v vs =>
    refine .joined (start_over (List.cons_ne_nil _ _)) (by simpa [Graph.crew] using ht) ?_
    exact forall_crew.2 fun v hm => inBounds_launch hS (hv v hm) ha

/-- What a node does first keeps in bounds, if it passed the check. -/
theorem inBounds_run {i : Nat} {n : Node} {content : Value} {args : List Value} (hi : S.node i)
    (hn : g.nodes[i]? = some n) (hk : g.check n.primitive n.operands = .ok ())
    (hc : n.primitive = .variable → content.Within S) (ha : WithinAll S args) :
    (n.run g content args w).1.InBounds g S := by
  have ho : WithinAll S n.operands := hS.operands i n hi hn
  have hbind : WithinAll S (n.bind args).1 ∧ WithinAll S (n.bind args).2 := by
    unfold Node.bind
    split
    · exact ⟨ha, withinAll_nil⟩
    · exact ⟨ho, ha⟩
  have hfirst := run_first n g content args
  generalize n.run g content args = first at hfirst ⊢
  cases hfirst with
  | named => exact inBounds_constantNamed ..
  | name _ hv =>
    rw [hv, withinAll_cons] at hbind
    exact inBounds_await hS trivial hbind.1.1 hbind.2
  | slot hp => exact inBounds_launch hS (hc hp) ha
  | store _ hops =>
    rw [hops, withinAll_cons, withinAll_cons] at ho
    exact inBounds_await hS trivial ho.2.1 ha
  | argument _ hx => exact inBounds_launch hS (ha _ (List.mem_of_getElem? hx)) withinAll_nil
  | missing | refused => exact inBounds_fail fun _ => Cause.noConfusion
  | join _ ht => exact inBounds_join hS ht hbind.1 hbind.2
  | @forLoop init condition step body _ _ hops =>
    simp only [hops, withinAll_cons] at ho
    have hl : Loop.InBounds S ⟨n.site, args, condition, body, some step⟩ :=
      ⟨ha, ho.2.1, ho.2.2.2.1, fun v hv => by cases hv; exact ho.2.2.1⟩
    exact inBounds_await hS hl ho.1 ha
  | @whileLoop condition body _ _ hops =>
    simp only [hops, withinAll_cons] at ho
    have hl : Loop.InBounds S ⟨n.site, args, condition, body, none⟩ :=
      ⟨ha, ho.1, ho.2.1, fun v hv => by cases hv⟩
    exact .round hl (within_of_plain rfl)
  | @choice condition branches _ hops =>
    rw [hops, withinAll_cons] at ho
    have hf : Frame.InBounds S (.choice n.site args branches[0]? branches[1]?) :=
      ⟨ha, fun v hv => ho.2 v (List.mem_of_getElem? hv),
        fun v hv => ho.2 v (List.mem_of_getElem? hv)⟩
    exact inBounds_await hS hf ho.1 ha
  | block _ hops =>
    rw [hops, withinAll_cons] at ho
    exact inBounds_await hS ⟨ha, ho.2⟩ ho.1 ha
  | empty | threadName => exact inBounds_plain rfl
  | @trace tag _ _ _ hops =>
    rw [hops, withinAll_cons, withinAll_cons] at ho
    have hS' : S.Encloses g (w.write (tag.asText?.getD "?")) := hS.of_slots rfl
    exact inBounds_launch hS' ho.2.1 ha
  | echo =>
    cases hv : (n.bind args).1 with
    | nil => exact inBounds_plain rfl
    | cons v rest =>
      rw [hv, withinAll_cons] at hbind
      exact inBounds_value hbind.1.1
  | panic hp => exact .done ⟨i, n, hi, hn, hp hk⟩

/-- So does what a frame does with a value. -/
theorem inBounds_resume {f : Frame} {v : Value} (hf : f.InBounds S) (hv : v.Within S) :
    (f.resume g v w).1.InBounds g S ∧ S.Encloses g (f.resume g v w).2 := by
  cases f with
  | constantName site =>
    cases v with
    | str name => exact ⟨inBounds_constantNamed .., hS⟩
    | _ => exact ⟨inBounds_fail fun _ => Cause.noConfusion, hS⟩
  | store target => exact ⟨inBounds_plain rfl, hS.setSlot hv target⟩
  | choice site args yes no =>
    obtain ⟨ha, hy, hn⟩ := hf
    simp only [Frame.resume]
    cases v.truthy? with
    | none => exact ⟨inBounds_fail fun _ => Cause.noConfusion, hS⟩
    | some b =>
      dsimp only
      cases hbranch : if b then yes else no with
      | none => exact ⟨inBounds_plain rfl, hS⟩
      | some branch =>
        refine ⟨inBounds_launch hS ?_ ha, hS.of_slots (launch_slots ..)⟩
        cases b
        · exact hn branch hbranch
        · exact hy branch hbranch
  | block args rest =>
    cases rest with
    | nil => exact ⟨inBounds_value hv, hS⟩
    | cons next rest =>
      obtain ⟨ha, hrest⟩ := hf
      rw [withinAll_cons] at hrest
      exact ⟨inBounds_await hS ⟨ha, hrest.2⟩ hrest.1 ha, hS.of_slots (launch_slots ..)⟩
  | loopInit l => exact ⟨.round hf (within_of_plain rfl), hS⟩
  | loopCondition l last =>
    simp only [Frame.resume]
    cases v.truthy? with
    | none => exact ⟨inBounds_fail fun _ => Cause.noConfusion, hS⟩
    | some b =>
      cases b with
      | true => exact ⟨inBounds_await hS hf.1 hf.1.body hf.1.args, hS.of_slots (launch_slots ..)⟩
      | false => exact ⟨inBounds_value hf.2, hS⟩
  | loopBody l =>
    simp only [Frame.resume]
    cases hs : l.step with
    | none => exact ⟨.rest hf hv, hS⟩
    | some step =>
      exact ⟨inBounds_await hS ⟨hf, hv⟩ (hf.step step hs) hf.args, hS.of_slots (launch_slots ..)⟩
  | loopStep l last => exact ⟨.rest hf.1 hf.2, hS⟩

end Actions

/-! ## What jobs do in any order -/

theorem inBounds_reported {id : LocalityId} {site : Site} {p : Progress}
    (hp : p.rest.InBounds g S) : (p.reported id site).rest.InBounds g S := by
  cases p with
  | finished r =>
    cases hp with
    | done hr =>
      rcases r with (e | -) | v
      · exact .done hr
      · exact .done hr
      · exact .done hr
    | joined ho => cases ho
  | moved j | suspended j => exact .placed hp

theorem inBounds_frame_after {f : Frame} {p : Progress} (hS : S.Encloses g w)
    (hf : f.InBounds S) (hp : p.rest.InBounds g S) :
    (f.after g p w).1.rest.InBounds g S ∧ S.Encloses g (f.after g p w).2 := by
  rcases p with (e | v) | j | j
  · exact ⟨hp, hS⟩
  · cases hp with
    | done hv => exact inBounds_resume hS hf hv
    | joined ho => cases ho
  · exact ⟨.waiting hf hp, hS⟩
  · exact ⟨.waiting hf hp, hS⟩

/-- Whatever a job in bounds does next, it stays there. -/
theorem acts_inBounds (hk : ∀ n ∈ g.nodes, g.check n.primitive n.operands = .ok ()) {j : Job}
    {p : Progress} (h : j.Acts g w p w') (hj : j.InBounds g S) (hS : S.Encloses g w) :
    p.rest.InBounds g S ∧ S.Encloses g w' := by
  -- the induction goes down to the node or the loop that acts; the slots are enclosed after it,
  -- which is what a frame above needs to go on
  induction h with
  | step hsingle =>
    cases hj with
    | done hr => exact ⟨.done hr, hS⟩
    | start hi hn hc ha =>
      exact ⟨inBounds_run hS hi hn (hk _ (Array.mem_of_getElem? hn)) hc ha,
        hS.of_slots (run_slots ..)⟩
    | @round l last hl hv =>
      have hf : Frame.InBounds S (.loopCondition l last) := ⟨hl, hv⟩
      exact ⟨inBounds_await hS hf hl.condition hl.args, hS.of_slots (launch_slots ..)⟩
    | rest hl hv => exact ⟨.round hl hv, hS⟩
    | joined ho => cases ho; exact hsingle.elim
    | waiting | placed => exact hsingle.elim
  | waiting _ ih =>
    cases hj with
    | waiting hf hj =>
      obtain ⟨hp, hS'⟩ := ih hj hS
      exact inBounds_frame_after hS' hf hp
    | joined ho => cases ho
  | @joined k turned j coming w p w' _ ih =>
    cases hj with
    | joined ho ht hteam =>
      cases ho with
      | @turn before s after =>
        obtain ⟨hp, hS'⟩ := ih (hteam s (by simp)) hS
        have hleft := @after_left k before after s p
        refine ⟨inBounds_left hleft (by simpa using ht) ?_, hS'⟩
        exact forall_of_beside hp fun t hm => hteam t (mem_of_beside hm)
  | placed _ ih =>
    cases hj with
    | placed hj =>
      obtain ⟨hp, hS'⟩ := ih hj hS
      exact ⟨inBounds_reported hp, hS'⟩
    | joined ho => cases ho
  | paused => exact ⟨hj, hS⟩

/-- A join in bounds is so still when a member at one place of it is replaced by one in
bounds. -/
theorem place_inBounds {team : List Member} {t t' : Job} {join : Job → Job}
    (hplace : k.Place team t join) (hk : k.Takes team.length)
    (hteam : ∀ m ∈ team, m.job.InBounds g S)
    (ht : t.InBounds g S → t'.InBounds g S ∧ S.Encloses g w') :
    (join t').InBounds g S ∧ S.Encloses g w' := by
  obtain ⟨before, s, after, rfl, rfl, hover⟩ := hplace
  obtain ⟨ht', hS⟩ := ht (hteam s (by simp))
  exact ⟨.joined (hover t') (by simpa using hk) (forall_replaced hteam ht'), hS⟩

theorem aside_inBounds (hk : ∀ n ∈ g.nodes, g.check n.primitive n.operands = .ok ()) {j j' : Job}
    (h : j.Aside g w j' w') (hj : j.InBounds g S) (hS : S.Encloses g w) :
    j'.InBounds g S ∧ S.Encloses g w' := by
  induction h with
  | spawned ha =>
    cases hj with
    | placed hj =>
      obtain ⟨hp, hS'⟩ := acts_inBounds hk ha hj hS
      exact ⟨.placed hp, hS'⟩
    | joined ho => cases ho
  | within _ ih =>
    cases hj with
    | placed hj =>
      obtain ⟨hj', hS'⟩ := ih hj hS
      exact ⟨.placed hj', hS'⟩
    | joined ho => cases ho
  | waiting _ ih =>
    cases hj with
    | waiting hf hj =>
      obtain ⟨hj', hS'⟩ := ih hj hS
      exact ⟨.waiting hf hj', hS'⟩
    | joined ho => cases ho
  | turned _ ih =>
    cases hj with
    | joined ho ht hteam => exact place_inBounds (over_turned ho) ht hteam fun h => ih h hS
  | current _ ih =>
    cases hj with
    | joined ho ht hteam => exact place_inBounds (over_current ho) ht hteam fun h => ih h hS
  | coming _ ih =>
    cases hj with
    | joined ho ht hteam => exact place_inBounds (over_coming ho) ht hteam fun h => ih h hS

theorem goes_inBounds (hk : ∀ n ∈ g.nodes, g.check n.primitive n.operands = .ok ()) {j j' : Job}
    (h : j.Goes g w j' w') (hj : j.InBounds g S) (hS : S.Encloses g w) :
    j'.InBounds g S ∧ S.Encloses g w' := by
  cases h with
  | turn ha => exact acts_inBounds hk ha hj hS
  | aside ha => exact aside_inBounds hk ha hj hS

theorem scheduled_inBounds (hk : ∀ n ∈ g.nodes, g.check n.primitive n.operands = .ok ())
    {j j' : Job} (h : j.Scheduled g w j' w') (hj : j.InBounds g S) (hS : S.Encloses g w) :
    j'.InBounds g S := by
  induction h with
  | refl => exact hj
  | next hg _ ih =>
    obtain ⟨hj', hS'⟩ := goes_inBounds hk hg hj hS
    exact ih hj' hS'

/-! ## Panics -/

/-- Something in the job has panicked. -/
inductive Job.Broken : Job → Prop
  | panic : Broken (.done (.error .panic))
  | incomplete {site id} : Broken (.done (.fail site (.incomplete id)))
  | waiting {k j} : Broken j → Broken (.waiting k j)
  | turned {k turned t j coming} : t ∈ turned → Broken t → Broken (.joined k turned j coming)
  | current {k turned j coming} : Broken j → Broken (.joined k turned j coming)
  | coming {k turned j c coming} : c ∈ coming → Broken c → Broken (.joined k turned j coming)
  | placed {id site j} : Broken j → Broken (.placed id site j)

theorem explodes_of_broken {j : Job} (h : j.Broken) (hj : j.InBounds g S) : g.Explodes S := by
  -- a join keeps the jobs that had their turn in reverse, its team is in the order of operands
  have hmem : ∀ {before after : List Member} {s : Member} {t : Job},
      t ∈ (jobsOf before).reverse ∨ t = s.job ∨ t ∈ jobsOf after →
      (∀ m ∈ before ++ s :: after, m.job.InBounds g S) → t.InBounds g S := by
    intro before after s t ht hteam
    have hjobs : ∀ t ∈ jobsOf (before ++ s :: after), t.InBounds g S := List.forall_mem_map.2 hteam
    refine hjobs t ?_
    rw [jobsOf_append, List.mem_append, ← List.mem_reverse]
    exact ht.imp id fun ht => List.mem_cons.2 ht
  induction h with
  | panic | incomplete =>
    cases hj with
    | done hr => exact hr
    | joined ho => cases ho
  | waiting _ ih =>
    cases hj with
    | waiting _ hj => exact ih hj
    | joined ho => cases ho
  | turned ht _ ih =>
    cases hj with
    | joined ho _ hteam => cases ho; exact ih (hmem (.inl ht) hteam)
  | current _ ih =>
    cases hj with
    | joined ho _ hteam => cases ho; exact ih (hmem (.inr (.inl rfl)) hteam)
  | coming hc _ ih =>
    cases hj with
    | joined ho _ hteam => cases ho; exact ih (hmem (.inr (.inr hc)) hteam)
  | placed _ ih =>
    cases hj with
    | placed hj => exact ih hj
    | joined ho => cases ho

/-- In a graph whose nodes have passed the check, the operands that a node reads by position
are there, and so are the values, whether the node was built with operands or takes the
arguments of the call: a join has a value for each operand, in their order. Nothing that an
evaluation comes to, in whatever order its jobs act, has panicked unless a node made to
panic is reached; so without such nodes no evaluation panics. -/
theorem indices_in_bounds {v : Value} {args : List Value} {w : World}
    (hk : ∀ n ∈ g.nodes, g.check n.primitive n.operands = .ok ())
    (ho : ∀ n ∈ g.nodes, ∀ x ∈ n.operands, x.Below g.nodes.size)
    (hs : ∀ i, (w.slot i).Below g.nodes.size)
    (hr : ∀ x ∈ v :: args, x.Below g.nodes.size) :
    (∀ n ∈ g.nodes, n.Equipped g) ∧
    (∀ n ∈ g.nodes, ∀ k, n.join? = some k → ∀ content as u,
      (k.Takes (n.bind as).1.length ∧
        n.run g content as u = g.join k (n.bind as).1 (n.bind as).2 u) ∨
      (n.operands = [] ∧
        n.run g content as u = (.done (.fail n.site (.wrongCount n.primitive)), u))) ∧
    (∀ k vs as u r z, (g.join k vs as u).1.Scheduled g (g.join k vs as u).2 (.done r) z →
      ∃ jobs, Job.Mingled g (g.launchAll as vs u).1 (g.launchAll as vs u).2 jobs z ∧
        ((∃ e, .done (.error e) ∈ jobs ∧ r = .error e) ∨
          ∃ values, values.length = vs.length ∧ jobs = Job.finished values ∧
            r = k.finish values)) ∧
    (∀ j u, g.Schedules v args w j u → j.Broken →
      ∃ i n, g.Reaches w (v :: args) i ∧ g.nodes[i]? = some n ∧ n.primitive = .explode) ∧
    (g.Builtin → (∀ j u, g.Schedules v args w j u → ¬ j.Broken) ∧
      ∀ r z, g.Evaluates v args w r z → r ≠ .error .panic) := by
  have hS := encloses_reach ho hs hr
  have hlaunch := inBounds_launch hS (within_reach List.mem_cons_self)
    (withinAll_reach fun a hm => List.mem_cons_of_mem v hm)
  have hbroken : ∀ j u, g.Schedules v args w j u → j.Broken →
      g.Explodes (g.reach w (v :: args)) := fun j u hj hb =>
    explodes_of_broken hb (scheduled_inBounds hk hj hlaunch (hS.of_slots (launch_slots ..)))
  refine ⟨fun n hn => equipped_of_check (hk n hn),
    fun n hn k hj content as u => run_bound (check_eq_ok_iff.1 (hk n hn)).1 hj content as u,
    fun k vs as u r z h => join_mingles h, hbroken, fun hb => ?_⟩
  have hnone : ∀ j u, g.Schedules v args w j u → ¬ j.Broken := by
    intro j u hj hbr
    obtain ⟨i, n, -, hn, hp⟩ := hbroken j u hj hbr
    have hbuiltin := hb n (Array.mem_of_getElem? hn)
    rw [hp] at hbuiltin
    cases hbuiltin
  refine ⟨hnone, ?_⟩
  rintro r z he rfl
  exact hnone _ z (schedules_of_evaluates he) .panic

/-- A comparison that takes the arguments of the call, and a choice by it. -/
def bareLess : Graph where
  nodes := #[⟨.compare .less, [], ⟨"less", "sample"⟩, .here⟩,
    ⟨.choice, [.node ⟨0, "less"⟩, .int 1], ⟨"choice", "sample"⟩, .here⟩]

/-- Two arguments are compared, one is too few, and with that one nothing panics. -/
theorem bareLess_in_bounds :
    bareLess.Evaluates (.node ⟨1, "choice"⟩) [.int 3, .int 4] .empty (.ok (.int 1)) .empty ∧
    bareLess.Evaluates (.node ⟨1, "choice"⟩) [.int 3] .empty
      (.fail ⟨"less", "sample"⟩ (.wrongCount (.compare .less))) .empty ∧
    ∀ j u, bareLess.Schedules (.node ⟨1, "choice"⟩) [.int 3] .empty j u → ¬ j.Broken := by
  have hk : ∀ n ∈ bareLess.nodes, bareLess.check n.primitive n.operands = .ok () := by
    simp only [bareLess, List.mem_toArray, List.forall_mem_cons]
    exact ⟨rfl, rfl, List.forall_mem_nil _⟩
  obtain ⟨-, -, -, -, hnone⟩ := @indices_in_bounds bareLess (.node ⟨1, "choice"⟩) [.int 3] .empty
    hk (by decide) (below_slot (by simp [World.empty])) (by decide)
  exact ⟨⟨20, rfl⟩, ⟨20, rfl⟩, (hnone (by decide)).1⟩

end ArrayGraph
