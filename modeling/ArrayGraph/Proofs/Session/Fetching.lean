import ArrayGraph.Proofs.Evaluation.Arguments
import ArrayGraph.Proofs.Evaluation.Footprint
import ArrayGraph.Proofs.Evaluation.Hosting
import ArrayGraph.Proofs.Evaluation.Tracking
import ArrayGraph.Proofs.Session.Substitution
/-!
# Arguments taken and arguments fetched

A comparison, an arithmetic operation or a statistic that is built without operands takes
the arguments of the call in their place. Another one may be built with nodes that fetch
these arguments one by one. If nothing that the arguments reach is a store, both come to
the same (`taken_or_fetched`).

The first launches its arguments at once, the second when the nodes that fetch them run. In
the caller's own turns, a job that has been fetched is the job of the argument and keeps up
with it from there (`fetched_keepsUp`), since no slot has changed between the one moment and
the other. Under any schedule, a pool may have begun with an argument before its turn. If the
thread that runs the node runs what fetches the argument, it can make up for that when the
turn has come (`fetching_tracks`). Had a pool to fetch two arguments that fail, it would be
up to the schedule which of them is heard of.
-/

namespace ArrayGraph

variable {g : Graph} {w u u' : World} {args operands : List Value} {n n' : Node}

/-! ## What is compared -/

/-- Comparisons, arithmetic and statistics: all that computes something of the values of its
operands. -/
def Primitive.computes : Primitive → Bool
  | .compare _ | .arithmetic _ | .statistic _ => true
  | _ => false

/-- The operands fetch the arguments of a call, as many as this, in their order, from
localities that are reached. -/
def Graph.Fetches (g : Graph) (operands : List Value) (count : Nat) : Prop :=
  operands.length = count ∧ ∀ i v, operands[i]? = some v → ∃ h n, v = .node h ∧
    g.node? h = some n ∧ n.argumentIndex? = some i ∧ n.locality.Served

/-- All nodes that these values reach are built in, and none is a store. -/
def Graph.OnlyReads (g : Graph) (w : World) (args : List Value) : Prop :=
  ∀ i n, g.Reaches w args i → g.nodes[i]? = some n →
    n.primitive.isBuiltin = true ∧ n.primitive ≠ .store

/-- All nodes have passed the check, and no handle in an operand or a variable leads out of
the graph. -/
structure Graph.Checked (g : Graph) (w : World) : Prop where
  checked : ∀ n ∈ g.nodes, g.check n.primitive n.operands = .ok ()
  operands : ∀ n ∈ g.nodes, ∀ v ∈ n.operands, v.Below g.nodes.size
  holds : g.Holds w

/-- The scope of what these values reach and of all nodes that fetch arguments. No slot is
written in it. -/
def Graph.reading (g : Graph) (w : World) (args : List Value) : Scope where
  node i := g.Reaches w args i ∨ ∃ n, g.nodes[i]? = some n ∧ n.primitive = .argument
  slot _ := False
  loops := True
  takes := True

section Reading

variable (hg : g.Checked w)

include hg

theorem plain_of_argument (hn : n ∈ g.nodes) (hp : n.primitive = .argument) :
    ∀ v ∈ n.operands, v.Plain := by
  obtain ⟨hcount, -, -, hindex⟩ := check_eq_ok_iff.1 (hg.checked n hn)
  intro v hv
  rw [hp] at hcount
  obtain ⟨index, ho⟩ := List.length_eq_one_iff.1 (beq_iff_eq.1 hcount)
  rw [ho, List.mem_singleton] at hv
  subst hv
  obtain ⟨i, hi, -⟩ := (Option.any_eq_true ..).1 (hindex hp v (by rw [ho]; rfl))
  cases v with
  | node h => cases hi
  | _ => rfl

variable (hr : g.OnlyReads w args)

include hr

theorem closed_reading : (g.reading w args).Closed g w := by
  rintro i n (hi | ⟨m, hm, hp⟩) hn
  · obtain ⟨hb, hs⟩ := hr i n hi hn
    refine ⟨⟨tame_of_builtin hb, ?_, fun _ _ hp => absurd hp hs, fun _ => trivial,
      fun _ => trivial⟩, fun hp h he => .inl (.content hi hn hp he)⟩
    rintro v hv h rfl
    exact .inl (.operand hi hn hv)
  · cases hm.symm.trans hn
    have hb : n.primitive.isBuiltin = true := by rw [hp]; rfl
    refine ⟨⟨tame_of_builtin hb, fun v hv => ?_, fun _ _ hs => ?_, fun _ => trivial,
      fun _ => trivial⟩, fun hv => ?_⟩
    · exact within_of_plain (plain_of_argument hg (Array.mem_of_getElem? hn) hp v hv)
    · cases hp.symm.trans hs
    · cases hp.symm.trans hv

theorem encloses_reading (ha : ∀ a ∈ args, a.Below g.nodes.size) :
    (g.reading w args).Encloses g w where
  present := by
    rintro i (hi | ⟨m, hm, -⟩)
    · cases hi with
      | root hm => exact ha _ hm _ rfl
      | operand _ hn hm => exact hg.operands _ (Array.mem_of_getElem? hn) _ hm _ rfl
      | content _ hn hp he => exact hg.holds _ _ hn hp _ he
    · exact (Array.getElem?_eq_some_iff.1 hm).1
  operands i n hi hn := (closed_reading hg hr i n hi hn).1.operands
  content i n hi hn hp := (closed_reading hg hr i n hi hn).2 hp

omit hg in
/-- Nothing in the scope is made to panic. -/
theorem not_explodes_reading : ¬ g.Explodes (g.reading w args) := by
  rintro ⟨i, n, hi | ⟨m, hm, hp⟩, hn, hx⟩
  · have hb := (hr i n hi hn).1
    rw [hx] at hb
    cases hb
  · cases hm.symm.trans hn
    cases hp.symm.trans hx

end Reading

theorem within_reading : WithinAll (g.reading w args) args := by
  rintro v hv h rfl
  exact .inl (.root hv)

/-! ## Jobs that are fetched -/

/-- A job of an argument, and the same job once it has been fetched: a node that is about
to fetch the argument, or the job itself, on any localities. -/
inductive Job.Fetched (g : Graph) (w : World) (args : List Value) : Job → Job → Prop
  | same {j} : Fetched g w args j j
  | start {n content i a} : n.argumentIndex? = some i → args[i]? = some a →
      Fetched g w args (g.launch a [] w).1 (.start n content args)
  | placed {id site j j'} : Fetched g w args j j' → Fetched g w args j (.placed id site j')

theorem Progress.Paired.and {R : Job → Job → Prop} {P : Job → Prop} {p p' : Progress}
    (h : p.Paired R p') (hp : P p.rest) : p.Paired (fun j j' => R j j' ∧ P j) p' := by
  cases h with
  | finished hr => exact .finished ⟨hr, hp⟩
  | moved hj => exact .moved ⟨hj, hp⟩
  | suspended hj hv hv' => exact .suspended ⟨hj, hp⟩ hv hv'

/-- The step of a node that fetches an argument. -/
theorem step_fetch {content a : Value} {i : Nat} (hi : n.argumentIndex? = some i)
    (ha : args[i]? = some a) (u : World) : (Job.start n content args).step g u =
      (.moved (g.launch a [] u).1, (g.launch a [] u).2) := by
  obtain ⟨hprim, x, hx, rfl⟩ := argumentIndex?_eq_some.1 hi
  simp only [Job.step, Node.run, hprim, hx, ha]

/-- What a pool reports is what happened, unless that was a panic. -/
theorem paired_reported {p p' : Progress} {id : LocalityId} {site : Site}
    (h : p.Paired (Job.Fetched g w args) p') (hp : p ≠ .finished (.error .panic)) :
    p.Paired (Job.Fetched g w args) (p'.reported id site) := by
  cases h with
  | @finished r _ =>
    have hr : r.reported id site = r := reported_eq fun he => hp (by rw [he])
    simp only [Progress.reported, hr]
    exact .finished .same
  | moved hj => exact .moved (.placed hj)
  | suspended hj hv _ => exact .suspended (.placed hj) hv rfl

section Keeping

variable (hg : g.Checked w) (hr : g.OnlyReads w args)

include hg hr

/-- Within the scope a job takes the same steps whenever the slots hold what they held. -/
theorem step_reading {j : Job} (hj : j.Within (g.reading w args)) (hu : u.slots = w.slots) :
    (j.step g u).1 = (j.step g w).1 ∧ (j.step g u).2.slots = w.slots := by
  have hc := closed_reading hg hr
  have hag := World.agree_of_slots (S := g.reading w args) hu.symm
  refine ⟨(step_agree hj hc hag).1.symm, ?_⟩
  have hkept := (step_within hj (hc.agree hag)).2
  exact (hkept.slots_eq fun i hi => hi).trans hu

/-- A job that is fetched takes some steps for a step of the job of the argument. -/
theorem comesTo_fetched {j j' : Job} (h : j.Fetched g w args j')
    (hj : j.Within (g.reading w args)) (hp : (j.step g w).1 ≠ .finished (.error .panic))
    (hu : u.slots = w.slots) : ∃ p z, j'.ComesTo g u p z ∧
      (j.step g w).1.Paired (Job.Fetched g w args) p ∧ z.slots = w.slots := by
  have hsame : ∀ {u : World}, u.slots = w.slots → ∃ p z, j.ComesTo g u p z ∧
      (j.step g w).1.Paired (Job.Fetched g w args) p ∧ z.slots = w.slots := by
    intro u hu
    obtain ⟨hstep, hslots⟩ := step_reading hg hr hj hu
    refine ⟨_, _, .now rfl, ?_, hslots⟩
    rw [hstep]
    cases hs : (j.step g w).1 with
    | finished r => exact .finished .same
    | moved j₁ => exact .moved .same
    | suspended j₁ => exact .suspended .same (value?_of_suspended hs) (value?_of_suspended hs)
  induction h with
  | same => exact hsame hu
  | @start n content i a hi ha =>
    obtain ⟨p, z, hc, hpair, hz⟩ := hsame ((launch_slots g a [] u).trans hu)
    rw [← launch_of_slots hu] at hc
    exact ⟨p, z, .later (step_fetch hi ha u) hc, hpair, hz⟩
  | placed _ ih =>
    obtain ⟨p, z, hc, hpair, hz⟩ := ih hj hp hsame
    exact ⟨_, z, comesTo_placed hc, paired_reported hpair hp, hz⟩

variable (ha : ∀ a ∈ args, a.Below g.nodes.size)

include ha

theorem fetched_keepsUp : KeepsUp g g (fun u u' => u.slots = w.slots ∧ u'.slots = w.slots)
    fun j j' => j.Fetched g w args j' ∧
      j.Within (g.reading w args) ∧ j.InBounds g (g.reading w args) := by
  rintro j j' u u' ⟨hj, hin, hb⟩ ⟨hu, hu'⟩
  obtain ⟨hstep, hslots⟩ := step_reading hg hr hin hu
  have hwithin := rest_within (step_within hin (closed_reading hg hr)).1
  have hbound := (acts_inBounds hg.checked (acts_step j w) hb (encloses_reading hg hr ha)).1
  have hne : (j.step g w).1 ≠ .finished (.error .panic) := by
    intro he
    rw [he] at hbound
    exact not_explodes_reading hr (explodes_of_broken .panic hbound)
  obtain ⟨p, z, hc, hpair, hz⟩ := comesTo_fetched hg hr hj hin hne hu'
  rw [hstep]
  exact ⟨p, z, hc, hpair.and ⟨hwithin, hbound⟩, hslots, hz⟩

/-! ## Joins -/

omit hg hr ha in
theorem launch_fetched {h : Handle} {i : Nat} {a : Value} (hn : g.node? h = some n)
    (hi : n.argumentIndex? = some i) (hs : n.locality.Served) (hx : args[i]? = some a)
    (u : World) : (g.launch a [] w).1.Fetched g w args (g.launch (.node h) args u).1 := by
  have hstart : (g.launch a [] w).1.Fetched g w args (.start n (u.slot h.index) args) :=
    .start hi hx
  simp only [Graph.launch, hn, Locality.dispatch]
  cases ht : n.locality.transport with
  | inline | recorder line => exact hstart
  | pool size name =>
    simp only [if_pos (hs size name ht)]
    exact .placed hstart

/-- The arguments side by side, and the nodes that fetch them. -/
theorem start_fetched (k : Join) (hf : g.Fetches operands args.length) (hu : u.slots = w.slots)
    (hu' : u'.slots = w.slots) :
    (k.start (g.launchAll [] args u).1).Beside (fun j j' => j.Fetched g w args j' ∧
        j.Within (g.reading w args) ∧ j.InBounds g (g.reading w args))
      (k.start (g.launchAll args operands u').1) := by
  rw [launchAll_jobs hu, launchAll_jobs hu']
  refine start_beside k (List.forall₂_map_left_iff.2 (List.forall₂_map_right_iff.2 ?_))
  rw [List.forall₂_iff_get]
  refine ⟨hf.1.symm, fun i hi hi' => ?_⟩
  obtain ⟨h, n, hv, hn, hindex, hs⟩ := hf.2 i _ (List.getElem?_eq_getElem hi')
  rw [List.get_eq_getElem, List.get_eq_getElem, hv]
  have hin : (args[i]).Within (g.reading w args) := within_reading _ (List.getElem_mem hi)
  exact ⟨launch_fetched hn hindex hs (List.getElem?_eq_getElem hi) w,
    launch_within (closed_reading hg hr) hin withinAll_nil.given,
    inBounds_launch (encloses_reading hg hr ha) hin withinAll_nil⟩

/-- Both come to the same ends. -/
theorem join_fetched {r : Outcome} (k : Join) (hf : g.Fetches operands args.length)
    (hu : u.slots = w.slots) (hu' : u'.slots = w.slots) :
    (∃ z, (g.join k args [] u).1.Runs g (g.join k args [] u).2 r z) ↔
      ∃ z, (g.join k operands args u').1.Runs g (g.join k operands args u').2 r z := by
  have hlaunched := And.intro ((launchAll_slots g [] args u).trans hu)
    ((launchAll_slots g args operands u').trans hu')
  obtain ⟨hforth, hback⟩ := (fetched_keepsUp hg hr ha).joined.runs (r := r)
    (start_fetched hg hr ha k hf hu hu') hlaunched
  rw [join_eq, join_eq]
  constructor
  · rintro ⟨z, hz⟩
    obtain ⟨z', hz', -⟩ := hforth z hz
    exact ⟨z', hz'⟩
  · rintro ⟨z', hz'⟩
    obtain ⟨z, hz, -⟩ := hback z' hz'
    exact ⟨z, hz⟩

end Keeping

/-! ## Under any schedule -/

/-- While the slots hold what they held, something has been done for a job out of its turn. -/
inductive Job.Drifts (g : Graph) (w : World) : Job → Job → Prop
  | refl {j} : Drifts g w j j
  | next {j j' j'' u u'} : Drifts g w j j' → u.slots = w.slots → j'.Aside g u j'' u' →
      Drifts g w j j''

/-- A job of an argument, and a job like it or the node that is yet to fetch it. How the
argument may have fared since it was launched is up to `since`. -/
inductive Job.Pending (g : Graph) (w : World) (args : List Value) (since : Job → Job → Prop) :
    Job → Job → Prop
  | alike {j j'} : j.Alike j' → Pending g w args since j j'
  | start {n content i a j} : n.argumentIndex? = some i → args[i]? = some a →
      since (g.launch a [] w).1 j → Pending g w args since j (.start n content args)

/-- The thread that calls runs the nodes of these operands. -/
def Graph.NearOperands (g : Graph) (operands : List Value) : Prop :=
  ∀ h n, .node h ∈ operands → g.node? h = some n → n.locality.Near

theorem paired_alike {S : Scope} {R : Job → Job → Prop} {p p' : Progress} (h : p.Alike p')
    (hp : p.Within S) (hp' : p'.Within S)
    (hR : ∀ {j j' : Job}, j.Alike j' → j.Within S → j'.Within S → R j j')
    (hv : ∀ j, p = .suspended j → j.value? = none)
    (hv' : ∀ j, p' = .suspended j → j.value? = none) : p.Paired R p' := by
  cases h with
  | finished => exact .finished (hR .done (.done hp) (.done hp'))
  | moved hj => exact .moved (hR hj hp hp')
  | suspended hj => exact .suspended (hR hj hp.2 hp'.2) (hv _ rfl) (hv' _ rfl)

section Scheduling

variable (hg : g.Checked w) (hr : g.OnlyReads w args)

include hg hr

theorem closed_reading_of_slots (hu : u.slots = w.slots) : (g.reading w args).Closed g u :=
  (closed_reading hg hr).agree (World.agree_of_slots hu.symm)

theorem aside_reading {j i : Job} (hj : j.Within (g.reading w args)) (hu : u.slots = w.slots)
    (h : j.Aside g u i u') : i.Within (g.reading w args) ∧ u'.slots = w.slots := by
  obtain ⟨hi, hk⟩ := aside_within h hj trivial (closed_reading_of_slots hg hr hu)
  exact ⟨hi, (hk.slots_eq fun _ hi => hi).trans hu⟩

theorem aside_reading_alike {j j' i : Job} {x : World} (hj : j.Within (g.reading w args))
    (hj' : j'.Within (g.reading w args)) (ha : j.Alike j') (hu : u.slots = w.slots)
    (hu' : u'.slots = w.slots) (h : j.Aside g u i x) : ∃ i' z, j'.Aside g u' i' z ∧ i.Alike i' ∧
      i'.Within (g.reading w args) ∧ z.slots = w.slots := by
  obtain ⟨i', z, h', ha', -⟩ := aside_alike h hj trivial (closed_reading_of_slots hg hr hu) ha
    (World.agree_of_slots (hu.trans hu'.symm))
  exact ⟨i', z, h', ha', aside_reading hg hr hj' hu' h'⟩

theorem acts_reading_alike {R : Job → Job → Prop} {j j' : Job} {p : Progress} {x : World}
    (hj : j.Within (g.reading w args)) (hj' : j'.Within (g.reading w args)) (ha : j.Alike j')
    (hu : u.slots = w.slots) (hu' : u'.slots = w.slots) (h : j.Acts g u p x)
    (hR : ∀ {j j' : Job}, j.Alike j' → j.Within (g.reading w args) →
      j'.Within (g.reading w args) → R j j') :
    ∃ p' z, j'.Acts g u' p' z ∧ p.Paired R p' ∧ x.slots = w.slots ∧ z.slots = w.slots := by
  have hc := closed_reading_of_slots hg hr hu
  obtain ⟨p', z, h', hp, -⟩ := acts_alike h hj trivial hc ha
    (World.agree_of_slots (hu.trans hu'.symm))
  obtain ⟨hin, hk⟩ := acts_within h hj trivial hc
  obtain ⟨hin', hk'⟩ := acts_within h' hj' trivial (closed_reading_of_slots hg hr hu')
  exact ⟨p', z, h', paired_alike hp hin hin' hR (fun _ => value?_of_acts h)
    (fun _ => value?_of_acts h'), (hk.slots_eq fun _ hi => hi).trans hu,
    (hk'.slots_eq fun _ hi => hi).trans hu'⟩

/-- What has been done for a job out of its turn can be done in its turn. -/
theorem drifts_turns {l l' j : Job} (h : l.Drifts g w j) (hl : l.Within (g.reading w args))
    (hl' : l'.Within (g.reading w args)) (ha : l.Alike l') (hu : u.slots = w.slots) :
    j.Within (g.reading w args) ∧ ∃ j' z, l'.Turns g u j' z ∧ j.Alike j' ∧
      j'.Within (g.reading w args) ∧ z.slots = w.slots := by
  induction h with
  | refl => exact ⟨hl, l', u, turns_refl l' u, ha, hl', hu⟩
  | next _ hx haside ih =>
    obtain ⟨hj, j', z, hturns, ha', hj', hz⟩ := ih
    obtain ⟨i', y, haside', hi, hi', hy⟩ := aside_reading_alike hg hr hj hj' ha' hx hz haside
    exact ⟨(aside_reading hg hr hj hx haside).1, i', y, hturns.trans (turns_aside haside'), hi, hi',
      hy⟩

theorem launch_reading {a : Value} (ha : a ∈ args) (hu : u.slots = w.slots) :
    (g.launch a [] u).1.Within (g.reading w args) :=
  launch_within (closed_reading_of_slots hg hr hu) (within_reading a ha) withinAll_nil.given

/-- At its turn, an argument that is yet to be fetched is, and catches up. -/
theorem pending_turns {j j' : Job} (h : j.Pending g w args (Job.Drifts g w) j')
    (hj' : j'.Within (g.reading w args)) (hu : u.slots = w.slots) :
    ∃ i z, j'.Turns g u i z ∧ j.Alike i ∧ i.Within (g.reading w args) ∧ z.slots = w.slots := by
  cases h with
  | alike ha => exact ⟨j', u, turns_refl j' u, ha, hj', hu⟩
  | @start n content i a _ hi hx hd =>
    have hm := List.mem_of_getElem? hx
    have hl := launch_reading hg hr hm (rfl : w.slots = w.slots)
    have hslots : (g.launch a [] u).2.slots = w.slots := (launch_slots ..).trans hu
    have hacts := acts_step (g := g) (.start n content args) u
    rw [step_fetch hi hx] at hacts
    have ha : (g.launch a [] w).1.Alike (g.launch a [] u).1 := by
      rw [launch_of_slots hu]
      exact hl.alike
    obtain ⟨-, i, z, hturns, hal, hin, hz⟩ :=
      drifts_turns hg hr hd hl (launch_reading hg hr hm hu) ha hslots
    exact ⟨i, z, (turns_moved hacts).trans hturns, hal, hin, hz⟩

/-- Nodes that fetch arguments track the arguments. -/
theorem fetching_tracks :
    TracksTurns g (fun u u' => u.slots = w.slots ∧ u'.slots = w.slots) fun j j' =>
      j.Pending g w args (Job.Drifts g w) j' ∧
        j.Within (g.reading w args) ∧ j'.Within (g.reading w args) where
  acts := by
    rintro j j' u u' p x ⟨hp, hj, hj'⟩ ⟨hu, hu'⟩ h
    obtain ⟨i, z, hturns, ha, hi, hz⟩ := pending_turns hg hr hp hj' hu'
    have hR : ∀ {j j' : Job}, j.Alike j' → j.Within (g.reading w args) →
        j'.Within (g.reading w args) → j.Pending g w args (Job.Drifts g w) j' ∧
          j.Within (g.reading w args) ∧ j'.Within (g.reading w args) :=
      fun ha hj hj' => ⟨.alike ha, hj, hj'⟩
    obtain ⟨p', y, h', hpair, hslots⟩ := acts_reading_alike hg hr hj hi ha hu hz h hR
    exact ⟨i, z, hturns, .inr ⟨p', y, h', hpair, hslots⟩⟩
  aside := by
    rintro j j' u u' i x ⟨hp, hj, hj'⟩ ⟨hu, hu'⟩ h
    obtain ⟨hi, hx⟩ := aside_reading hg hr hj hu h
    cases hp with
    | alike ha =>
      obtain ⟨i', z, h', ha', hi', hz⟩ := aside_reading_alike hg hr hj hj' ha hu hu' h
      exact .inr ⟨i', z, h', ⟨.alike ha', hi, hi'⟩, hx, hz⟩
    | start hn ha hd => exact .inl ⟨⟨.start hn ha (.next hd hu h), hi, hj'⟩, rfl, hx, hu'⟩

/-- Arguments track the nodes that fetch them. -/
theorem fetched_tracks :
    TracksTurns g (fun u u' => u.slots = w.slots ∧ u'.slots = w.slots) fun j j' =>
      j'.Pending g w args Eq j ∧
        j.Within (g.reading w args) ∧ j'.Within (g.reading w args) where
  acts := by
    rintro j j' u u' p x ⟨hp, hj, hj'⟩ ⟨hu, hu'⟩ h
    cases hp with
    | alike ha =>
      have hR : ∀ {j j' : Job}, j.Alike j' → j.Within (g.reading w args) →
          j'.Within (g.reading w args) → j'.Pending g w args Eq j ∧
            j.Within (g.reading w args) ∧ j'.Within (g.reading w args) :=
        fun ha hj hj' => ⟨.alike (hj.alike_symm ha), hj, hj'⟩
      obtain ⟨p', y, h', hpair, hslots⟩ :=
        acts_reading_alike hg hr hj hj' (hj'.alike_symm ha) hu hu' h hR
      exact ⟨j', u', turns_refl j' u', .inr ⟨p', y, h', hpair, hslots⟩⟩
    | @start n content i a _ hi hx he =>
      subst he
      cases h with
      | step _ =>
        rw [step_fetch hi hx]
        have hl := launch_reading hg hr (List.mem_of_getElem? hx) hu
        refine ⟨_, u', turns_refl _ u', .inl ⟨_, rfl, ⟨.alike ?_, hl, hj'⟩,
          (launch_slots ..).trans hu, hu'⟩⟩
        rw [← launch_of_slots hu]
        exact hl.alike
  aside := by
    rintro j j' u u' i x ⟨hp, hj, hj'⟩ ⟨hu, hu'⟩ h
    obtain ⟨hi, hx⟩ := aside_reading hg hr hj hu h
    cases hp with
    | alike ha =>
      obtain ⟨i', z, h', ha', hi', hz⟩ :=
        aside_reading_alike hg hr hj hj' (hj'.alike_symm ha) hu hu' h
      exact .inr ⟨i', z, h', ⟨.alike (hi.alike_symm ha'), hi, hi'⟩, hx, hz⟩
    | start => cases h

omit hg hr in
theorem launch_fetching {h : Handle} (hn : g.node? h = some n) (hl : n.locality.Near) (u : World) :
    (g.launch (.node h) args u).1 = .start n (u.slot h.index) args := by
  simp only [Graph.launch, hn, Locality.dispatch]
  cases ht : n.locality.transport with
  | inline | recorder line => rfl
  | pool size name => exact absurd ht (hl size name)

theorem launchAll_pending (since : Job → Job → Prop) (hsince : ∀ j, since j j)
    (hf : g.Fetches operands args.length) (hl : g.NearOperands operands)
    (hu : u.slots = w.slots) (hu' : u'.slots = w.slots) :
    List.Forall₂ (fun j j' => j.Pending g w args since j' ∧
        j.Within (g.reading w args) ∧ j'.Within (g.reading w args))
      (g.launchAll [] args u).1 (g.launchAll args operands u').1 := by
  rw [launchAll_jobs hu, launchAll_jobs hu', List.forall₂_map_left_iff,
    List.forall₂_map_right_iff, List.forall₂_iff_get]
  refine ⟨hf.1.symm, fun i hi hi' => ?_⟩
  obtain ⟨h, n, hv, hn, hindex, -⟩ := hf.2 i _ (List.getElem?_eq_getElem hi')
  rw [List.get_eq_getElem, List.get_eq_getElem, hv]
  have hnear : n.locality.Near := hl h n (hv ▸ List.getElem_mem hi') hn
  have hin : (Value.node h).Within (g.reading w args) := by
    rintro _ ⟨⟩
    exact .inr ⟨n, hn, (argumentIndex?_eq_some.1 hindex).1⟩
  have hwithin := launch_within (closed_reading hg hr) hin within_reading.given
  rw [launch_fetching hn hnear] at hwithin ⊢
  exact ⟨.start hindex (List.getElem?_eq_getElem hi) (hsince _),
    launch_reading hg hr (List.getElem_mem hi) rfl, hwithin⟩

/-- Whatever the schedule, both come to the same ends. -/
theorem join_scheduled {r : Outcome} (k : Join) (hf : g.Fetches operands args.length)
    (hl : g.NearOperands operands) (hu : u.slots = w.slots) (hu' : u'.slots = w.slots) :
    (∃ z, (g.join k args [] u).1.Scheduled g (g.join k args [] u).2 (.done r) z) ↔
      ∃ z, (g.join k operands args u').1.Scheduled g (g.join k operands args u').2 (.done r) z := by
  have hslots : (g.launchAll [] args u).2.slots = w.slots := (launchAll_slots ..).trans hu
  have hslots' : (g.launchAll args operands u').2.slots = w.slots := (launchAll_slots ..).trans hu'
  rw [join_eq, join_eq]
  constructor
  · rintro ⟨z, hz⟩
    have hjobs := launchAll_pending hg hr (Job.Drifts g w) (fun _ => .refl) hf hl hu hu'
    have hbeside := start_beside k hjobs
    obtain ⟨i, z', hz', hi, -⟩ :=
      (fetching_tracks hg hr).joined.scheduled ⟨hbeside, hslots, hslots'⟩ hz
    cases hi
    exact ⟨z', hz'⟩
  · rintro ⟨z', hz'⟩
    have hjobs := launchAll_pending hg hr Eq (fun _ => rfl) hf hl hu hu'
    have hbeside := start_beside k (hjobs.flip.imp fun _ _ h => And.intro h.1 h.2.symm)
    obtain ⟨i, z, hz, hi, -⟩ :=
      (fetched_tracks hg hr).joined.scheduled ⟨hbeside, hslots', hslots⟩ hz'
    cases hi
    exact ⟨z, hz⟩

end Scheduling

/-! ## Nodes -/

theorem builtin_of_computes {p : Primitive} (hp : p.computes = true) :
    p.isBuiltin = true ∧ p ≠ .store ∧ p ≠ .variable := by
  cases p <;> simp [Primitive.computes, Primitive.isBuiltin] at hp ⊢

/-- Nodes that compute the same under one name make the same of their values. -/
theorem exists_join (hp : n.primitive.computes = true) (hprimitive : n'.primitive = n.primitive)
    (hsite : n'.site = n.site) : ∃ k, n.join? = some k ∧ n'.join? = some k := by
  unfold Node.join?
  rw [hprimitive, hsite]
  cases hq : n.primitive with
  | compare op | arithmetic op | statistic s => exact ⟨_, rfl, rfl⟩
  | _ =>
    rw [hq] at hp
    cases hp

/-- A node that is built without operands runs as if it were built with the arguments. -/
theorem run_bare (hp : n.primitive.computes = true) (ho : n.operands = []) (hne : args ≠ [])
    (content : Value) (w : World) :
    n.run g content args w = { n with operands := args }.run g content [] w := by
  obtain ⟨p, operands, site, locality⟩ := n
  dsimp only at hp ho
  subst ho
  have hbind : Node.bind ⟨p, args, site, locality⟩ [] = (args, []) := bind_of_operands hne []
  cases p with
  | compare op | arithmetic op | statistic s =>
    simp only [Node.run, Node.joinBound, hbind]
    rfl
  | _ => cases hp

/-- So it joins the arguments, if there are as many as it accepts. -/
theorem run_taken {k : Join} (hp : n.primitive.computes = true) (hk : n.join? = some k)
    (ho : n.operands = []) (hne : args ≠ []) (hcount : n.primitive.accepts args.length = true)
    (content : Value) (w : World) :
    k.Takes args.length ∧ n.run g content args w = g.join k args [] w := by
  have hbind : Node.bind { n with operands := args } [] = (args, []) := bind_of_operands hne []
  have hbound := run_bound (g := g) (n := { n with operands := args }) hcount hk content [] w
  rw [hbind] at hbound
  rw [run_bare hp ho hne]
  exact hbound.resolve_right fun h => hne h.1

theorem run_fetched {k : Join} (hk : n.join? = some k) (hf : g.Fetches n.operands args.length)
    (hne : args ≠ []) (hcount : n.primitive.accepts args.length = true) (content : Value)
    (w : World) : n.run g content args w = g.join k n.operands args w := by
  have hoperands : n.operands ≠ [] := by
    rw [← List.length_pos_iff, hf.1]
    exact List.length_pos_iff.2 hne
  rw [← hf.1] at hcount
  exact run_join hk hoperands hcount content args w

/-- A node that joins without a panic is evaluated to what the join comes to. -/
theorem evaluates_join {h : Handle} {k : Join} {vs as : List Value} {r : Outcome}
    (hn : g.node? h = some n) (hs : n.locality.Served)
    (hrun : ∀ content u, n.run g content args u = g.join k vs as u)
    (hp : ∀ z, ¬ (g.join k vs as (n.entered w)).1.Runs g (g.join k vs as (n.entered w)).2
      (.error .panic) z) :
    (∃ z, g.Evaluates (.node h) args w r z) ↔
      ∃ z, (g.join k vs as (n.entered w)).1.Runs g (g.join k vs as (n.entered w)).2 r z := by
  refine exists_congr fun z => ?_
  rw [evaluates_run hn hs (by rw [hrun]; exact hp), hrun]

/-- So it is under any schedule. -/
theorem schedules_join {h : Handle} {k : Join} {vs as : List Value} {r : Outcome}
    (hn : g.node? h = some n) (hs : n.locality.Served)
    (hrun : ∀ content u, n.run g content args u = g.join k vs as u)
    (hp : ∀ z, ¬ (g.join k vs as (n.entered w)).1.Scheduled g (g.join k vs as (n.entered w)).2
      (.done (.error .panic)) z) :
    (∃ z, g.Schedules (.node h) args w (.done r) z) ↔
      ∃ z, (g.join k vs as (n.entered w)).1.Scheduled g (g.join k vs as (n.entered w)).2
        (.done r) z := by
  refine exists_congr fun z => ?_
  rw [schedules_delivered hn hs, hrun]
  constructor
  · rintro ⟨r₁, hr, rfl⟩
    have hne : r₁ ≠ .error .panic := by
      rintro rfl
      exact hp z hr
    rwa [delivered_eq n hne]
  · intro hr
    have hne : r ≠ .error .panic := by
      rintro rfl
      exact hp z hr
    exact ⟨r, hr, (delivered_eq n hne).symm⟩

/-- A fair evaluation comes to the same under every schedule. -/
theorem schedules_fair {v : Value} (hw : g.Grounded w) (hf : g.FairFor v args w) (r : Outcome) :
    (∃ z, g.Schedules v args w (.done r) z) ↔ ∃ z, g.Evaluates v args w r z := by
  constructor
  · rintro ⟨z, hz⟩
    have hgives : (Job.done r).Gives g z r := gives_done.2 rfl
    rwa [(schedules_like hw hf hz).ends] at hgives
  · rintro ⟨z, hz⟩
    exact ⟨z, schedules_of_evaluates hz⟩

section Nodes

variable {h h' : Handle} {p : Primitive} {k : Join} (hg : g.Checked w) (hr : g.OnlyReads w args)
  (ha : ∀ a ∈ args, a.Below g.nodes.size)

include hg hr

/-- A node that computes changes no slot, at no moment of any schedule. -/
theorem schedules_reading {j : Job} (hn : g.Hosts h n p operands) (hp : p.computes = true)
    (ho : WithinAll (g.reading w args) operands) (hj : g.Schedules (.node h) args w j u) :
    u.slots = w.slots := by
  obtain ⟨hb, hs, hv⟩ := builtin_of_computes hp
  rw [← hn.primitive] at hb hs hv
  rw [← hn.operands] at ho
  have hnode : n.Within (g.reading w args) :=
    ⟨tame_of_builtin hb, ho, fun _ _ he => absurd he hs, fun _ => trivial, fun _ => trivial⟩
  have hlaunch : (g.launch (.node h) args w).1.Within (g.reading w args) := by
    simp only [Graph.launch, hn.node]
    exact dispatch_within (.start hnode (fun he => absurd he hv) within_reading.given)
  have hc := (closed_reading hg hr).kept (.of_slots (launch_slots g (.node h) args w))
  have hkept := (scheduled_within hj hlaunch trivial hc).2
  exact (hkept.slots_eq fun i hi => hi).trans (launch_slots ..)

include ha

/-- A join of the arguments never panics. -/
theorem join_ne_panic (hk : k.Takes args.length) (hu : u.slots = w.slots) (z : World) :
    ¬ (g.join k args [] u).1.Scheduled g (g.join k args [] u).2 (.done (.error .panic)) z := by
  intro hz
  have hE := (encloses_reading hg hr ha).of_slots hu
  have hjoin := inBounds_join hE hk within_reading withinAll_nil
  have hin := scheduled_inBounds hg.checked hz hjoin (hE.of_slots (join_slots ..))
  exact not_explodes_reading hr (explodes_of_broken .panic hin)

section Pairs

variable (hn : g.Hosts h n p []) (hn' : g.Hosts h' n' p operands) (hk : k.Takes args.length)
  (htaken : ∀ content u, n.run g content args u = g.join k args [] u)
  (hfetched : ∀ content u, n'.run g content args u = g.join k operands args u)
  (hf : g.Fetches operands args.length)

include hn hn' hk htaken hfetched hf

/-- A node that joins the arguments is evaluated to what one that joins the nodes which fetch
them comes to. -/
theorem evaluates_fetched (r : Outcome) :
    (∃ z, g.Evaluates (.node h) args w r z) ↔ ∃ z, g.Evaluates (.node h') args w r z := by
  have hjoins := fun r => @join_fetched g w _ _ args operands hg hr ha r k hf (slots_entered n w)
    (slots_entered n' w)
  have hpanic : ∀ z, ¬ (g.join k args [] (n.entered w)).1.Runs g
      (g.join k args [] (n.entered w)).2 (.error .panic) z :=
    fun z hz => join_ne_panic hg hr ha hk (slots_entered n w) z (scheduled_of_runs hz)
  have hpanic' : ∀ z, ¬ (g.join k operands args (n'.entered w)).1.Runs g
      (g.join k operands args (n'.entered w)).2 (.error .panic) z := by
    intro z hz
    obtain ⟨y, hy⟩ := (hjoins _).2 ⟨z, hz⟩
    exact hpanic y hy
  rw [evaluates_join hn.node hn.served htaken hpanic,
    evaluates_join hn'.node hn'.served hfetched hpanic']
  exact hjoins r

/-- So it is under any schedule, if the thread that runs them runs what fetches the
arguments. -/
theorem schedules_fetched (hl : g.NearOperands operands) (r : Outcome) :
    (∃ z, g.Schedules (.node h) args w (.done r) z) ↔
      ∃ z, g.Schedules (.node h') args w (.done r) z := by
  have hjoins := fun r => @join_scheduled g w _ _ args operands hg hr r k hf hl (slots_entered n w)
    (slots_entered n' w)
  have hpanic := join_ne_panic hg hr ha hk (slots_entered n w)
  have hpanic' : ∀ z, ¬ (g.join k operands args (n'.entered w)).1.Scheduled g
      (g.join k operands args (n'.entered w)).2 (.done (.error .panic)) z := by
    intro z hz
    obtain ⟨y, hy⟩ := (hjoins _).2 ⟨z, hz⟩
    exact hpanic y hy
  rw [schedules_join hn.node hn.served htaken hpanic,
    schedules_join hn'.node hn'.served hfetched hpanic']
  exact hjoins r

end Pairs

end Nodes

/-! ## Main statement -/

/-- No schedule makes a difference to whether arguments are taken or fetched: either the
thread that runs the node runs what fetches them, or both ways the joins that are come to are
fair. -/
def Graph.SteadyEither (g : Graph) (w : World) (args operands : List Value) (h h' : Handle) :
    Prop :=
  g.NearOperands operands ∨
    g.Grounded w ∧ g.FairFor (.node h) args w ∧ g.FairFor (.node h') args w

/-- With the arguments of a call, a comparison, an arithmetic operation or a statistic that is
built without operands comes to what it comes to if it is built with nodes that fetch these
arguments, provided that they reach no store: whatever value or error one may come to under
some schedule, the other may as well. Neither changes any slot. -/
theorem taken_or_fetched {h h' : Handle} {p : Primitive} (hg : g.Checked w)
    (ha : ∀ a ∈ args, a.Below g.nodes.size) (hr : g.OnlyReads w args) (hp : p.computes = true)
    (hne : args ≠ []) (hcount : p.accepts args.length = true) (hn : g.Hosts h n p [])
    (hn' : g.Hosts h' n' p operands) (hsite : n'.site = n.site)
    (hf : g.Fetches operands args.length) (hs : g.SteadyEither w args operands h h') :
    (∀ r, (∃ z, g.Schedules (.node h) args w (.done r) z) ↔
        ∃ z, g.Schedules (.node h') args w (.done r) z) ∧
      ∀ v, v = .node h ∨ v = .node h' → ∀ j u, g.Schedules v args w j u → u.slots = w.slots := by
  obtain ⟨-, -, rfl, ho⟩ := id hn
  obtain ⟨-, -, hprimitive, rfl⟩ := id hn'
  obtain ⟨k, hk, hk'⟩ := exists_join hp hprimitive hsite
  have htaken := fun content u => run_taken (g := g) hp hk ho hne hcount content u
  have hfetched := run_fetched hk' hf hne (by rw [hprimitive]; exact hcount)
  constructor
  · intro r
    have hjoin := fun content u => (htaken content u).2
    rcases hs with hl | ⟨hw, hfair, hfair'⟩
    · exact schedules_fetched hg hr ha hn hn' (htaken .empty w).1 hjoin hfetched hf hl r
    · rw [schedules_fair hw hfair, schedules_fair hw hfair']
      exact evaluates_fetched hg hr ha hn hn' (htaken .empty w).1 hjoin hfetched hf r
  · rintro v (rfl | rfl) j u hj
    · exact schedules_reading hg hr hn hp withinAll_nil hj
    · refine schedules_reading hg hr hn' hp (fun v hv t ht => ?_) hj
      obtain ⟨i, hi⟩ := List.getElem?_of_mem hv
      obtain ⟨t', m, rfl, hm, hindex, -⟩ := hf.2 i v hi
      cases ht
      exact .inr ⟨m, hm, (argumentIndex?_eq_some.1 hindex).1⟩

/-- A variable on a pool, and a comparison that is built without operands and once more with
nodes that fetch its arguments. -/
def twoWays : Graph where
  nodes := #[⟨.variable, [.int 5], ⟨"slot", "sample"⟩, ⟨⟨1⟩, .pool 2 "pool"⟩⟩,
    ⟨.argument, [.int 0], ⟨"first", "sample"⟩, .here⟩,
    ⟨.argument, [.int 1], ⟨"second", "sample"⟩, .here⟩,
    ⟨.compare .less, [], ⟨"less", "sample"⟩, .here⟩,
    ⟨.compare .less, [.node ⟨1, "first"⟩, .node ⟨2, "second"⟩], ⟨"less", "sample"⟩, .here⟩]

/-- A variable, and a maximum that is built without operands and once more with a node on a
pool that fetches its argument. -/
def pooledFetch : Graph where
  nodes := #[⟨.variable, [.str "five"], ⟨"slot", "sample"⟩, .here⟩,
    ⟨.argument, [.int 0], ⟨"first", "sample"⟩, ⟨⟨1⟩, .pool 2 "pool"⟩⟩,
    ⟨.statistic .maximum, [], ⟨"max", "sample"⟩, .here⟩,
    ⟨.statistic .maximum, [.node ⟨1, "first"⟩], ⟨"max", "sample"⟩, .here⟩]

theorem pooledFetch_grounded :
    pooledFetch.Grounded ⟨#[.str "five", .empty, .empty, .empty], #[]⟩ where
  size := rfl
  tame := Graph.Builtin.tame (by decide)
  checked := by
    simp only [pooledFetch, List.mem_toArray, List.forall_mem_cons]
    exact ⟨rfl, rfl, rfl, rfl, List.forall_mem_nil _⟩
  ordered i n hn := by
    match i with
    | 0 | 1 | 2 | 3 =>
      cases hn
      decide
    | i + 4 => cases hn
  slots i n hn _ := by
    match i with
    | 0 | 1 | 2 | 3 => exact .inr rfl
    | i + 4 => cases hn

/-- A node that begins is part of the job. -/
theorem Job.Begins.part {j : Job} (h : j.Begins n args) :
    ∃ content, (Job.start n content args).Part j := by
  induction h with
  | @start n content args => exact ⟨content, .all⟩
  | waiting _ ih => exact ih.imp fun _ h => .waiting h
  | turned ht _ ih => exact ih.imp fun _ h => .turned ht h
  | joined _ ih => exact ih.imp fun _ h => .current h
  | coming hc _ ih => exact ih.imp fun _ h => .coming hc h
  | placed _ ih => exact ih.imp fun _ h => .placed h

/-- A join of one argument is fair. -/
theorem pooledFetch_fair (v a : Value) (w : World) : pooledFetch.FairFor v [a] w := by
  intro j u hj n hn as hb hk
  have has : as.length ≤ 1 := by
    obtain ⟨content, hpart⟩ := hb.part
    rcases schedules_under hj hpart with rfl | rfl
    · exact Nat.le_refl 1
    · exact Nat.zero_le 1
  have hbind : (n.bind as).1.length ≤ 1 := by
    simp only [pooledFetch, List.mem_toArray, List.mem_cons, List.not_mem_nil, or_false] at hn
    rcases hn with rfl | rfl | rfl | rfl
    · cases hk
    · cases hk
    · unfold Node.bind
      split
      · exact has
      · exact Nat.zero_le 1
    · exact Nat.le_refl 1
  match (n.bind as).1, hbind with
  | [], _ => exact .nil
  | [b], _ => exact List.pairwise_singleton _ b

theorem twoWays_checked : twoWays.Checked ⟨#[.int 5, .empty, .empty, .empty, .empty], #[]⟩ where
  checked := by
    simp only [twoWays, List.mem_toArray, List.forall_mem_cons]
    exact ⟨rfl, rfl, rfl, rfl, rfl, List.forall_mem_nil _⟩
  operands := by simp [twoWays, Value.Below]
  holds i _ _ _ := below_slot (by simp [Value.Below]) i

/-- The variables of the samples: with a number compared both ways, and their maximum taken
both ways. -/
theorem samples_agree :
    (let w : World := ⟨#[.int 5, .empty, .empty, .empty, .empty], #[]⟩
    let args := [Value.node ⟨0, "slot"⟩, .int 7]
    let operands := [Value.node ⟨1, "first"⟩, .node ⟨2, "second"⟩]
    twoWays.OnlyReads w args ∧
    twoWays.Hosts ⟨3, "less"⟩ twoWays.nodes[3] (.compare .less) [] ∧
    twoWays.Hosts ⟨4, "less"⟩ twoWays.nodes[4] (.compare .less) operands ∧
    twoWays.Fetches operands args.length ∧
    twoWays.SteadyEither w args operands ⟨3, "less"⟩ ⟨4, "less"⟩ ∧
    (∃ z, twoWays.Schedules (.node ⟨3, "less"⟩) args w (.done (.ok (.bool true))) z) ∧
    (∃ z, twoWays.Schedules (.node ⟨4, "less"⟩) args w (.done (.ok (.bool true))) z) ∧
    ∀ j u, twoWays.Schedules (.node ⟨4, "less"⟩) args w j u → u.slots = w.slots) ∧
    let w : World := ⟨#[.str "five", .empty, .empty, .empty], #[]⟩
    let args := [Value.node ⟨0, "slot"⟩]
    let operands := [Value.node ⟨1, "first"⟩]
    let failed : Job := .done (.fail ⟨"max", "sample"⟩ (.notReducible .maximum .str))
    pooledFetch.OnlyReads w args ∧
    pooledFetch.Fetches operands args.length ∧
    pooledFetch.SteadyEither w args operands ⟨2, "max"⟩ ⟨3, "max"⟩ ∧
    (∃ z, pooledFetch.Schedules (.node ⟨2, "max"⟩) args w failed z) ∧
    ∃ z, pooledFetch.Schedules (.node ⟨3, "max"⟩) args w failed z := by
  constructor
  · intro w args operands
    have ha : ∀ a ∈ args, a.Below twoWays.nodes.size := by simp [args, twoWays, Value.Below]
    have hr : twoWays.OnlyReads w args := by
      intro i n hi hn
      have hm : i ∈ [0] := mem_of_reaches rfl rfl hi
      cases List.mem_singleton.1 hm
      cases hn
      exact ⟨rfl, nofun⟩
    have hn : twoWays.Hosts ⟨3, "less"⟩ twoWays.nodes[3] (.compare .less) [] :=
      ⟨rfl, served_of_inline rfl, rfl, rfl⟩
    have hn' : twoWays.Hosts ⟨4, "less"⟩ twoWays.nodes[4] (.compare .less) operands :=
      ⟨rfl, served_of_inline rfl, rfl, rfl⟩
    have hf : twoWays.Fetches operands args.length := by
      refine ⟨rfl, fun i v hv => ?_⟩
      rcases i with _ | _ | i <;> cases hv <;> exact ⟨_, _, rfl, rfl, rfl, served_of_inline rfl⟩
    have hs : twoWays.SteadyEither w args operands ⟨3, "less"⟩ ⟨4, "less"⟩ := by
      refine .inl fun h n hm hn => ?_
      rcases List.mem_pair.1 hm with he | he <;> cases he <;> cases hn <;> exact near_of_inline rfl
    obtain ⟨hsame, hslots⟩ :=
      taken_or_fetched twoWays_checked ha hr rfl nofun rfl hn hn' rfl hf hs
    have hless : ∃ z, twoWays.Schedules (.node ⟨3, "less"⟩) args w (.done (.ok (.bool true))) z :=
      ⟨_, schedules_of_evaluates ⟨12, rfl⟩⟩
    exact ⟨hr, hn, hn', hf, hs, hless, (hsame _).1 hless, hslots _ (.inr rfl)⟩
  · intro w args operands failed
    have hg : pooledFetch.Checked w :=
      ⟨pooledFetch_grounded.checked, by simp [pooledFetch, Value.Below],
        fun i _ _ _ => below_slot (by simp [w, Value.Below]) i⟩
    have ha : ∀ a ∈ args, a.Below pooledFetch.nodes.size := by simp [args, pooledFetch, Value.Below]
    have hr : pooledFetch.OnlyReads w args := by
      intro i n hi hn
      have hm : i ∈ [0] := mem_of_reaches rfl rfl hi
      cases List.mem_singleton.1 hm
      cases hn
      exact ⟨rfl, nofun⟩
    have hn : pooledFetch.Hosts ⟨2, "max"⟩ pooledFetch.nodes[2] (.statistic .maximum) [] :=
      ⟨rfl, served_of_inline rfl, rfl, rfl⟩
    have hn' : pooledFetch.Hosts ⟨3, "max"⟩ pooledFetch.nodes[3] (.statistic .maximum) operands :=
      ⟨rfl, served_of_inline rfl, rfl, rfl⟩
    have hf : pooledFetch.Fetches operands args.length := by
      refine ⟨rfl, fun i v hv => ?_⟩
      rcases i with _ | i <;> cases hv
      exact ⟨_, _, rfl, rfl, rfl, @served_of_pool ⟨2, "pool"⟩ ⟨1⟩ _ rfl⟩
    have hs : pooledFetch.SteadyEither w args operands ⟨2, "max"⟩ ⟨3, "max"⟩ :=
      .inr ⟨pooledFetch_grounded, pooledFetch_fair _ _ w, pooledFetch_fair _ _ w⟩
    obtain ⟨hsame, -⟩ := taken_or_fetched hg ha hr rfl nofun rfl hn hn' rfl hf hs
    have hmax : ∃ z, pooledFetch.Schedules (.node ⟨2, "max"⟩) args w failed z :=
      ⟨_, schedules_of_evaluates ⟨12, rfl⟩⟩
    exact ⟨hr, hf, hs, hmax, (hsame _).1 hmax⟩

end ArrayGraph
