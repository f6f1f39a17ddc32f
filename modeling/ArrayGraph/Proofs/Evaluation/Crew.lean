import ArrayGraph.Proofs.Evaluation.Pause
import ArrayGraph.Proofs.Evaluation.Sequence
import ArrayGraph.Proofs.Evaluation.Sibling
import Mathlib.Data.List.Forall2
/-!
# Joins of jobs that keep apart

The jobs of a `Crew` write nothing that another of them may touch, and no two of them
fail. What a join of them comes to is then settled by what each comes to alone, whatever
turns they have had: the failure of the one that fails, or else what the kind of join
makes of all values (`over_yields`). A failure is noticed even beside a job that never
ends, since the turns of that end.
-/

namespace ArrayGraph

variable {g : Graph} {S : Scope} {w w' z : World} {k : Join}

/-! ## Ends -/

/-- The job comes to this end. -/
def Job.Gives (g : Graph) (w : World) (j : Job) (r : Outcome) : Prop := ∃ z, j.Runs g w r z

theorem gives_unique {j : Job} {r r' : Outcome} (h : j.Gives g w r) (h' : j.Gives g w r') :
    r = r' := by
  obtain ⟨_, h⟩ := h
  obtain ⟨_, h'⟩ := h'
  exact (h.unique h').1

theorem gives_done {r r' : Outcome} : (Job.done r').Gives g w r ↔ r = r' := by
  simp [Job.Gives, runs_done]

theorem runs_rest {p : Progress} {r : Outcome} : p.rest.Runs g w r z ↔ p.Runs g w r z := by
  cases p with
  | finished r' => exact runs_done
  | moved j | suspended j => exact Iff.rfl

theorem gives_comesTo {j : Job} {p : Progress} (h : j.ComesTo g w p w') (r : Outcome) :
    j.Gives g w r ↔ p.rest.Gives g w' r :=
  exists_congr fun _ => (Job.runs_comesTo h).trans runs_rest.symm

theorem runs_agree {j : Job} {r : Outcome} (hj : j.Within S) (hc : S.Closed g w)
    (h : w.Agree S w') (hr : j.Runs g w r z) : ∃ z', j.Runs g w' r z' ∧ z.Agree S z' := by
  obtain ⟨n, hn⟩ := hr
  obtain ⟨z', hz', hag⟩ := run_agree hj hc h hn
  exact ⟨z', ⟨n, hz'⟩, hag⟩

theorem gives_agree {j : Job} (hj : j.Within S) (hc : S.Closed g w) (h : w.Agree S w') :
    j.Gives g w = j.Gives g w' := by
  funext r
  refine propext ⟨?_, ?_⟩
  · rintro ⟨z, hz⟩
    obtain ⟨z', hz', -⟩ := runs_agree hj hc h hz
    exact ⟨z', hz'⟩
  · rintro ⟨z, hz⟩
    obtain ⟨z', hz', -⟩ := runs_agree hj (hc.agree h) h.symm hz
    exact ⟨z', hz'⟩

/-! ## Crews -/

/-- A job and what it may touch. -/
structure Member where
  scope : Scope
  job : Job

def jobsOf (team : List Member) : List Job := team.map (·.job)

/-- What each member comes to alone. -/
def endsOf (g : Graph) (w : World) (team : List Member) : List (Outcome → Prop) :=
  team.map (·.job.Gives g w)

/-- Not both can be an error. -/
def NotBoth (o o' : Outcome → Prop) : Prop := ∀ h h', o (.error h) → ¬ o' (.error h')

structure Crew (g : Graph) (team : List Member) (w : World) : Prop where
  within : ∀ t ∈ team, t.job.Within t.scope
  closed : ∀ t ∈ team, t.scope.Closed g w
  apart : team.Pairwise fun s t => s.scope.Apart t.scope
  own : ∀ t ∈ team, ∀ i, t.scope.slot i → t.scope.node i
  single : (endsOf g w team).Pairwise NotBoth

section Lists

variable {α : Type} {P : α → Prop} {left right : List α} {a b : α}

theorem mem_of_beside (hb : b ∈ left ++ right) : b ∈ left ++ a :: right := by
  simp only [List.mem_append, List.mem_cons] at hb ⊢
  exact hb.imp id .inr

theorem forall_of_beside (ha : P a) (h : ∀ b ∈ left ++ right, P b) :
    ∀ b ∈ left ++ a :: right, P b := by
  intro b hb
  rcases List.mem_append.1 hb with hl | hb
  · exact h b (List.mem_append_left _ hl)
  · rcases List.mem_cons.1 hb with rfl | hr
    · exact ha
    · exact h b (List.mem_append_right _ hr)

/-- All have the property still if one that has it takes the place of another. -/
theorem forall_replaced (h : ∀ c ∈ left ++ a :: right, P c) (hb : P b) :
    ∀ c ∈ left ++ b :: right, P c :=
  forall_of_beside hb fun c hc => h c (mem_of_beside hc)

end Lists

section Crews

variable {team before after : List Member} {s : Member}

/-- The others see nothing of what one member does. -/
theorem Crew.agree (h : Crew g (before ++ s :: after) w) (hk : w.Kept s.scope w') :
    ∀ t ∈ before ++ after, w.Agree t.scope w' := by
  have hp := h.apart
  rw [List.pairwise_middle fun h => h.symm, List.pairwise_cons] at hp
  exact fun t ht => hk.agree (hp.1 t ht).1

/-- The others do not fail if one member does. -/
theorem Crew.others {e e' : Halt} (h : Crew g (before ++ s :: after) w)
    (hs : s.job.Gives g w (.error e)) :
    ∀ t ∈ before ++ after, ¬ t.job.Gives g w (.error e') := by
  have hp := h.single
  rw [endsOf, List.map_append, List.map_cons,
    List.pairwise_middle fun h e e' ho ho' => h e' e ho' ho, List.pairwise_cons,
    ← List.map_append] at hp
  exact fun t ht => hp.1 _ (List.mem_map_of_mem ht) e e' hs

/-- One member goes on by itself, and comes to the same end alone as before. -/
theorem Crew.advance {j : Job} (h : Crew g (before ++ s :: after) w) (hj : j.Within s.scope)
    (hk : w.Kept s.scope w') (hg : ∀ r, s.job.Gives g w r ↔ j.Gives g w' r) :
    Crew g (before ++ ⟨s.scope, j⟩ :: after) w' ∧
      endsOf g w' (before ++ ⟨s.scope, j⟩ :: after) = endsOf g w (before ++ s :: after) := by
  have hagree := h.agree hk
  have hends : endsOf g w' (before ++ ⟨s.scope, j⟩ :: after) =
      endsOf g w (before ++ s :: after) := by
    have hsame : ∀ t ∈ before ++ after, t.job.Gives g w' = t.job.Gives g w := fun t ht =>
      (gives_agree (h.within t (mem_of_beside ht)) (h.closed t (mem_of_beside ht))
        (hagree t ht)).symm
    rw [List.forall_mem_append] at hsame
    have hjob : j.Gives g w' = s.job.Gives g w := funext fun r => propext (hg r).symm
    simp only [endsOf, List.map_append, List.map_cons, hjob, List.map_congr_left hsame.1,
      List.map_congr_left hsame.2]
  refine ⟨⟨?_, ?_, ?_, ?_, ?_⟩, hends⟩
  · exact forall_replaced h.within hj
  · exact forall_of_beside ((h.closed s (by simp)).kept hk) fun t ht =>
      (h.closed t (mem_of_beside ht)).agree (hagree t ht)
  · have hp := h.apart
    rw [List.pairwise_middle fun h => h.symm, List.pairwise_cons] at hp ⊢
    exact hp
  · exact forall_replaced h.own (h.own s (by simp))
  · rw [hends]
    exact h.single

/-- A member has had some steps. -/
theorem Crew.comesTo {p : Progress} (h : Crew g (before ++ s :: after) w)
    (hc : s.job.ComesTo g w p w') :
    Crew g (before ++ ⟨s.scope, p.rest⟩ :: after) w' ∧
      endsOf g w' (before ++ ⟨s.scope, p.rest⟩ :: after) = endsOf g w (before ++ s :: after) := by
  have hin := comesTo_within hc (h.within s (by simp)) (h.closed s (by simp))
  refine h.advance ?_ hin.2 (gives_comesTo hc)
  cases p with
  | finished r => exact .done hin.1
  | moved j => exact hin.1
  | suspended j => exact hin.1.2

end Crews

/-- The operands of a join as a crew. -/
def Graph.crew (g : Graph) (w : World) (operands args : List Value) : List Member :=
  operands.map fun v => ⟨g.span w v args, (g.launch v args w).1⟩

theorem forall_crew {P : Member → Prop} {operands args : List Value} :
    (∀ t ∈ g.crew w operands args, P t) ↔
      ∀ v ∈ operands, P ⟨g.span w v args, (g.launch v args w).1⟩ := List.forall_mem_map

theorem launchAll_crew (g : Graph) (w : World) (operands args : List Value) :
    (g.launchAll args operands w).1 = jobsOf (g.crew w operands args) := by
  rw [launchAll_jobs rfl, jobsOf, Graph.crew, List.map_map]
  rfl

/-! ## Joins of crews -/

/-- The job joins the jobs of the team, one of which is at its turn. -/
inductive Join.Over (k : Join) : List Member → Job → Prop
  | turn {before s after} : Over k (before ++ s :: after)
      (.joined k (jobsOf before).reverse s.job (jobsOf after))

/-- One member of the team is at this job, and with another job in its place the join is as
this tells. -/
def Join.Place (k : Join) (team : List Member) (t : Job) (join : Job → Job) : Prop :=
  ∃ before s after, team = before ++ s :: after ∧ s.job = t ∧
    ∀ t', k.Over (before ++ ⟨s.scope, t'⟩ :: after) (join t')

/-- What a step leaves of a join of the team. -/
inductive Join.Left (k : Join) (team : List Member) : Progress → Prop
  | failed {h} : .done (.error h) ∈ jobsOf team → Left k team (.finished (.error h))
  | finished {vs} : jobsOf team = Job.finished vs → Left k team (.finished (k.finish vs))
  | moved {j} : k.Over team j → Left k team (.moved j)
  | suspended {j} : k.Over team j → Left k team (.suspended j)

theorem jobsOf_append (team team' : List Member) :
    jobsOf (team ++ team') = jobsOf team ++ jobsOf team' := List.map_append

theorem over_joined {k' : Join} {team : List Member} {turned coming : List Job} {c : Job}
    (h : k.Over team (.joined k' turned c coming)) : k' = k ∧ ∃ before s after,
      team = before ++ s :: after ∧ (jobsOf before).reverse = turned ∧ s.job = c ∧
        jobsOf after = coming := by
  generalize hj : Job.joined k' turned c coming = j at h
  cases h
  cases hj
  exact ⟨rfl, _, _, _, rfl, rfl, rfl, rfl⟩

section Places

variable {k' : Join} {team : List Member} {turned coming left right : List Job} {c t : Job}

theorem over_turned (h : k.Over team (.joined k' (left ++ t :: right) c coming)) :
    k.Place team t fun t' => .joined k' (left ++ t' :: right) c coming := by
  obtain ⟨rfl, before, s, after, rfl, hb, rfl, rfl⟩ := over_joined h
  -- those that have had their turn are kept in reverse
  rw [List.reverse_eq_iff, List.reverse_append, List.reverse_cons, List.append_assoc] at hb
  obtain ⟨first, rest, rfl, hfirst, hrest⟩ := List.map_eq_append_iff.1 hb
  obtain ⟨m, last, rfl, rfl, hlast⟩ := List.map_eq_cons_iff.1 hrest
  refine ⟨first, m, last ++ s :: after, by simp, rfl, fun t' => ?_⟩
  have hover := @Join.Over.turn k' (first ++ ⟨m.scope, t'⟩ :: last) s after
  have hjobs : (jobsOf (first ++ ⟨m.scope, t'⟩ :: last)).reverse = left ++ t' :: right := by
    simp only [jobsOf, List.map_append, List.map_cons, hfirst, hlast]
    simp
  rw [hjobs, List.append_assoc] at hover
  exact hover

theorem over_current (h : k.Over team (.joined k' turned c coming)) :
    k.Place team c fun t' => .joined k' turned t' coming := by
  obtain ⟨rfl, before, s, after, rfl, rfl, rfl, rfl⟩ := over_joined h
  exact ⟨before, s, after, rfl, rfl, fun t' => @Join.Over.turn k' before ⟨s.scope, t'⟩ after⟩

theorem over_coming (h : k.Over team (.joined k' turned c (left ++ t :: right))) :
    k.Place team t fun t' => .joined k' turned c (left ++ t' :: right) := by
  obtain ⟨rfl, before, s, after, rfl, rfl, rfl, ha⟩ := over_joined h
  obtain ⟨first, rest, rfl, rfl, hrest⟩ := List.map_eq_append_iff.1 ha
  obtain ⟨m, last, rfl, rfl, rfl⟩ := List.map_eq_cons_iff.1 hrest
  refine ⟨before ++ s :: first, m, last, by simp, rfl, fun t' => ?_⟩
  have hover := @Join.Over.turn k' before s (first ++ ⟨m.scope, t'⟩ :: last)
  simpa [jobsOf] using hover

end Places

theorem start_over {team : List Member} (h : team ≠ []) : k.Over team (k.start (jobsOf team)) := by
  cases team with
  | nil => exact absurd rfl h
  | cons s after => exact @Join.Over.turn k [] s after

theorem jobsOf_snoc (team : List Member) (s : Member) :
    s.job :: (jobsOf team).reverse = (jobsOf (team ++ [s])).reverse := by
  rw [jobsOf_append, List.reverse_append]
  rfl

theorem turn_left {before after : List Member} {s : Member} :
    k.Left (before ++ s :: after) (k.turn (s.job :: (jobsOf before).reverse) (jobsOf after)) := by
  rw [jobsOf_snoc]
  cases after with
  | nil =>
    rcases finished_or_not (jobsOf (before ++ [s])) with ⟨vs, hvs⟩ | ⟨hn, -⟩
    · rw [hvs]
      exact (turn_finished k vs).symm ▸ .finished hvs
    · exact (turn_unfinished k hn).symm ▸ .suspended (start_over (by simp))
  | cons c after =>
    have hteam : before ++ s :: c :: after = before ++ [s] ++ c :: after := by simp
    rw [hteam]
    exact .moved .turn

theorem after_left {before after : List Member} {s : Member} (p : Progress) :
    k.Left (before ++ ⟨s.scope, p.rest⟩ :: after)
      (k.after (jobsOf before).reverse (jobsOf after) p) := by
  cases p with
  | finished r =>
    cases r with
    | error h => exact .failed (by simp [jobsOf, Progress.rest])
    | ok v => exact @turn_left k before after ⟨s.scope, .done (.ok v)⟩
  | moved j => exact .moved (@Join.Over.turn k before ⟨s.scope, j⟩ after)
  | suspended j => exact @turn_left k before after ⟨s.scope, j⟩

/-! ## What a join of a crew comes to -/

/-- The ends of the operands leave the join no other end than this. -/
def Join.Yields (k : Join) (ends : List (Outcome → Prop)) (r : Outcome) : Prop :=
  (∃ o ∈ ends, ∃ h, r = .error h ∧ o (.error h)) ∨
    ∃ vs, r = k.finish vs ∧ List.Forall₂ (fun o v => o (.ok v)) ends vs

theorem endsOf_eq (g : Graph) (w : World) (team : List Member) :
    endsOf g w team = (jobsOf team).map (Job.Gives g w) := by
  simp only [endsOf, jobsOf, List.map_map, Function.comp_def]

theorem left_yields {team : List Member} {r : Outcome} (h : k.Left team (.finished r)) :
    k.Yields (endsOf g w team) r := by
  rw [endsOf_eq]
  cases h with
  | @failed e hm => exact .inl ⟨_, List.mem_map_of_mem hm, e, rfl, gives_done.2 rfl⟩
  | @finished vs he =>
    refine .inr ⟨vs, rfl, ?_⟩
    rw [he, Job.finished, List.map_map, List.forall₂_map_left_iff]
    exact List.forall₂_same.2 fun v _ => gives_done.2 rfl

theorem step_over {before after : List Member} {s : Member} {p : Progress}
    (hs : (Job.joined k (jobsOf before).reverse s.job (jobsOf after)).step g w = (p, w')) :
    ∃ q, s.job.ComesTo g w q w' ∧ k.Left (before ++ ⟨s.scope, q.rest⟩ :: after) p := by
  rw [step_joined] at hs
  obtain ⟨rfl, rfl⟩ := Prod.mk.inj hs
  exact ⟨_, .now rfl, after_left _⟩

theorem yields_of_over {team : List Member} {j : Job} {r : Outcome} (h : j.Gives g w r)
    (ho : k.Over team j) (hc : Crew g team w) : k.Yields (endsOf g w team) r := by
  obtain ⟨z, h⟩ := h
  -- at every step of the join one member takes a step, and its end stays the same
  refine h.rec_step (P := fun j w => ∀ team, k.Over team j → Crew g team w →
    k.Yields (endsOf g w team) r) ?_ ?_ ?_ team ho hc
  · rintro j w hs _ ⟨⟩ hc
    obtain ⟨q, hq, hleft⟩ := step_over hs
    rw [← (hc.comesTo hq).2]
    exact left_yields hleft
  all_goals
    rintro j w j' w' hs ih _ ⟨⟩ hc
    obtain ⟨q, hq, hleft⟩ := step_over hs
    obtain ⟨hc', hends⟩ := hc.comesTo hq
    rw [← hends]
    cases hleft
    exact ih _ ‹_› hc'

/-! ## One that fails -/

/-- The job fails within so many steps. -/
def Job.FailsIn (g : Graph) (w : World) (h : Halt) (n : Nat) (j : Job) : Prop :=
  ∃ m z, m ≤ n ∧ j.run g m w = some (.error h, z)

theorem Job.FailsIn.gives {j : Job} {h : Halt} {n : Nat} (hf : j.FailsIn g w h n) :
    j.Gives g w (.error h) := by
  obtain ⟨m, z, -, hz⟩ := hf
  exact ⟨z, m, hz⟩

theorem Job.FailsIn.agree {j : Job} {h : Halt} {n : Nat} (hf : j.FailsIn g w h n)
    (hj : j.Within S) (hc : S.Closed g w) (hw : w.Agree S w') : j.FailsIn g w' h n := by
  obtain ⟨m, z, hm, hz⟩ := hf
  obtain ⟨z', hz', -⟩ := run_agree hj hc hw hz
  exact ⟨m, z', hm, hz'⟩

/-- A member has its turn. If it fails, the join does, or else the join goes on, and the
one that fails has fewer steps left if it was this. -/
theorem Crew.turn {N : Nat} {h : Halt} {before after : List Member} {s : Member}
    (hc : Crew g (before ++ s :: after) w) (hw : g.Grounded w)
    (hf : (∃ t ∈ before, ∃ m < N, t.job.FailsIn g w h m) ∨
      ∃ t ∈ s :: after, t.job.FailsIn g w h N) :
    ∃ p w', s.job.ComesTo g w p w' ∧ g.Grounded w' ∧ (p = .finished (.error h) ∨
      (∀ k : Join, k.after (jobsOf before).reverse (jobsOf after) p =
        k.turn (p.rest :: (jobsOf before).reverse) (jobsOf after)) ∧
      ((∃ t ∈ before ++ [⟨s.scope, p.rest⟩], ∃ m < N, t.job.FailsIn g w' h m) ∨
        ∃ t ∈ after, t.job.FailsIn g w' h N)) := by
  have hs := hc.within s (by simp)
  obtain ⟨p, w', hcome, hp⟩ := (pauses_of_within hw hs.all).2 w hw
  have hk := (comesTo_within hcome hs (hc.closed s (by simp))).2
  refine ⟨p, w', hcome, hw.kept hk, ?_⟩
  -- another one that fails is as far from it as before, and this one does not fail
  have hother : ∀ t ∈ before ++ after, ∀ m, t.job.FailsIn g w h m → t.job.FailsIn g w' h m ∧
      ∀ k : Join, k.after (jobsOf before).reverse (jobsOf after) p =
        k.turn (p.rest :: (jobsOf before).reverse) (jobsOf after) := by
    intro t ht m hm
    refine ⟨hm.agree (hc.within t (mem_of_beside ht)) (hc.closed t (mem_of_beside ht))
      (hc.agree hk t ht), fun k => ?_⟩
    cases p with
    | finished r =>
      cases r with
      | error e =>
        have he : s.job.Gives g w (.error e) := (gives_comesTo hcome _).2 (gives_done.2 rfl)
        exact absurd hm.gives (hc.others he t ht)
      | ok v => rfl
    | moved j => exact hp.elim
    | suspended j => rfl
  rcases hf with ⟨t, ht, m, hm, hf⟩ | ⟨t, ht, hf⟩
  · obtain ⟨hf', ha⟩ := hother t (List.mem_append_left _ ht) m hf
    exact .inr ⟨ha, .inl ⟨t, List.mem_append_left _ ht, m, hm, hf'⟩⟩
  · rcases List.mem_cons.1 ht with rfl | ht
    · obtain ⟨n, z, hn, hrun⟩ := hf
      have hleft := run_of_comesTo hcome hrun
      cases p with
      | finished r =>
        obtain ⟨rfl, -⟩ := hleft
        exact .inl rfl
      | moved j => exact hp.elim
      | suspended j =>
        obtain ⟨m, hm, hrun'⟩ := hleft
        exact .inr ⟨fun k => rfl,
          .inl ⟨⟨t.scope, j⟩, by simp [Progress.rest], m, by omega, m, z, Nat.le_refl m, hrun'⟩⟩
    · obtain ⟨hf', ha⟩ := hother t (List.mem_append_right _ ht) N hf
      exact .inr ⟨ha, .inr ⟨t, ht, hf'⟩⟩

/-- A join fails as one of its operands does if it fails from the next turn on. -/
theorem turn_fails {N : Nat} {h : Halt} {before after : List Member} {s : Member}
    (hc : Crew g (before ++ s :: after) w) (hw : g.Grounded w)
    (hf : (∃ t ∈ before, ∃ m < N, t.job.FailsIn g w h m) ∨
      ∃ t ∈ s :: after, t.job.FailsIn g w h N)
    (hnext : ∀ s' w', Crew g (before ++ s' :: after) w' → g.Grounded w' →
      ((∃ t ∈ before ++ [s'], ∃ m < N, t.job.FailsIn g w' h m) ∨
        ∃ t ∈ after, t.job.FailsIn g w' h N) →
      (k.turn (jobsOf (before ++ [s'])).reverse (jobsOf after)).rest.Gives g w' (.error h)) :
    (Job.joined k (jobsOf before).reverse s.job (jobsOf after)).Gives g w (.error h) := by
  obtain ⟨p, w', hcome, hw', hp⟩ := hc.turn hw hf
  refine (gives_comesTo (comesTo_joined hcome) _).2 ?_
  rcases hp with rfl | ⟨ha, hf'⟩
  · exact gives_done.2 rfl
  · have hgo := hnext ⟨s.scope, p.rest⟩ w' (hc.comesTo hcome).1 hw' hf'
    rw [← jobsOf_snoc] at hgo
    rwa [ha]

/-- A round of a join, from the turn of `s` on, one operand of which fails. Joins in
which it has fewer than `N` steps left are known to notice. -/
theorem round_fails {N : Nat} {h : Halt} {before after : List Member} {s : Member}
    (hN : ∀ team w m, Crew g team w → g.Grounded w → m < N →
      (∃ t ∈ team, t.job.FailsIn g w h m) → (k.start (jobsOf team)).Gives g w (.error h))
    (hc : Crew g (before ++ s :: after) w) (hw : g.Grounded w)
    (hf : (∃ t ∈ before, ∃ m < N, t.job.FailsIn g w h m) ∨
      ∃ t ∈ s :: after, t.job.FailsIn g w h N) :
    (Job.joined k (jobsOf before).reverse s.job (jobsOf after)).Gives g w (.error h) := by
  induction after generalizing before s w with
  | nil =>
    refine turn_fails hc hw hf fun s' w' hc' hw' hf' => ?_
    obtain ⟨t, ht, m, hm, hfails⟩ := hf'.resolve_right (by simp)
    rcases finished_or_not (jobsOf (before ++ [s'])) with ⟨vs, hvs⟩ | ⟨hn, -⟩
    · -- not all are done, since one fails
      have hmem : t.job ∈ Job.finished vs := by
        rw [← hvs]
        exact List.mem_map_of_mem ht
      obtain ⟨v, -, hv⟩ := List.mem_map.1 hmem
      have hgives := hfails.gives
      rw [← hv, gives_done] at hgives
      cases hgives
    · rw [show jobsOf [] = [] from rfl, turn_unfinished k hn]
      exact hN _ w' m hc' hw' hm ⟨t, ht, hfails⟩
  | cons c after ih =>
    refine turn_fails hc hw hf fun s' w' hc' hw' hf' => ?_
    have hteam : before ++ s' :: c :: after = before ++ [s'] ++ c :: after := by simp
    rw [hteam] at hc'
    exact ih hc' hw' hf'

theorem start_fails {team : List Member} {h : Halt} {n : Nat} (hc : Crew g team w)
    (hw : g.Grounded w) (hf : ∃ t ∈ team, t.job.FailsIn g w h n) :
    (k.start (jobsOf team)).Gives g w (.error h) := by
  induction n using Nat.strongRecOn generalizing team w with
  | ind n ih =>
    cases team with
    | nil => simp at hf
    | cons s after =>
      exact @round_fails g w k n h [] after s (fun _ _ m hc hw hm hf => ih m hm hc hw hf) hc hw
        (.inr hf)

/-- A join notices the one that fails. -/
theorem over_fails {team : List Member} {j : Job} {h : Halt} (ho : k.Over team j)
    (hc : Crew g team w) (hw : g.Grounded w) (hf : ∃ t ∈ team, t.job.Gives g w (.error h)) :
    j.Gives g w (.error h) := by
  obtain ⟨t, ht, z, n, hz⟩ := hf
  cases ho with
  | @turn before s after =>
    have hfails : t.job.FailsIn g w h n := ⟨n, z, Nat.le_refl n, hz⟩
    refine round_fails (N := n + 1) (fun _ _ _ hc hw _ hf => start_fails hc hw hf) hc hw ?_
    rcases List.mem_append.1 ht with hb | ha
    · exact .inl ⟨t, hb, n, Nat.lt_succ_self n, hfails⟩
    · exact .inr ⟨t, ha, n, z, Nat.le_succ n, hz⟩

/-! ## All values -/

/-- What a member comes to alone if it has a value. -/
structure Member.Alone (g : Graph) (w : World) (t : Member) (s : Solo) : Prop where
  scope : s.scope = t.scope
  runs : t.job.Runs g w (.ok s.value) s.final

theorem exists_alone {team : List Member} {vs : List Value}
    (h : List.Forall₂ (fun o v => o (.ok v)) (endsOf g w team) vs) :
    ∃ solos, solos.map (·.value) = vs ∧ List.Forall₂ (Member.Alone g w) team solos := by
  induction team generalizing vs with
  | nil =>
    cases h
    exact ⟨[], rfl, .nil⟩
  | cons t team ih =>
    obtain ⟨v, vs, ⟨z, hz⟩, hrest, rfl⟩ := List.forall₂_cons_left_iff.1 h
    obtain ⟨solos, rfl, hs⟩ := ih hrest
    exact ⟨⟨t.scope, v, z⟩ :: solos, rfl, .cons ⟨rfl, hz⟩ hs⟩

theorem scopes_alone {team : List Member} {solos : List Solo}
    (h : List.Forall₂ (Member.Alone g w) team solos) :
    solos.map (·.scope) = team.map (·.scope) := map_eq_of_forall₂ h fun _ _ ht => ht.scope

/-- A join of members that all have values alone comes to what its kind makes of these,
and leaves every slot as the member that may write it does alone. -/
theorem over_settles {team : List Member} {j : Job} {solos : List Solo} (ho : k.Over team j)
    (hc : Crew g team w) (hs : List.Forall₂ (Member.Alone g w) team solos) :
    ∃ z, j.Runs g w (k.finish (solos.map (·.value))) z ∧ Settled solos w z := by
  have hin : List.Forall₂ (fun j s => ∃ left, Sibling.InStep g ⟨s, j, left⟩ w)
      (jobsOf team) solos := by
    have hteam : List.Forall₂ (fun t s => t ∈ team ∧ t.Alone g w s) team solos :=
      (List.forall₂_and_left team solos).2 ⟨fun _ ht => ht, hs⟩
    refine List.forall₂_map_left_iff.2 (hteam.imp fun t s ⟨ht, hscope, hruns⟩ => ?_)
    have hj := hc.within t ht
    have hcl := hc.closed t ht
    rw [← hscope] at hj hcl
    exact Sibling.exists_inStep hj hcl (World.agree_of_slots rfl) hruns
  obtain ⟨crew, hjobs, hsolos, hstep⟩ := Sibling.exists_siblings hin
  have hapart : solos.Pairwise fun s t => s.scope.Apart t.scope := by
    have hp : (team.map (·.scope)).Pairwise Scope.Apart := List.pairwise_map.2 hc.apart
    rw [← scopes_alone hs] at hp
    exact List.pairwise_map.1 hp
  have habreast : Abreast g solos w crew w := ⟨hsolos, hapart, hstep, .refl w⟩
  cases ho with
  | @turn before s after =>
    rw [jobsOf_append] at hjobs
    obtain ⟨b, c, rfl, hb, hca⟩ := List.map_eq_append_iff.1 hjobs
    obtain ⟨s', a, rfl, hs', ha⟩ := List.map_eq_cons_iff.1 hca
    have hbound : Sibling.Bounded (Sibling.total (·.left) (b ++ s' :: a) + 1) b (s' :: a) :=
      ⟨Nat.le_succ _, fun _ _ _ => Nat.lt_succ_self _⟩
    have hfin := joined_finishes (k := k) b (fun _ _ h _ => start_finishes h) habreast hbound
    rwa [hb, hs', ha] at hfin

/-- What a join of a crew comes to is settled by what its members come to alone. -/
theorem over_yields {team : List Member} {j : Job} (ho : k.Over team j) (hc : Crew g team w)
    (hw : g.Grounded w) (r : Outcome) : j.Gives g w r ↔ k.Yields (endsOf g w team) r := by
  refine ⟨fun h => yields_of_over h ho hc, ?_⟩
  rintro (⟨o, hm, h, rfl, hh⟩ | ⟨vs, rfl, hvs⟩)
  · obtain ⟨t, ht, rfl⟩ := List.mem_map.1 hm
    exact over_fails ho hc hw ⟨t, ht, hh⟩
  · obtain ⟨solos, rfl, hs⟩ := exists_alone hvs
    obtain ⟨z, hz, -⟩ := over_settles ho hc hs
    exact ⟨z, hz⟩

/-! ## Joins that are alike -/

/-- The jobs come to the same ends, and leave the same in the slots if they have values. -/
structure Job.Like (g : Graph) (j : Job) (w : World) (j' : Job) (w' : World) : Prop where
  ends : j'.Gives g w' = j.Gives g w
  slots : ∀ v z z', j.Runs g w (.ok v) z → j'.Runs g w' (.ok v) z' → z.slots = z'.slots

theorem left_gives {team : List Member} {p : Progress} (h : k.Left team p) (hne : team ≠ [])
    (hc : Crew g team w) (hw : g.Grounded w) (r : Outcome) :
    p.rest.Gives g w r ↔ k.Yields (endsOf g w team) r := by
  cases p with
  | finished r' =>
    -- a join of the team that has yet to begin comes to that as well
    have hover : k.Over team (k.start (jobsOf team)) := start_over hne
    have hr' : k.Yields (endsOf g w team) r' := left_yields h
    constructor
    · intro hr
      rwa [gives_done.1 hr]
    · intro hr
      rw [← over_yields hover hc hw] at hr hr'
      exact gives_done.2 (gives_unique hr hr')
  | moved j =>
    cases h with
    | moved ho => exact over_yields ho hc hw r
  | suspended j =>
    cases h with
    | suspended ho => exact over_yields ho hc hw r

theorem final_of_done {team : List Member} {solos : List Solo} {vs : List Value}
    (h : List.Forall₂ (Member.Alone g w) team solos) (hd : jobsOf team = Job.finished vs) :
    ∀ s ∈ solos, s.final = w := by
  induction h generalizing vs with
  | nil => exact List.forall_mem_nil _
  | @cons t s team solos ht _ ih =>
    cases vs with
    | nil => cases hd
    | cons v vs =>
      obtain ⟨hj, hd⟩ := List.cons.inj hd
      have hj : t.job = .done (.ok v) := hj
      have hruns := ht.runs
      rw [hj] at hruns
      exact List.forall_mem_cons.2 ⟨(runs_done.1 hruns).2, ih hd⟩

/-- When a join of a crew has a value, the slots are as each member leaves them alone. -/
theorem left_settled {team : List Member} {p : Progress} {v : Value} (h : k.Left team p)
    (hne : team ≠ []) (hc : Crew g team w) (hw : g.Grounded w) (hr : p.rest.Runs g w (.ok v) z) :
    ∃ solos, List.Forall₂ (Member.Alone g w) team solos ∧ Settled solos w z := by
  rcases (left_gives h hne hc hw _).1 ⟨z, hr⟩ with ⟨_, -, _, he, -⟩ | ⟨vs, -, hvs⟩
  · cases he
  obtain ⟨solos, -, hs⟩ := exists_alone hvs
  refine ⟨solos, hs, ?_⟩
  have hover : ∀ {j}, k.Over team j → j.Runs g w (.ok v) z → Settled solos w z := by
    intro j ho hj
    obtain ⟨z', hz', hset⟩ := over_settles ho hc hs
    rwa [(hj.unique hz').2]
  cases h with
  | failed hm => cases (runs_done.1 hr).1
  | finished hd =>
    obtain ⟨-, rfl⟩ := runs_done.1 hr
    refine ⟨fun s hm => ?_, .refl z⟩
    rw [final_of_done hs hd s hm]
    exact World.agree_of_slots rfl
  | moved ho | suspended ho => exact hover ho hr

theorem writesOf_congr {solos solos' : List Solo}
    (h : solos.map (·.scope) = solos'.map (·.scope)) : writesOf solos = writesOf solos' := by
  have hmem : ∀ (solos : List Solo) (i : Nat), (∃ s ∈ solos, s.scope.slot i) ↔
      ∃ S ∈ solos.map (·.scope), S.slot i := by simp
  simp only [writesOf, hmem, h]

/-- The second member stands where the first stood, and leaves what that one leaves. -/
structure Member.Follows (g : Graph) (w w' : World) (t t' : Member) : Prop where
  scope : t'.scope = t.scope
  final : ∀ s s', t.Alone g w s → t'.Alone g w' s' → s.final.Agree t.scope s'.final

theorem agree_of_follows {team team' : List Member} {solos solos' : List Solo}
    (ht : List.Forall₂ (Member.Follows g w w') team team')
    (hs : List.Forall₂ (Member.Alone g w) team solos)
    (hs' : List.Forall₂ (Member.Alone g w') team' solos')
    (hz : ∀ s ∈ solos', s.final.Agree s.scope z) : ∀ s ∈ solos, s.final.Agree s.scope z := by
  induction ht generalizing solos solos' with
  | nil =>
    cases hs
    exact List.forall_mem_nil _
  | cons ht _ ih =>
    obtain ⟨s, solos, ha, hrest, rfl⟩ := List.forall₂_cons_left_iff.1 hs
    obtain ⟨s', solos', ha', hrest', rfl⟩ := List.forall₂_cons_left_iff.1 hs'
    rw [List.forall_mem_cons] at hz
    refine List.forall_mem_cons.2 ⟨?_, ih hrest hrest' hz.2⟩
    have hag := ht.final s s' ha ha'
    have hz₁ := hz.1
    rw [ha'.scope, ht.scope] at hz₁
    rw [ha.scope]
    exact hag.trans hz₁

theorem follows_beside {t : Member} (hj : t.job.Within t.scope) (hc : t.scope.Closed g w)
    (hw : w.Agree t.scope w') : t.Follows g w w' t := by
  refine ⟨rfl, fun s s' hs hs' => ?_⟩
  obtain ⟨z, hz, hag⟩ := runs_agree hj hc hw hs.runs
  rwa [(hz.unique hs'.runs).2] at hag

theorem follows_like {t : Member} {j : Job} (hl : t.job.Like g w j w') :
    t.Follows g w w' ⟨t.scope, j⟩ := by
  refine ⟨rfl, fun s s' hs hs' => ?_⟩
  have hgives : t.job.Gives g w (.ok s'.value) := by
    rw [← hl.ends]
    exact ⟨_, hs'.runs⟩
  have hruns := hs.runs
  rw [Except.ok.inj (gives_unique ⟨_, hruns⟩ hgives)] at hruns
  exact World.agree_of_slots (hl.slots _ _ _ hruns hs'.runs)

/-- A join of a crew goes on as before when one member has done so by itself. -/
theorem over_like {before after : List Member} {s : Member} {j t : Job} {p : Progress}
    (ho : k.Over (before ++ s :: after) j) (hleft : k.Left (before ++ ⟨s.scope, t⟩ :: after) p)
    (hc : Crew g (before ++ s :: after) w) (hw : g.Grounded w) (hw' : g.Grounded w')
    (hin : t.Within s.scope) (hk : w.Kept s.scope w') (hl : s.job.Like g w t w') :
    j.Like g w p.rest w' := by
  have hgives : ∀ r, s.job.Gives g w r ↔ t.Gives g w' r := fun r => by rw [hl.ends]
  obtain ⟨hc', hends⟩ := hc.advance hin hk hgives
  have hne : before ++ ⟨s.scope, t⟩ :: after ≠ [] := by simp
  refine ⟨?_, fun v z z' hz hz' => ?_⟩
  · funext r
    refine propext ?_
    rw [left_gives hleft hne hc' hw', hends, over_yields ho hc hw]
  · obtain ⟨solos, hs, hset⟩ := left_settled (.moved ho) (by simp) hc hw hz
    obtain ⟨solos', hs', hset'⟩ := left_settled hleft hne hc' hw' hz'
    have hbeside : ∀ t ∈ before ++ after, t.Follows g w w' t := fun t ht =>
      follows_beside (hc.within t (mem_of_beside ht)) (hc.closed t (mem_of_beside ht))
        (hc.agree hk t ht)
    rw [List.forall_mem_append] at hbeside
    have hfollows : List.Forall₂ (Member.Follows g w w') (before ++ s :: after)
        (before ++ ⟨s.scope, t⟩ :: after) :=
      List.rel_append (List.forall₂_same.2 hbeside.1)
        (.cons (follows_like hl) (List.forall₂_same.2 hbeside.2))
    -- what the members leave in the end, they leave alone as well
    have hwrites : writesOf solos' = writesOf solos := by
      refine writesOf_congr ?_
      rw [scopes_alone hs, scopes_alone hs', map_eq_of_forall₂ hfollows fun _ _ ht => ht.scope]
    have hmem : ∀ t ∈ before ++ s :: after, ∃ s ∈ solos, s.scope = t.scope := by
      intro t ht
      have hscope : t.scope ∈ solos.map (·.scope) := by
        rw [scopes_alone hs]
        exact List.mem_map_of_mem ht
      exact List.mem_map.1 hscope
    have hkept : w.Kept (writesOf solos) w' := by
      obtain ⟨so, hso, he⟩ := hmem s (by simp)
      exact hk.mono fun i hi => ⟨so, hso, by rwa [he]⟩
    have hsettled : Settled solos w z' :=
      ⟨agree_of_follows hfollows hs hs' hset'.final, hkept.trans (hwrites ▸ hset'.kept)⟩
    refine hset.unique hsettled (fun _ => Iff.rfl) fun so hso i hi => ?_
    have hscope : so.scope ∈ (before ++ s :: after).map (·.scope) := by
      rw [← scopes_alone hs]
      exact List.mem_map_of_mem hso
    obtain ⟨t, ht, he⟩ := List.mem_map.1 hscope
    rw [← he] at hi ⊢
    exact hc.own t ht i hi

end ArrayGraph
