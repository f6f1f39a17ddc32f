import ArrayGraph.Proofs.Evaluation.Matching
import ArrayGraph.Proofs.Evaluation.Tracking
/-!
# Matching graphs under schedules

That the jobs of two graphs match says more than that they come to the same ends in their
callers' turns: under every schedule of the one, the other can keep up with it. What a pool
runs in the one, a pool has to run in the other, and jobs that match for a reason of their own
wait for no others (`Matching.Threaded`). Whatever the first of two matching jobs does, the
second does it as well, or has done so already (`acts_ahead`), and whatever the second does,
the first does after some moves (`acts_behind`). So each of the two graphs may come to what
the other may come to: `schedules_matched`.
-/

namespace ArrayGraph

variable {M : Matching} {g g' : Graph} {w w' u u' : World}

/-! ## Some moves, one after the other -/

/-- Some moves of a job in its turn, and what it may do then. -/
inductive Job.ActsTo (g : Graph) : Job → World → Progress → World → Prop
  | now {j w p w'} : j.Acts g w p w' → ActsTo g j w p w'
  | later {j w i u p w'} : j.Acts g w (.moved i) u → ActsTo g i u p w' → ActsTo g j w p w'

/-- Some things done for a job out of its turn. -/
inductive Job.Asides (g : Graph) : Job → World → Job → World → Prop
  | refl {j w} : Asides g j w j w
  | next {j w i u j' w'} : j.Aside g w i u → Asides g i u j' w' → Asides g j w j' w'

theorem actsTo_of_comesTo {j : Job} {p : Progress} (h : j.ComesTo g w p u) :
    j.ActsTo g w p u := by
  have hacts : ∀ {j : Job} {w w' : World} {p : Progress}, j.step g w = (p, w') →
      j.Acts g w p w' := by
    intro j w w' p hs
    have ha := acts_step (g := g) j w
    rwa [hs] at ha
  induction h with
  | now hs => exact .now (hacts hs)
  | later hs _ ih => exact .later (hacts hs) ih

theorem scheduled_of_actsTo {j : Job} {p : Progress} (h : j.ActsTo g w p u) :
    j.Scheduled g w p.rest u := by
  induction h with
  | now ha => exact .next (.turn ha) .refl
  | later ha _ ih => exact .next (.turn ha) ih

theorem scheduled_of_asides {j i : Job} (h : j.Asides g w i u) : j.Scheduled g w i u := by
  induction h with
  | refl => exact .refl
  | next ha _ ih => exact .next (.aside ha) ih

theorem actsTo_waiting {k : Frame} {j : Job} {p : Progress} (h : j.ActsTo g w p u) :
    (Job.waiting k j).ActsTo g w (k.after g p u).1 (k.after g p u).2 := by
  induction h with
  | now ha => exact .now (.waiting ha)
  | later ha _ ih => exact .later (.waiting ha) ih

theorem actsTo_joined {k : Join} {turned coming : List Job} {j : Job} {p : Progress}
    (h : j.ActsTo g w p u) :
    (Job.joined k turned j coming).ActsTo g w (k.after turned coming p) u := by
  induction h with
  | now ha => exact .now (.joined ha)
  | later ha _ ih => exact .later (.joined ha) ih

theorem actsTo_placed {id : LocalityId} {site : Site} {j : Job} {p : Progress}
    (h : j.ActsTo g w p u) : (Job.placed id site j).ActsTo g w (p.reported id site) u := by
  induction h with
  | now ha => exact .now (.placed ha)
  | later ha _ ih => exact .later (.placed ha) ih

/-- A pool may do for a job what the job may do in its turn. -/
theorem asides_spawned {id : LocalityId} {site : Site} {j : Job} {p : Progress}
    (h : j.ActsTo g w p u) : (Job.placed id site j).Asides g w (.placed id site p.rest) u := by
  induction h with
  | now ha => exact .next (.spawned ha) .refl
  | later ha _ ih => exact .next (.spawned ha) ih

/-- What is done for a job is done for a job that it is part of. -/
theorem asides_part {part : Job → Job} {j i : Job}
    (hpart : ∀ {j i : Job} {w u : World}, j.Aside g w i u → (part j).Aside g w (part i) u)
    (h : j.Asides g w i u) : (part j).Asides g w (part i) u := by
  induction h with
  | refl => exact .refl
  | next ha _ ih => exact .next (hpart ha) ih

theorem value?_of_asides {j i : Job} (h : j.Asides g w i u) (hv : j.value? = none) :
    i.value? = none := by
  induction h with
  | refl => exact hv
  | next ha _ ih => exact ih (value?_of_aside ha).2

/-! ## Matching jobs -/

/-- What is asked of a matching for it to hold under any schedule: jobs match those on a pool
only if they are on it as well, and where jobs match for a reason of their own, they wait for
no others, and the first begins with a move. -/
structure Matching.Threaded (M : Matching) (g g' : Graph) : Prop extends M.Lawful g g' where
  uncarried : ¬ M.carries
  single : ∀ {j j'}, M.leaf j j' → j.Single ∧ j'.Single
  ahead : ∀ {j j' w w'}, M.leaf j j' → M.world w w' →
    ∃ i, (j.step g w).1 = .moved i ∧ i.Matched M j' ∧ M.world (j.step g w).2 w'

theorem rest_matched {p p' : Progress} (h : p.Matched M p') : p.rest.Matched M p'.rest := by
  cases h with
  | finished hr => exact .done hr
  | moved hj => exact hj
  | suspended hj _ _ => exact hj

theorem level_aside {t t' i i' : Job} (hl : M.Level t t')
    (h : t.value? = none → i.value? = none) (h' : t'.value? = none → i'.value? = none)
    (hv : t.value? = none ∨ t'.value? = none) : M.Level i i' := by
  rcases hl with ⟨v, rfl, rfl, -⟩ | ⟨hn, hn'⟩
  · rcases hv with hv | hv <;> cases hv
  · exact .inr ⟨h hn, h' hn'⟩

/-- A pair of jobs in a list of pairs may make place for another. -/
theorem exists_pair_fst {pairs : List (Job × Job)} {left right : List Job} {t : Job}
    (h : pairs.map Prod.fst = left ++ t :: right) : ∃ before t' after,
      pairs = before ++ (t, t') :: after ∧ left = before.map Prod.fst ∧
        right = after.map Prod.fst := by
  obtain ⟨before, rest, rfl, rfl, hrest⟩ := List.map_eq_append_iff.1 h
  obtain ⟨⟨s, t'⟩, after, rfl, rfl, rfl⟩ := List.map_eq_cons_iff.1 hrest
  exact ⟨before, t', after, rfl, rfl, rfl⟩

theorem exists_pair_snd {pairs : List (Job × Job)} {left right : List Job} {t' : Job}
    (h : pairs.map Prod.snd = left ++ t' :: right) : ∃ before t after,
      pairs = before ++ (t, t') :: after ∧ left = before.map Prod.snd ∧
        right = after.map Prod.snd := by
  obtain ⟨before, rest, rfl, rfl, hrest⟩ := List.map_eq_append_iff.1 h
  obtain ⟨⟨t, s⟩, after, rfl, rfl, rfl⟩ := List.map_eq_cons_iff.1 hrest
  exact ⟨before, t, after, rfl, rfl, rfl⟩

section Threads

variable (T : M.Threaded g g')

include T

/-- What the first of two matching jobs does in its turn, the second does as well, unless it
is as far already. -/
theorem acts_ahead {j j' : Job} {p : Progress} (hj : j.Matched M j') (hw : M.world w w')
    (h : j.Acts g w p u) : (∃ i, p = .moved i ∧ i.Matched M j' ∧ M.world u w') ∨
      ∃ p' u', j'.Acts g' w' p' u' ∧ p.Matched M p' ∧ M.world u u' := by
  induction h generalizing j' w' with
  | @step j w hs =>
    rcases single_step_matched T.toLawful hj hs hw with hl | ⟨hp, hw₁⟩
    · exact .inl (T.ahead hl hw)
    · exact .inr ⟨_, _, acts_step j' w', hp, hw₁⟩
  | waiting _ ih =>
    cases hj with
    | leaf hl => exact (T.single hl).1.elim
    | waiting hk hj =>
      rcases ih hj hw with ⟨i, rfl, hi, hw₁⟩ | ⟨p', u', ha, hp, hw₁⟩
      · exact .inl ⟨_, rfl, .waiting hk hi, hw₁⟩
      · exact .inr ⟨_, _, .waiting ha, frame_after_matched T.toLawful hk hp hw₁⟩
  | joined _ ih =>
    cases hj with
    | leaf hl => exact (T.single hl).1.elim
    | joined ht hl hj hc hk =>
      rcases ih hj hw with ⟨i, rfl, hi, hw₁⟩ | ⟨p', u', ha, hp, hw₁⟩
      · exact .inl ⟨_, rfl, .joined ht hl hi hc hk, hw₁⟩
      · exact .inr ⟨_, _, .joined ha, join_after_matched ht hl hc hk hp, hw₁⟩
  | placed _ ih =>
    cases hj with
    | leaf hl => exact (T.single hl).1.elim
    | carried hc => exact absurd hc T.uncarried
    | placed hj =>
      rcases ih hj hw with ⟨i, rfl, hi, hw₁⟩ | ⟨p', u', ha, hp, hw₁⟩
      · exact .inl ⟨_, rfl, .placed hi, hw₁⟩
      · exact .inr ⟨_, _, .placed ha, reported_matched hp, hw₁⟩
  | paused =>
    cases hj with
    | leaf hl => exact (T.single hl).1.elim
    | carried hc => exact absurd hc T.uncarried
    | placed hj => exact .inr ⟨_, _, .paused, .suspended (.placed hj) rfl rfl, hw⟩

/-- What the second of two matching jobs does in its turn, the first does after some moves. -/
theorem acts_behind {j j' : Job} {p' : Progress} (hj : j.Matched M j') (hw : M.world w w')
    (h : j'.Acts g' w' p' u') : ∃ p u, j.ActsTo g w p u ∧ p.Matched M p' ∧ M.world u u' := by
  induction h generalizing j w with
  | step hs =>
    obtain ⟨p, u, hc, hp, hw₁⟩ := step_matched T.toLawful hj hw
    exact ⟨p, u, actsTo_of_comesTo hc, hp, hw₁⟩
  | waiting _ ih =>
    cases hj with
    | leaf hl => exact (T.single hl).2.elim
    | carried hc => exact absurd hc T.uncarried
    | waiting hk hj =>
      obtain ⟨p, u, ha, hp, hw₁⟩ := ih hj hw
      exact ⟨_, _, actsTo_waiting ha, frame_after_matched T.toLawful hk hp hw₁⟩
  | joined _ ih =>
    cases hj with
    | leaf hl => exact (T.single hl).2.elim
    | carried hc => exact absurd hc T.uncarried
    | joined ht hl hj hc hk =>
      obtain ⟨p, u, ha, hp, hw₁⟩ := ih hj hw
      exact ⟨_, _, actsTo_joined ha, join_after_matched ht hl hc hk hp, hw₁⟩
  | placed _ ih =>
    cases hj with
    | leaf hl => exact (T.single hl).2.elim
    | carried hc => exact absurd hc T.uncarried
    | placed hj =>
      obtain ⟨p, u, ha, hp, hw₁⟩ := ih hj hw
      exact ⟨_, _, actsTo_placed ha, reported_matched hp, hw₁⟩
  | paused =>
    cases hj with
    | leaf hl => exact (T.single hl).2.elim
    | carried hc => exact absurd hc T.uncarried
    | placed hj => exact ⟨_, _, .now .paused, .suspended (.placed hj) rfl rfl, hw⟩

omit T in
/-- Matching jobs side by side, after something has been done for two that had their turn. -/
theorem turned_matched {k : Join} {before after coming : List (Job × Job)} {t t' i i' j j' : Job}
    (ht : ∀ s ∈ before ++ (t, t') :: after, s.1.Matched M s.2)
    (hl : ∀ s ∈ before ++ (t, t') :: after, M.Level s.1 s.2) (hj : j.Matched M j')
    (hc : ∀ s ∈ coming, s.1.Matched M s.2)
    (hk : M.strict → k.Takes ((before ++ (t, t') :: after).length + 1 + coming.length))
    (hi : i.Matched M i') (hlevel : M.Level i i') :
    (Job.joined k (before.map Prod.fst ++ i :: after.map Prod.fst) j
      (coming.map Prod.fst)).Matched M
      (.joined k (before.map Prod.snd ++ i' :: after.map Prod.snd) j'
        (coming.map Prod.snd)) := by
  have hjoined := @Job.Matched.joined M k j j' (before ++ (i, i') :: after) coming
    (forall_replaced ht hi) (forall_replaced hl hlevel) hj hc (by simpa using hk)
  simpa only [List.map_append, List.map_cons] using hjoined

omit T in
/-- The same of two whose turn is to come. -/
theorem coming_matched {k : Join} {before after turned : List (Job × Job)} {c c' i i' j j' : Job}
    (ht : ∀ s ∈ turned, s.1.Matched M s.2) (hl : ∀ s ∈ turned, M.Level s.1 s.2)
    (hj : j.Matched M j') (hc : ∀ s ∈ before ++ (c, c') :: after, s.1.Matched M s.2)
    (hk : M.strict → k.Takes (turned.length + 1 + (before ++ (c, c') :: after).length))
    (hi : i.Matched M i') :
    (Job.joined k (turned.map Prod.fst) j
      (before.map Prod.fst ++ i :: after.map Prod.fst)).Matched M
      (.joined k (turned.map Prod.snd) j'
        (before.map Prod.snd ++ i' :: after.map Prod.snd)) := by
  have hjoined := @Job.Matched.joined M k j j' turned (before ++ (i, i') :: after)
    ht hl hj (forall_replaced hc hi) (by simpa using hk)
  simpa only [List.map_append, List.map_cons] using hjoined

/-- What is done for the first of two matching jobs out of its turn is done for the second. -/
theorem aside_ahead {j j' i : Job} (hj : j.Matched M j') (hw : M.world w w')
    (h : j.Aside g w i u) : ∃ i' u', j'.Asides g' w' i' u' ∧ i.Matched M i' ∧ M.world u u' := by
  induction h generalizing j' w' with
  | spawned ha =>
    cases hj with
    | leaf hl => exact (T.single hl).1.elim
    | carried hc => exact absurd hc T.uncarried
    | placed hj =>
      rcases acts_ahead T hj hw ha with ⟨i, rfl, hi, hw₁⟩ | ⟨p', u', ha', hp, hw₁⟩
      · exact ⟨_, w', .refl, .placed hi, hw₁⟩
      · exact ⟨_, u', .next (.spawned ha') .refl, .placed (rest_matched hp), hw₁⟩
  | within _ ih =>
    cases hj with
    | leaf hl => exact (T.single hl).1.elim
    | carried hc => exact absurd hc T.uncarried
    | placed hj =>
      obtain ⟨i', u', ha, hi, hw₁⟩ := ih hj hw
      exact ⟨_, u', asides_part .within ha, .placed hi, hw₁⟩
  | waiting _ ih =>
    cases hj with
    | leaf hl => exact (T.single hl).1.elim
    | waiting hk hj =>
      obtain ⟨i', u', ha, hi, hw₁⟩ := ih hj hw
      exact ⟨_, u', asides_part .waiting ha, .waiting hk hi, hw₁⟩
  | @turned k left t t₁ right j coming w w₁ haside ih =>
    generalize hjobs : left ++ t :: right = jobs at hj
    cases hj with
    | leaf hl => exact (T.single hl).1.elim
    | joined ht hl hj hc hk =>
      obtain ⟨before, t', after, rfl, rfl, rfl⟩ := exists_pair_fst hjobs.symm
      have hm : (t, t') ∈ before ++ (t, t') :: after := by simp
      obtain ⟨i', u', ha, hi, hw₁⟩ := ih (ht _ hm) hw
      have hnone := value?_of_aside haside
      have hlevel := level_aside (hl _ hm) (fun _ => hnone.2) (value?_of_asides ha) (.inl hnone.1)
      refine ⟨_, u', ?_, turned_matched ht hl hj hc hk hi hlevel, hw₁⟩
      rw [List.map_append, List.map_cons]
      exact asides_part .turned ha
  | current _ ih =>
    cases hj with
    | leaf hl => exact (T.single hl).1.elim
    | joined ht hl hj hc hk =>
      obtain ⟨i', u', ha, hi, hw₁⟩ := ih hj hw
      exact ⟨_, u', asides_part .current ha, .joined ht hl hi hc hk, hw₁⟩
  | @coming k turned j left c c₁ right w w₁ _ ih =>
    generalize hjobs : left ++ c :: right = jobs at hj
    cases hj with
    | leaf hl => exact (T.single hl).1.elim
    | joined ht hl hj hc hk =>
      obtain ⟨before, c', after, rfl, rfl, rfl⟩ := exists_pair_fst hjobs.symm
      obtain ⟨i', u', ha, hi, hw₁⟩ := ih (hc (c, c') (by simp)) hw
      refine ⟨_, u', ?_, coming_matched ht hl hj hc hk hi, hw₁⟩
      rw [List.map_append, List.map_cons]
      exact asides_part .coming ha

/-- And the other way round. -/
theorem aside_behind {j j' i' : Job} (hj : j.Matched M j') (hw : M.world w w')
    (h : j'.Aside g' w' i' u') : ∃ i u, j.Asides g w i u ∧ i.Matched M i' ∧ M.world u u' := by
  induction h generalizing j w with
  | spawned ha =>
    cases hj with
    | leaf hl => exact (T.single hl).2.elim
    | carried hc => exact absurd hc T.uncarried
    | placed hj =>
      obtain ⟨p, u, ha', hp, hw₁⟩ := acts_behind T hj hw ha
      exact ⟨_, u, asides_spawned ha', .placed (rest_matched hp), hw₁⟩
  | within _ ih =>
    cases hj with
    | leaf hl => exact (T.single hl).2.elim
    | carried hc => exact absurd hc T.uncarried
    | placed hj =>
      obtain ⟨i, u, ha, hi, hw₁⟩ := ih hj hw
      exact ⟨_, u, asides_part .within ha, .placed hi, hw₁⟩
  | waiting _ ih =>
    cases hj with
    | leaf hl => exact (T.single hl).2.elim
    | carried hc => exact absurd hc T.uncarried
    | waiting hk hj =>
      obtain ⟨i, u, ha, hi, hw₁⟩ := ih hj hw
      exact ⟨_, u, asides_part .waiting ha, .waiting hk hi, hw₁⟩
  | @turned k left t' t₁ right j' coming w' w₁ haside ih =>
    generalize hjobs : left ++ t' :: right = jobs at hj
    cases hj with
    | leaf hl => exact (T.single hl).2.elim
    | carried hc => exact absurd hc T.uncarried
    | joined ht hl hj hc hk =>
      obtain ⟨before, t, after, rfl, rfl, rfl⟩ := exists_pair_snd hjobs.symm
      have hm : (t, t') ∈ before ++ (t, t') :: after := by simp
      obtain ⟨i, u, ha, hi, hw₁⟩ := ih (ht _ hm) hw
      have hnone := value?_of_aside haside
      have hlevel := level_aside (hl _ hm) (value?_of_asides ha) (fun _ => hnone.2) (.inr hnone.1)
      refine ⟨_, u, ?_, turned_matched ht hl hj hc hk hi hlevel, hw₁⟩
      rw [List.map_append, List.map_cons]
      exact asides_part .turned ha
  | current _ ih =>
    cases hj with
    | leaf hl => exact (T.single hl).2.elim
    | carried hc => exact absurd hc T.uncarried
    | joined ht hl hj hc hk =>
      obtain ⟨i, u, ha, hi, hw₁⟩ := ih hj hw
      exact ⟨_, u, asides_part .current ha, .joined ht hl hi hc hk, hw₁⟩
  | @coming k turned j' left c' c₁ right w' w₁ _ ih =>
    generalize hjobs : left ++ c' :: right = jobs at hj
    cases hj with
    | leaf hl => exact (T.single hl).2.elim
    | carried hc => exact absurd hc T.uncarried
    | joined ht hl hj hc hk =>
      obtain ⟨before, c, after, rfl, rfl, rfl⟩ := exists_pair_snd hjobs.symm
      obtain ⟨i, u, ha, hi, hw₁⟩ := ih (hc (c, c') (by simp)) hw
      refine ⟨_, u, ?_, coming_matched ht hl hj hc hk hi, hw₁⟩
      rw [List.map_append, List.map_cons]
      exact asides_part .coming ha

/-! ## Evaluations -/

theorem first_tracks_second :
    Tracks g' g fun j' w' j w => j.Matched M j' ∧ M.world w w' := by
  rintro j' w' j w i' u' ⟨hj, hw⟩ hg
  cases hg with
  | turn ha =>
    obtain ⟨p, u, ha', hp, hw₁⟩ := acts_behind T hj hw ha
    exact ⟨p.rest, u, scheduled_of_actsTo ha', rest_matched hp, hw₁⟩
  | aside ha =>
    obtain ⟨i, u, ha', hi, hw₁⟩ := aside_behind T hj hw ha
    exact ⟨i, u, scheduled_of_asides ha', hi, hw₁⟩

theorem second_tracks_first :
    Tracks g g' fun j w j' w' => j.Matched M j' ∧ M.world w w' := by
  rintro j w j' w' i u ⟨hj, hw⟩ hg
  cases hg with
  | turn ha =>
    rcases acts_ahead T hj hw ha with ⟨i, rfl, hi, hw₁⟩ | ⟨p', u', ha', hp, hw₁⟩
    · exact ⟨j', w', .refl, hi, hw₁⟩
    · exact ⟨p'.rest, u', .next (.turn ha') .refl, rest_matched hp, hw₁⟩
  | aside ha =>
    obtain ⟨i', u', ha', hi, hw₁⟩ := aside_ahead T hj hw ha
    exact ⟨i', u', scheduled_of_asides ha', hi, hw₁⟩

/-- Each of two matching operands may come to what the other may come to under some
schedule. -/
theorem schedules_matched {v v' : Value} {args : List Value} {r : Outcome}
    (hv : M.value args v v') (ha : M.Supplied args) (hw : M.world w w') :
    (∀ z', g'.Schedules v' args w' (.done r) z' →
      ∃ z, g.Schedules v args w (.done r) z ∧ M.world z z') ∧
    ∀ z, g.Schedules v args w (.done r) z →
      ∃ z', g'.Schedules v' args w' (.done r) z' ∧ M.world z z' := by
  obtain ⟨hj, hw₁⟩ := T.launch hv ha hw
  constructor
  · intro z' hz'
    obtain ⟨i, u, hs, hi, hu⟩ := (first_tracks_second T).scheduled ⟨hj, hw₁⟩ hz'
    -- what is left of the first job has yet to notice that it is done
    obtain ⟨p, z, hacts, hp, hz⟩ := acts_behind T hi hu (.step (j := .done r) trivial)
    cases hp with
    | finished _ => exact ⟨z, hs.trans (scheduled_of_actsTo hacts), hz⟩
  · intro z hz
    obtain ⟨i', u', hs, hi, hu⟩ := (second_tracks_first T).scheduled ⟨hj, hw₁⟩ hz
    rcases acts_ahead T hi hu (.step (j := .done r) trivial) with
      ⟨_, he, -⟩ | ⟨p', z', ha', hp, hz'⟩
    · cases he
    · cases hp with
      | finished _ => exact ⟨z', hs.trans (.next (.turn ha') .refl), hz'⟩

end Threads

end ArrayGraph
