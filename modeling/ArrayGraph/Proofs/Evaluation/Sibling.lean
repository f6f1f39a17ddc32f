import ArrayGraph.Proofs.Evaluation.Agreement
import Mathlib.Data.List.Forall2
/-!
# Jobs side by side

Of some jobs that are evaluated at the same time, none writes what another may touch.
Then each does what it does alone, whichever of them steps when: `Abreast` says how far
the siblings have got, `Abreast.advance` that a step of one of them keeps it up. In the
end every slot holds what the sibling that may write it leaves there alone (`Settled`),
so the order of the steps is not to be seen (`Settled.unique`). `start_finishes` is
about joins and `interleaved_settled` about all other orders.
-/

namespace ArrayGraph

variable {g : Graph} {S T : Scope} {u w z : World}

/-! ## Scopes apart -/

/-- The first scope may write nothing that the second may touch. -/
def Scope.Spares (S T : Scope) : Prop := ∀ i, S.slot i → ¬ T.node i

def Scope.Apart (S T : Scope) : Prop := S.Spares T ∧ T.Spares S

theorem Scope.Apart.symm (h : S.Apart T) : T.Apart S := And.symm h

theorem World.Kept.mono (h : w.Kept S z) (hS : ∀ i, S.slot i → T.slot i) : w.Kept T z :=
  ⟨h.size, fun i => (h.slot i).imp id fun hi => ⟨hS i hi.1, hi.2⟩⟩

theorem World.Kept.agree (h : w.Kept S z) (hs : S.Spares T) : w.Agree T z := by
  refine ⟨h.size.symm, fun i hi => ?_⟩
  rcases h.slot i with e | ⟨hS, -⟩
  · exact e.symm
  · exact absurd hi (hs i hS)

/-! ## What is to come of siblings -/

/-- What related entries have in common, the lists have. -/
theorem map_eq_of_forall₂ {α β γ : Type} {R : α → β → Prop} {f : α → γ} {f' : β → γ} {l : List α}
    {l' : List β} (h : List.Forall₂ R l l') (hf : ∀ a b, R a b → f' b = f a) :
    l'.map f' = l.map f := by
  induction h with
  | nil => rfl
  | cons hab _ ih => rw [List.map_cons, List.map_cons, hf _ _ hab, ih]

/-- What an operand comes to when it is evaluated alone: a value and a state. -/
structure Solo where
  scope : Scope
  value : Value
  final : World

def writesOf (solos : List Solo) : Scope :=
  ⟨fun _ => True, fun i => ∃ s ∈ solos, s.scope.slot i, True, True⟩

/-- Every slot holds what the sibling that may touch it leaves there alone, and if there
is no such sibling, what it held in `w`. -/
structure Settled (solos : List Solo) (w z : World) : Prop where
  final : ∀ s ∈ solos, s.final.Agree s.scope z
  kept : w.Kept (writesOf solos) z

/-- How the siblings end does not depend on how they got there. -/
theorem Settled.unique {solos solos' : List Solo} {w z z' : World} (h : Settled solos w z)
    (h' : Settled solos' w z') (hs : ∀ s, s ∈ solos ↔ s ∈ solos')
    (hn : ∀ s ∈ solos, ∀ i, s.scope.slot i → s.scope.node i) : z.slots = z'.slots := by
  refine World.slots_ext (h.kept.size.trans h'.kept.size.symm) fun i => ?_
  -- a slot that one of them may write holds what that one leaves there
  by_cases hi : ∃ s ∈ solos, s.scope.slot i
  · obtain ⟨s, hm, hi⟩ := hi
    have hnode := hn s hm i hi
    exact ((h.final s hm).slot i hnode).symm.trans ((h'.final s ((hs s).1 hm)).slot i hnode)
  · have hi' : ¬ ∃ s ∈ solos', s.scope.slot i := by
      rintro ⟨s, hm, h⟩
      exact hi ⟨s, (hs s).2 hm, h⟩
    have e : z.slot i = w.slot i := (h.kept.slot i).resolve_right fun h => hi h.1
    have e' : z'.slot i = w.slot i := (h'.kept.slot i).resolve_right fun h => hi' h.1
    rw [e, e']

/-! ## Siblings on their way -/

/-- A job among others. Alone, `left` steps come before its last. -/
structure Sibling where
  solo : Solo
  job : Job
  left : Nat

namespace Sibling

/-- In the state that the siblings share, this one is where it would be alone. -/
def InStep (g : Graph) (s : Sibling) (w : World) : Prop :=
  s.job.Within s.solo.scope ∧ s.solo.scope.Closed g w ∧ ∃ u, u.Agree s.solo.scope w ∧
    s.job.run g (s.left + 1) u = some (.ok s.solo.value, s.solo.final)

def total (f : Sibling → Nat) : List Sibling → Nat
  | [] => 0
  | s :: team => f s + total f team

@[simp] theorem total_cons (f : Sibling → Nat) (s : Sibling) (team : List Sibling) :
    total f (s :: team) = f s + total f team := rfl

@[simp] theorem total_append (f : Sibling → Nat) (team team' : List Sibling) :
    total f (team ++ team') = total f team + total f team' := by
  induction team with
  | nil => simp [total]
  | cons s team ih =>
    simp only [List.cons_append, total_cons, ih]
    omega

end Sibling

def Progress.rest : Progress → Job
  | .finished r => .done r
  | .moved j | .suspended j => j

namespace Sibling

def next (g : Graph) (s : Sibling) (w : World) : Sibling :=
  { s with job := (s.job.step g w).1.rest, left := s.left - 1 }

variable {s t : Sibling}

/-- A sibling takes the step that it takes alone. -/
theorem InStep.step (h : s.InStep g w) :
    (s.next g w).InStep g (s.job.step g w).2 ∧ w.Kept s.solo.scope (s.job.step g w).2 ∧
      match (s.job.step g w).1 with
      | .finished r => r = .ok s.solo.value
      | .moved _ | .suspended _ => 0 < s.left := by
  obtain ⟨hj, hc, u, hu, hr⟩ := h
  -- it is stepped both in the shared state `w` and in `u`, where it is alone
  have hcu : s.solo.scope.Closed g u := hc.agree hu.symm
  obtain ⟨hin, hk⟩ := step_within hj hc
  have hag := step_agree hj hcu hu
  unfold next
  rcases hw : s.job.step g w with ⟨p, w'⟩
  rcases hs : s.job.step g u with ⟨p', u'⟩
  rw [hw] at hin hk
  rw [hw, hs] at hag
  obtain ⟨rfl, hag⟩ := hag
  rw [Job.run_succ _ hs] at hr
  cases p' with
  | finished r =>
    simp only [Option.some.injEq, Prod.mk.injEq] at hr
    obtain ⟨rfl, rfl⟩ := hr
    exact ⟨⟨.done hin, hc.kept hk, _, hag, rfl⟩, hk, rfl⟩
  | moved j =>
    cases hl : s.left with
    | zero => simp [hl, Job.run] at hr
    | succ n =>
      rw [hl] at hr
      exact ⟨⟨hin, hc.kept hk, u', hag, hr⟩, hk, Nat.succ_pos n⟩
  | suspended j =>
    cases hl : s.left with
    | zero => simp [hl, Job.run] at hr
    | succ n =>
      rw [hl] at hr
      exact ⟨⟨hin.2, hc.kept hk, u', hag, hr⟩, hk, Nat.succ_pos n⟩

theorem InStep.agree (h : s.InStep g w) (hz : w.Agree s.solo.scope z) : s.InStep g z := by
  obtain ⟨hj, hc, u, hu, hr⟩ := h
  exact ⟨hj, hc.agree hz, u, hu.trans hz, hr⟩

theorem InStep.beside (h : t.InStep g w) (hk : w.Kept S z) (ha : S.Spares t.solo.scope) :
    t.InStep g z := h.agree (hk.agree ha)

/-- A job that has yet to begin has its run alone before it. -/
theorem exists_inStep {solo : Solo} {j : Job} (hj : j.Within solo.scope)
    (hc : solo.scope.Closed g w) (hu : u.Agree solo.scope w)
    (hr : j.Runs g u (.ok solo.value) solo.final) : ∃ left, InStep g ⟨solo, j, left⟩ w := by
  obtain ⟨limit, hr⟩ := hr
  cases limit with
  | zero => simp [Job.run] at hr
  | succ n => exact ⟨n, hj, hc, u, hu, hr⟩

theorem exists_siblings {jobs : List Job} {solos : List Solo}
    (h : List.Forall₂ (fun j solo => ∃ left, InStep g ⟨solo, j, left⟩ w) jobs solos) :
    ∃ team : List Sibling, team.map (·.job) = jobs ∧ team.map (·.solo) = solos ∧
      ∀ s ∈ team, s.InStep g w := by
  induction h with
  | nil => exact ⟨[], rfl, rfl, List.forall_mem_nil _⟩
  | @cons j solo _ _ hs _ ih =>
    obtain ⟨left, hs⟩ := hs
    obtain ⟨team, rfl, rfl, hin⟩ := ih
    exact ⟨⟨solo, j, left⟩ :: team, rfl, rfl, List.forall_mem_cons.2 ⟨hs, hin⟩⟩

theorem InStep.of_done {r : Outcome} (h : s.InStep g w) (hd : s.job = .done r) :
    r = .ok s.solo.value ∧ s.solo.final.Agree s.solo.scope w := by
  obtain ⟨-, -, u, hu, hr⟩ := h
  rw [hd, Job.run_succ _ (p := .finished r) rfl] at hr
  simp only [Option.some.injEq, Prod.mk.injEq] at hr
  obtain ⟨rfl, rfl⟩ := hr
  exact ⟨rfl, hu⟩

/-! ## Turns -/

/-- The sibling after a turn, in which it ran until it was done or suspended. -/
structure Turned (g : Graph) (s : Sibling) (w : World) (s' : Sibling) (w' : World) : Prop where
  solo : s'.solo = s.solo
  inStep : s'.InStep g w'
  kept : w.Kept s.solo.scope w'
  left : s'.left ≤ s.left
  comesTo : s.job.ComesTo g w (.finished (.ok s.solo.value)) w' ∧
      s'.job = .done (.ok s.solo.value) ∨
    s.job.ComesTo g w (.suspended s'.job) w' ∧ s'.left < s.left

theorem InStep.exists_turned (h : s.InStep g w) : ∃ s' w', Turned g s w s' w' := by
  generalize hn : s.left = n
  induction n using Nat.strongRecOn generalizing s w with
  | ind n ih =>
    obtain ⟨hin, hk, hp⟩ := h.step
    have hle : (s.next g w).left = s.left - 1 := rfl
    have hrest : (s.next g w).job = (s.job.step g w).1.rest := rfl
    rcases hs : s.job.step g w with ⟨p, w'⟩
    rw [hs] at hin hk hrest
    simp only [hs] at hp
    cases p with
    | finished r =>
      subst hp
      exact ⟨s.next g w, w', rfl, hin, hk, by omega, .inl ⟨.now hs, hrest⟩⟩
    | moved j =>
      -- the turn goes on with one step less to go
      obtain ⟨s', w'', hsolo, hin', hk', hle', hc⟩ := ih (s.left - 1) (by omega) hin hle
      rw [hrest] at hc
      refine ⟨s', w'', hsolo, hin', hk.trans hk', by omega, ?_⟩
      rcases hc with ⟨hc, hd⟩ | ⟨hc, hlt⟩
      · exact .inl ⟨.later hs hc, hd⟩
      · exact .inr ⟨.later hs hc, by omega⟩
    | suspended j =>
      refine ⟨s.next g w, w', rfl, hin, hk, by omega, .inr ⟨?_, by omega⟩⟩
      rw [hrest]
      exact .now hs

theorem Turned.runs_joined {s' : Sibling} {w' : World} {k : Join} {turned coming : List Job}
    {r : Outcome} (h : Turned g s w s' w') :
    (Job.joined k turned s.job coming).Runs g w r z ↔
      (k.turn (s'.job :: turned) coming).Runs g w' r z := by
  rcases h.comesTo with ⟨hc, hd⟩ | ⟨hc, -⟩
  · rw [Job.runs_comesTo (comesTo_joined hc), hd]
    rfl
  · exact Job.runs_comesTo (comesTo_joined hc)

end Sibling

/-! ## All siblings -/

/-- The siblings are where they would be alone, and nothing but what they may write has
changed since `w₀`. -/
structure Abreast (g : Graph) (solos : List Solo) (w₀ : World) (team : List Sibling) (w : World) :
    Prop where
  members : team.map (·.solo) = solos
  apart : solos.Pairwise fun s t => s.scope.Apart t.scope
  inStep : ∀ s ∈ team, s.InStep g w
  kept : w₀.Kept (writesOf solos) w

section Teams

variable {solos : List Solo} {w₀ w' : World} {team before after : List Sibling} {s s' : Sibling}

/-- One of the siblings may go on by itself. -/
theorem Abreast.advance (h : Abreast g solos w₀ (before ++ s :: after) w)
    (hs : s'.solo = s.solo) (hi : s'.InStep g w') (hk : w.Kept s.solo.scope w') :
    Abreast g solos w₀ (before ++ s' :: after) w' := by
  have hapart : ∀ t ∈ before ++ after, s.solo.scope.Spares t.solo.scope := by
    have hp := h.apart
    rw [← h.members, List.pairwise_map, List.pairwise_middle (fun h => h.symm)] at hp
    exact fun t ht => ((List.pairwise_cons.1 hp).1 t ht).1
  refine ⟨?_, h.apart, ?_, ?_⟩
  · rw [← h.members]
    simp [hs]
  · intro t ht
    rw [List.mem_append, List.mem_cons] at ht
    rcases ht with hb | rfl | ha
    · exact (h.inStep t (by simp [hb])).beside hk (hapart t (List.mem_append_left _ hb))
    · exact hi
    · exact (h.inStep t (by simp [ha])).beside hk (hapart t (List.mem_append_right _ ha))
  · refine h.kept.trans (hk.mono fun i hi => ⟨s.solo, ?_, hi⟩)
    rw [← h.members]
    exact List.mem_map_of_mem (by simp)

theorem Abreast.settled (h : Abreast g solos w₀ team w) (hd : ∀ s ∈ team, ∃ r, s.job = .done r) :
    team.map (·.job) = Job.finished (solos.map (·.value)) ∧ Settled solos w₀ w := by
  constructor
  · rw [← h.members, Job.finished, List.map_map, List.map_map]
    refine List.map_congr_left fun s hs => ?_
    obtain ⟨r, hr⟩ := hd s hs
    obtain ⟨he, -⟩ := (h.inStep s hs).of_done hr
    rw [hr, he]
    rfl
  · refine ⟨fun t ht => ?_, h.kept⟩
    rw [← h.members] at ht
    obtain ⟨s, hs, rfl⟩ := List.mem_map.1 ht
    obtain ⟨r, hr⟩ := hd s hs
    exact ((h.inStep s hs).of_done hr).2

/-! ## Joins -/

/-- The job comes to what the join makes of the values, and the slots are settled then. -/
def Finishes (g : Graph) (solos : List Solo) (w₀ : World) (k : Join) (j : Job) (w : World) : Prop :=
  ∃ z, j.Runs g w (k.finish (solos.map (·.value))) z ∧ Settled solos w₀ z

/-- No more than `N` steps are left when these have had their turn, and fewer if one of
them is not done. -/
def Sibling.Bounded (N : Nat) (turned coming : List Sibling) : Prop :=
  Sibling.total (·.left) (turned ++ coming) ≤ N ∧
    ∀ t ∈ turned, t.job.value? = none → Sibling.total (·.left) (turned ++ coming) < N

/-- One of the siblings has its turn in a join. If it is not done then, it was suspended,
and there are fewer steps left. -/
theorem Abreast.turn {N : Nat} (h : Abreast g solos w₀ (before ++ s :: after) w)
    (hb : Sibling.Bounded N before (s :: after)) :
    ∃ s' w', Abreast g solos w₀ ((before ++ [s']) ++ after) w' ∧
      Sibling.Bounded N (before ++ [s']) after ∧
      ∀ (k : Join) (r : Outcome) (z : World),
        (Job.joined k (before.map (·.job)).reverse s.job (after.map (·.job))).Runs g w r z ↔
          (k.turn ((before ++ [s']).map (·.job)).reverse (after.map (·.job))).Runs g w' r z := by
  obtain ⟨s', w', ht⟩ := (h.inStep s (by simp)).exists_turned
  obtain ⟨hle, hlt⟩ := hb
  have hleft := ht.left
  refine ⟨s', w', ?_, ⟨?_, ?_⟩, ?_⟩
  · rw [List.append_assoc]
    exact h.advance ht.solo ht.inStep ht.kept
  · simp only [Sibling.total_append, Sibling.total] at hle ⊢
    omega
  · intro t hm hv
    rcases List.mem_append.1 hm with hm | hm
    · have := hlt t hm hv
      simp only [Sibling.total_append, Sibling.total] at this ⊢
      omega
    · cases List.mem_singleton.1 hm
      have : s'.left < s.left := by
        rcases ht.comesTo with ⟨-, hd⟩ | ⟨-, hlt⟩
        · rw [hd] at hv
          cases hv
        · exact hlt
      simp only [Sibling.total_append, Sibling.total] at hle ⊢
      omega
  · intro k r z
    rw [ht.runs_joined, List.map_append, List.reverse_append]
    exact Iff.rfl

/-- A round of a join, from the turn of `s` on. Joins with fewer than `N` steps left are
known to finish. -/
theorem joined_finishes {k : Join} {N : Nat} (before : List Sibling)
    (hN : ∀ team w, Abreast g solos w₀ team w → Sibling.total (·.left) team < N →
      Finishes g solos w₀ k (k.start (team.map (·.job))) w)
    (h : Abreast g solos w₀ (before ++ s :: after) w) (hb : Sibling.Bounded N before (s :: after)) :
    Finishes g solos w₀ k
      (.joined k (before.map (·.job)).reverse s.job (after.map (·.job))) w := by
  -- on those who have yet to get their turn
  induction after generalizing before s w with
  | nil =>
    obtain ⟨s', w', h', ⟨-, hlt⟩, hruns⟩ := h.turn hb
    rw [List.append_nil] at h' hlt
    rcases finished_or_not ((before ++ [s']).map (·.job)) with ⟨vs, hvs⟩ | ⟨hn, j, hj, hv⟩
    · have hd : ∀ t ∈ before ++ [s'], ∃ r, t.job = .done r := by
        intro t ht
        have hm : t.job ∈ Job.finished vs := by
          rw [← hvs]
          exact List.mem_map_of_mem ht
        obtain ⟨v, -, hv⟩ := List.mem_map.1 hm
        exact ⟨.ok v, hv.symm⟩
      obtain ⟨hj, hset⟩ := h'.settled hd
      refine ⟨w', (hruns ..).2 ?_, hset⟩
      rw [hj, List.map_nil, turn_finished]
      exact ⟨rfl, rfl⟩
    · -- the next round begins with fewer steps left
      obtain ⟨t, ht, rfl⟩ := List.mem_map.1 hj
      obtain ⟨z, hz, hset⟩ := hN _ w' h' (hlt t ht hv)
      refine ⟨z, (hruns ..).2 ?_, hset⟩
      rw [List.map_nil, turn_unfinished k hn]
      exact hz
  | cons c after ih =>
    obtain ⟨s', w', h', hb', hruns⟩ := h.turn hb
    obtain ⟨z, hz, hset⟩ := ih (before ++ [s']) h' hb'
    exact ⟨z, (hruns ..).2 hz, hset⟩

/-- A join of siblings comes to an end, and gives what its kind makes of the values that
they have alone. -/
theorem start_finishes {k : Join} (h : Abreast g solos w₀ team w) :
    Finishes g solos w₀ k (k.start (team.map (·.job))) w := by
  generalize hn : Sibling.total (·.left) team = n
  induction n using Nat.strongRecOn generalizing team w with
  | ind n ih =>
    cases team with
    | nil =>
      obtain ⟨-, hset⟩ := h.settled (List.forall_mem_nil _)
      have hv : solos.map (·.value) = [] := by
        rw [← h.members]
        rfl
      refine ⟨w, (Job.runs_step rfl).2 ?_, hset⟩
      rw [hv]
      exact ⟨rfl, rfl⟩
    | cons s after =>
      have hN : ∀ team w, Abreast g solos w₀ team w → Sibling.total (·.left) team < n →
          Finishes g solos w₀ k (k.start (team.map (·.job))) w :=
        fun team w h hlt => ih _ hlt h rfl
      exact joined_finishes [] hN h ⟨Nat.le_of_eq hn, nofun⟩

/-! ## Any other order -/

/-- Jobs that are not done yet take `n` steps, in any order. -/
inductive Job.Interleaved (g : Graph) : Nat → List Job → World → List Job → World → Prop
  | refl {jobs w} : Interleaved g 0 jobs w jobs w
  | step {n before j after w jobs z} : (∀ r, j ≠ .done r) →
      Interleaved g n (before ++ (j.step g w).1.rest :: after) (j.step g w).2 jobs z →
      Interleaved g (n + 1) (before ++ j :: after) w jobs z

/-- The steps of the sibling before it is done. -/
def Sibling.toGo (s : Sibling) : Nat := if s.job.value?.isSome then 0 else s.left + 1

theorem Sibling.toGo_le (s : Sibling) : s.toGo ≤ s.left + 1 := by
  unfold toGo
  split <;> omega

theorem Sibling.InStep.toGo_next (h : s.InStep g w) (hd : ∀ r, s.job ≠ .done r) :
    (s.next g w).toGo < s.toGo := by
  have hs : s.toGo = s.left + 1 := by
    have hv : s.job.value? = none := by
      cases hv : s.job.value? with
      | none => rfl
      | some v => exact absurd (value?_eq_some hv) (hd _)
    simp [toGo, hv]
  have hle := (s.next g w).toGo_le
  have hleft : (s.next g w).left = s.left - 1 := rfl
  obtain ⟨-, -, hp⟩ := h.step
  rcases hstep : s.job.step g w with ⟨p, w'⟩
  simp only [hstep] at hp
  cases p with
  | finished r =>
    subst hp
    have hj : (s.next g w).job = .done (.ok s.solo.value) := by
      simp only [next, hstep, Progress.rest]
    have hz : (s.next g w).toGo = 0 := by simp [toGo, hj, Job.value?]
    omega
  | moved j | suspended j => omega

/-- Whatever the order, the siblings stay abreast, and there is an end to their steps. -/
theorem Abreast.interleaved {n : Nat} {jobs jobs' : List Job}
    (hi : Job.Interleaved g n jobs w jobs' z) (h : Abreast g solos w₀ team w)
    (hj : team.map (·.job) = jobs) :
    ∃ team', team'.map (·.job) = jobs' ∧ Abreast g solos w₀ team' z ∧
      n + Sibling.total (·.toGo) team' ≤ Sibling.total (·.toGo) team := by
  induction hi generalizing team with
  | refl => exact ⟨team, hj, h, by omega⟩
  | @step n before j after w jobs' z hd _ ih =>
    obtain ⟨b, c, rfl, hb, hc⟩ := List.map_eq_append_iff.1 hj
    obtain ⟨s, a, rfl, rfl, ha⟩ := List.map_eq_cons_iff.1 hc
    have hs := h.inStep s (by simp)
    obtain ⟨hin, hk, -⟩ := hs.step
    have hless := hs.toGo_next hd
    have h' : Abreast g solos w₀ (b ++ s.next g w :: a) _ := h.advance rfl hin hk
    have hj' : (b ++ s.next g w :: a).map (·.job) =
        before ++ (s.job.step g w).1.rest :: after := by
      rw [List.map_append, List.map_cons, hb, ha]
      rfl
    obtain ⟨team', hj'', h'', hsum⟩ := ih h' hj'
    refine ⟨team', hj'', h'', ?_⟩
    simp only [Sibling.total_append, Sibling.total_cons] at hsum ⊢
    omega

theorem interleaved_settled {n : Nat} {jobs : List Job} (h : Abreast g solos w₀ team w)
    (hi : Job.Interleaved g n (team.map (·.job)) w jobs z) (hd : ∀ j ∈ jobs, ∃ r, j = .done r) :
    jobs = Job.finished (solos.map (·.value)) ∧ Settled solos w₀ z := by
  obtain ⟨team', rfl, h', -⟩ := h.interleaved hi rfl
  exact h'.settled fun s hs => hd _ (List.mem_map_of_mem hs)

end Teams

end ArrayGraph
