import ArrayGraph.Proofs.Evaluation.Run
import Mathlib.Data.List.Forall2
/-!
# Jobs that keep up

A job keeps up with another if it takes some steps for each step of the other and is then
finished, moved or suspended as the other is: `KeepsUp` says so of all jobs that are
related. Jobs that keep up come to the same ends (`KeepsUp.runs`), and a join keeps up with
another if its operands keep up with those of the other (`KeepsUp.joined`).
-/

namespace ArrayGraph

variable {g g' : Graph} {like : World → World → Prop} {R : Job → Job → Prop}

/-- The same outcome, or related jobs that have both moved or both been suspended. -/
inductive Progress.Paired (R : Job → Job → Prop) : Progress → Progress → Prop
  | finished {r} : R (.done r) (.done r) → Paired R (.finished r) (.finished r)
  | moved {j j'} : R j j' → Paired R (.moved j) (.moved j')
  | suspended {j j'} : R j j' → j.value? = none → j'.value? = none →
      Paired R (.suspended j) (.suspended j')

/-- Where two jobs are related, a step of the first is some steps of the second. -/
def KeepsUp (g g' : Graph) (like : World → World → Prop) (R : Job → Job → Prop) : Prop :=
  ∀ j j' w w', R j j' → like w w' → ∃ p' z', j'.ComesTo g' w' p' z' ∧
    (j.step g w).1.Paired R p' ∧ like (j.step g w).2 z'

theorem value?_of_turn {k : Join} {turned coming : List Job} {j : Job}
    (h : k.turn turned coming = .suspended j) : j.value? = none := by
  unfold Join.turn at h
  split at h
  · cases h
  · dsimp only at h
    split at h <;> cases h
    rfl

/-- A job that is suspended has no value yet. -/
theorem value?_of_suspended {j j' : Job} {w : World} (h : (j.step g w).1 = .suspended j') :
    j'.value? = none := by
  cases j with
  | done r => cases h
  | start n content args => cases h
  | round l last => cases h
  | rest l last =>
    cases h
    rfl
  | waiting k j =>
    rw [step_waiting] at h
    generalize (j.step g w).1 = p at h
    rcases p with (e | v) | j₁ | j₁ <;> cases h
    rfl
  | joined k turned j coming =>
    rw [step_joined] at h
    generalize (j.step g w).1 = p at h
    rcases p with (e | v) | j₁ | j₁
    · cases h
    · exact value?_of_turn h
    · cases h
    · exact value?_of_turn h
  | placed id site j =>
    rw [step_placed] at h
    generalize (j.step g w).1 = p at h
    rcases p with r | j₁ | j₁ <;> cases h
    rfl

/-- Jobs that keep up come to the same ends. -/
theorem KeepsUp.runs (h : KeepsUp g g' like R) {j j' : Job} {w w' : World} {r : Outcome}
    (hj : R j j') (hw : like w w') :
    (∀ z, j.Runs g w r z → ∃ z', j'.Runs g' w' r z' ∧ like z z') ∧
      ∀ z', j'.Runs g' w' r z' → ∃ z, j.Runs g w r z ∧ like z z' := by
  constructor
  · rintro z ⟨n, hn⟩
    induction n generalizing j j' w w' with
    | zero => cases hn
    | succ n ih =>
      obtain ⟨p', z', hc, hp, hz⟩ := h j j' w w' hj hw
      rcases hs : j.step g w with ⟨p, w₁⟩
      rw [hs] at hp hz
      rw [Job.run_succ n hs] at hn
      cases hp with
      | finished _ =>
        cases hn
        exact ⟨z', (Job.runs_comesTo hc).2 ⟨rfl, rfl⟩, hz⟩
      | moved hj₁ | suspended hj₁ _ _ =>
        obtain ⟨x, hx, hlike⟩ := ih hj₁ hz hn
        exact ⟨x, (Job.runs_comesTo hc).2 hx, hlike⟩
  · rintro z' ⟨n, hn⟩
    -- the second job has fewer steps left whenever the first has taken one
    induction n using Nat.strongRecOn generalizing j j' w w' with
    | ind n ih =>
      obtain ⟨p', w₁', hc, hp, hz⟩ := h j j' w w' hj hw
      have hleft := run_of_comesTo hc hn
      rcases hs : j.step g w with ⟨p, w₁⟩
      rw [hs] at hp hz
      cases hp with
      | finished _ =>
        obtain ⟨rfl, rfl⟩ := hleft
        exact ⟨w₁, (Job.runs_step hs).2 ⟨rfl, rfl⟩, hz⟩
      | moved hj₁ | suspended hj₁ _ _ =>
        obtain ⟨m, hm, hrun⟩ := hleft
        obtain ⟨x, hx, hlike⟩ := ih m hm hj₁ hz hrun
        exact ⟨x, (Job.runs_step hs).2 hx, hlike⟩

/-! ## Joins -/

/-- Joins of one kind, of related jobs in the same order. Of two that have had their turn,
both have the same value or neither has one. -/
inductive Job.Beside (R : Job → Job → Prop) : Job → Job → Prop
  | done {r} : Beside R (.done r) (.done r)
  | joined {k turned turned' j j' coming coming'} :
      List.Forall₂ (fun t t' => R t t' ∧ t.value? = t'.value?) turned turned' → R j j' →
      List.Forall₂ R coming coming' →
      Beside R (.joined k turned j coming) (.joined k turned' j' coming')

theorem start_beside (k : Join) {js js' : List Job} (h : List.Forall₂ R js js') :
    (k.start js).Beside R (k.start js') := by
  cases h with
  | nil => exact .done
  | cons hj hjs => exact .joined .nil hj hjs

theorem mapM_value_congr {js js' : List Job}
    (h : List.Forall₂ (fun j j' => R j j' ∧ j.value? = j'.value?) js js') :
    js.mapM Job.value? = js'.mapM Job.value? := by
  induction h with
  | nil => rfl
  | cons hj _ ih => rw [List.mapM_cons, List.mapM_cons, hj.2, ih]

theorem turn_beside (k : Join) {turned turned' coming coming' : List Job}
    (ht : List.Forall₂ (fun t t' => R t t' ∧ t.value? = t'.value?) turned turned')
    (hc : List.Forall₂ R coming coming') :
    (k.turn turned coming).Paired (Job.Beside R) (k.turn turned' coming') := by
  cases hc with
  | cons hj hjs => exact .moved (.joined ht hj hjs)
  | nil =>
    -- the round is over, and the jobs are looked at in their order
    have hjobs := List.forall₂_reverse_iff.2 ht
    simp only [Join.turn]
    rw [← mapM_value_congr hjobs]
    generalize turned.reverse = jobs at hjobs
    generalize turned'.reverse = jobs' at hjobs
    cases jobs.mapM Job.value? with
    | some values => exact .finished .done
    | none =>
      cases hjobs with
      | nil => exact .finished .done
      | cons hj hjs => exact .suspended (.joined .nil hj.1 (hjs.imp fun _ _ h => h.1)) rfl rfl

theorem after_beside (k : Join) {turned turned' coming coming' : List Job} {p p' : Progress}
    (ht : List.Forall₂ (fun t t' => R t t' ∧ t.value? = t'.value?) turned turned')
    (hc : List.Forall₂ R coming coming') (hp : p.Paired R p') :
    (k.after turned coming p).Paired (Job.Beside R) (k.after turned' coming' p') := by
  cases hp with
  | @finished r hr =>
    cases r with
    | error h => exact .finished .done
    | ok v => exact turn_beside k (.cons ⟨hr, rfl⟩ ht) hc
  | moved hj => exact .moved (.joined ht hj hc)
  | suspended hj hv hv' => exact turn_beside k (.cons ⟨hj, hv.trans hv'.symm⟩ ht) hc

/-- Operands that keep up do so side by side. -/
theorem KeepsUp.joined (h : KeepsUp g g' like R) : KeepsUp g g' like (Job.Beside R) := by
  intro j j' w w' hj hw
  cases hj with
  | done => exact ⟨_, w', .now rfl, .finished .done, hw⟩
  | @joined k turned turned' j j' coming coming' ht hj hc =>
    obtain ⟨p', z', hcome, hp, hz⟩ := h j j' w w' hj hw
    rw [step_joined]
    exact ⟨_, z', comesTo_joined hcome, after_beside k ht hc hp, hz⟩

end ArrayGraph
