import ArrayGraph.Proofs.Evaluation.Following
import ArrayGraph.Proofs.Evaluation.Schedule
/-!
# Jobs that track others

A job tracks another if some schedule leads it after whatever is done for the other, in its
turn or out of it (`Tracks`). A join tracks another if its operands track those of the other
(`TracksTurns.joined`): an operand may leave what is done out of turn for later, as long as
it makes up for it in its own turn.
-/

namespace ArrayGraph

variable {g g' : Graph} {w w' : World} {R : Job → Job → Prop} {like : World → World → Prop}

/-- Whatever is done for the first of two related jobs, some schedule leads the second to one
that is related to what is left. -/
def Tracks (g g' : Graph) (R : Job → World → Job → World → Prop) : Prop :=
  ∀ j w j' w' i u, R j w j' w' → j.Goes g w i u → ∃ i' u', j'.Scheduled g' w' i' u' ∧ R i u i' u'

theorem Tracks.scheduled {R : Job → World → Job → World → Prop} (h : Tracks g g' R)
    {j j' i : Job} {u : World} (hr : R j w j' w') (hs : j.Scheduled g w i u) :
    ∃ i' u', j'.Scheduled g' w' i' u' ∧ R i u i' u' := by
  induction hs generalizing j' w' with
  | refl => exact ⟨j', w', .refl, hr⟩
  | next hg _ ih =>
    obtain ⟨j₁, w₁, hs₁, hr₁⟩ := h _ _ _ _ _ _ hr hg
    obtain ⟨i', u', hs', hr'⟩ := ih hr₁
    exact ⟨i', u', hs₁.trans hs', hr'⟩

/-! ## Operands -/

/-- At its turn in a join of whatever kind, the job may come to this. -/
def Job.Turns (g : Graph) (j : Job) (w : World) (j' : Job) (w' : World) : Prop :=
  ∀ k turned coming,
    (Job.joined k turned j coming).Scheduled g w (.joined k turned j' coming) w'

theorem turns_refl (j : Job) (w : World) : j.Turns g w j w := fun _ _ _ => .refl

theorem Job.Turns.trans {j j' i : Job} {u : World} (h : j.Turns g w j' w')
    (h' : j'.Turns g w' i u) : j.Turns g w i u :=
  fun k turned coming => (h k turned coming).trans (h' k turned coming)

theorem turns_moved {j i : Job} {u : World} (ha : j.Acts g w (.moved i) u) : j.Turns g w i u :=
  fun _ _ _ => .next (.turn (.joined ha)) .refl

theorem turns_aside {j i : Job} {u : World} (ha : j.Aside g w i u) : j.Turns g w i u :=
  fun _ _ _ => .next (.aside (.current ha)) .refl

/-- The second of two related jobs does in its turn what the first does in its own, at once or
when it has made up for what it has left. Out of turn it does what the first does, or
nothing. -/
structure TracksTurns (g : Graph) (like : World → World → Prop) (R : Job → Job → Prop) :
    Prop where
  acts : ∀ {j j' : Job} {w w' : World} {p : Progress} {u : World}, R j j' → like w w' →
    j.Acts g w p u → ∃ i' u', j'.Turns g w' i' u' ∧ ((∃ i, p = .moved i ∧ R i i' ∧ like u u') ∨
      ∃ p' z, i'.Acts g u' p' z ∧ p.Paired R p' ∧ like u z)
  aside : ∀ {j j' : Job} {w w' : World} {i : Job} {u : World}, R j j' → like w w' →
    j.Aside g w i u → (R i j' ∧ j'.value? = none ∧ like u w') ∨
      ∃ i' u', j'.Aside g w' i' u' ∧ R i i' ∧ like u u'

/-- A job that is suspended has no value yet. -/
theorem value?_of_acts {j j' : Job} {p : Progress} (h : j.Acts g w p w')
    (hp : p = .suspended j') : j'.value? = none := by
  cases h with
  | step _ => exact value?_of_suspended hp
  | @waiting k _ _ p _ _ =>
    rcases p with (e | v) | i | i <;> cases hp
    rfl
  | @joined k turned _ coming _ p _ _ =>
    rcases p with (e | v) | i | i
    · cases hp
    · exact value?_of_turn hp
    · cases hp
    · exact value?_of_turn hp
  | @placed id site _ _ p _ _ =>
    rcases p with r | i | i <;> cases hp
    rfl
  | paused =>
    cases hp
    rfl

/-- Out of turn, nothing is done for a job that has a value, and none comes to one. -/
theorem value?_of_aside {j j' : Job} (h : j.Aside g w j' w') :
    j.value? = none ∧ j'.value? = none := by
  cases h <;> exact ⟨rfl, rfl⟩

theorem Progress.Paired.rest {p p' : Progress} (h : p.Paired R p') : R p.rest p'.rest := by
  cases h with
  | finished hr => exact hr
  | moved hj => exact hj
  | suspended hj _ _ => exact hj

/-- A list that is related to one with `a` at some place has an element there that is related
to `a`, and any other two that are may take their place. -/
theorem exists_at {α β : Type} {R : α → β → Prop} {left right : List α} {a : α} {bs : List β}
    (h : List.Forall₂ R (left ++ a :: right) bs) : ∃ left' b right', bs = left' ++ b :: right' ∧
      R a b ∧ ∀ a' b', R a' b' → List.Forall₂ R (left ++ a' :: right) (left' ++ b' :: right') := by
  induction left generalizing bs with
  | nil =>
    obtain ⟨b, right', hab, hright, rfl⟩ := List.forall₂_cons_left_iff.1 h
    exact ⟨[], b, right', rfl, hab, fun _ _ hab' => .cons hab' hright⟩
  | cons c left ih =>
    obtain ⟨c', bs', hc, hrest, rfl⟩ := List.forall₂_cons_left_iff.1 h
    obtain ⟨left', b, right', rfl, hab, hat⟩ := ih hrest
    exact ⟨c' :: left', b, right', rfl, hab, fun a' b' hab' => .cons hc (hat a' b' hab')⟩

/-- A join tracks another if its operands track those of the other. -/
theorem TracksTurns.joined (h : TracksTurns g like R) :
    Tracks g g fun j w j' w' => j.Beside R j' ∧ like w w' := by
  rintro j w j' w' i u ⟨hj, hw⟩ hg
  cases hj with
  | done =>
    cases hg with
    | turn ha =>
      cases ha
      exact ⟨_, w', .refl, .done, hw⟩
    | aside ha => cases ha
  | joined ht hj hc =>
    cases hg with
    | turn ha =>
      cases ha with
      | step hsingle => exact hsingle.elim
      | joined ha =>
        obtain ⟨i', u', hturns, ⟨i, rfl, hi, hl⟩ | ⟨p', z, hacts, hp, hl⟩⟩ := h.acts hj hw ha
        · exact ⟨_, u', hturns _ _ _, .joined ht hi hc, hl⟩
        · exact ⟨_, z, (hturns _ _ _).trans (.next (.turn (.joined hacts)) .refl),
            (after_beside _ ht hc hp).rest, hl⟩
    | aside ha =>
      cases ha with
      | turned ha =>
        obtain ⟨left, t', right, rfl, ⟨hr, -⟩, hat⟩ := exists_at ht
        obtain ⟨hv, hv'⟩ := value?_of_aside ha
        rcases h.aside hr hw ha with ⟨hi, hnone, hl⟩ | ⟨i', u', ha', hi, hl⟩
        · exact ⟨_, w', .refl, .joined (hat _ _ ⟨hi, hv'.trans hnone.symm⟩) hj hc, hl⟩
        · exact ⟨_, u', .next (.aside (.turned ha')) .refl,
            .joined (hat _ _ ⟨hi, hv'.trans (value?_of_aside ha').2.symm⟩) hj hc, hl⟩
      | current ha =>
        rcases h.aside hj hw ha with ⟨hi, -, hl⟩ | ⟨i', u', ha', hi, hl⟩
        · exact ⟨_, w', .refl, .joined ht hi hc, hl⟩
        · exact ⟨_, u', .next (.aside (.current ha')) .refl, .joined ht hi hc, hl⟩
      | coming ha =>
        obtain ⟨left, c', right, rfl, hr, hat⟩ := exists_at hc
        rcases h.aside hr hw ha with ⟨hi, -, hl⟩ | ⟨i', u', ha', hi, hl⟩
        · exact ⟨_, w', .refl, .joined ht hj (hat _ _ hi), hl⟩
        · exact ⟨_, u', .next (.aside (.coming ha')) .refl, .joined ht hj (hat _ _ hi), hl⟩

end ArrayGraph
