import ArrayGraph.Proofs.Evaluation.Schedule
import ArrayGraph.Proofs.Session.Reachable
import Mathlib.Data.List.Forall2
/-!
# Programs

A program is a list of requests to a session: to build nodes and to evaluate operands.
`Session.Performs` is a run of a program, with every answer and the session after it.
An evaluation that does not end has no answer, and nothing after it is answered.

How evaluations come to their ends is a parameter of the run: in the turns of their callers
(`Graph.Evaluates`), or under any schedule of the threads (`Graph.MayEvaluate`). The two are
the same only where no pool takes part.
-/

namespace ArrayGraph

/-- How evaluations come to their ends. -/
abbrev Evaluator := Graph → Value → List Value → World → Outcome → World → Prop

/-- Under some schedule the evaluation comes to this end. -/
def Graph.MayEvaluate : Evaluator := fun g v args w r z => g.Schedules v args w (.done r) z

/-- What a program asks of a session. -/
inductive Session.Request
  | create (name : String) (operands : List Value) (locality : Locality) (codename : String)
  | createNamed (name : String) (operands : List Value) (locality : Locality) (site : Site)
  | evaluate (v : Value) (args : List Value)

inductive Session.Answer
  | created (r : Except Error Handle)
  | evaluated (r : Outcome)

inductive Session.Does (ends : Evaluator) : Session → Request → Answer → Session → Prop
  | create {s name operands locality codename} :
      Does ends s (.create name operands locality codename)
        (.created (s.create name operands locality codename).1)
        (s.create name operands locality codename).2
  | createNamed {s name operands locality site} :
      Does ends s (.createNamed name operands locality site)
        (.created (s.createNamed name operands locality site).1)
        (s.createNamed name operands locality site).2
  | evaluate {s v args r w} : ends s.graph v args s.world r w →
      Does ends s (.evaluate v args) (.evaluated r) { s with world := w }

/-- The requests are done one after the other. -/
inductive Session.Performs (ends : Evaluator) :
    Session → List Request → List (Answer × Session) → Prop
  | nil {s} : Performs ends s [] []
  | cons {s q a t requests answers} : s.Does ends q a t → Performs ends t requests answers →
      Performs ends s (q :: requests) ((a, t) :: answers)

/-- Some run of the program gets these answers. -/
def Session.Gets (ends : Evaluator) (s : Session) (requests : List Request)
    (answers : List Answer) : Prop :=
  ∃ as, s.Performs ends requests as ∧ as.map Prod.fst = answers

theorem gets_nil {ends : Evaluator} {s : Session} : s.Gets ends [] [] := ⟨[], .nil, rfl⟩

theorem gets_createNamed {ends : Evaluator} {s t : Session} {name : String} {operands : List Value}
    {locality : Locality} {site : Site} {r : Except Error Handle}
    {requests : List Session.Request} {answers : List Session.Answer}
    (h : s.createNamed name operands locality site = (r, t)) :
    s.Gets ends (.createNamed name operands locality site :: requests) (.created r :: answers) ↔
      t.Gets ends requests answers := by
  have hr : r = (s.createNamed name operands locality site).1 := by rw [h]
  have ht : t = (s.createNamed name operands locality site).2 := by rw [h]
  subst hr ht
  constructor
  · rintro ⟨_, _ | ⟨hd, hp⟩, he⟩
    cases hd
    exact ⟨_, hp, List.tail_eq_of_cons_eq he⟩
  · rintro ⟨as, hp, rfl⟩
    exact ⟨_, .cons .createNamed hp, rfl⟩

theorem gets_evaluate {ends : Evaluator} {s : Session} {v : Value} {args : List Value}
    {r : Outcome} {requests : List Session.Request} {answers : List Session.Answer} :
    s.Gets ends (.evaluate v args :: requests) (.evaluated r :: answers) ↔
      ∃ z, ends s.graph v args s.world r z ∧
        ({ s with world := z } : Session).Gets ends requests answers := by
  constructor
  · rintro ⟨_, _ | ⟨hd, hp⟩, he⟩
    cases hd with
    | evaluate h =>
      cases (List.cons.inj he).1
      exact ⟨_, h, _, hp, (List.cons.inj he).2⟩
  · rintro ⟨z, h, as, hp, rfl⟩
    exact ⟨_, .cons (.evaluate h) hp, rfl⟩

/-! ## Programs that go alike -/

/-- The sessions answer the requests alike, and `R` holds of what is left of them. -/
structure Session.Alike (ends : Evaluator) (R : Session → Session → Prop) (s s' : Session)
    (q q' : Request) : Prop where
  forward : ∀ a t, s.Does ends q a t → ∃ t', s'.Does ends q' a t' ∧ R t t'
  back : ∀ a t', s'.Does ends q' a t' → ∃ t, s.Does ends q a t ∧ R t t'

/-- The programs get the same answers from the sessions, and `R` holds after each. -/
structure Session.Replays (ends : Evaluator) (R : Session → Session → Prop) (s s' : Session)
    (requests requests' : List Request) : Prop where
  forward : ∀ as, s.Performs ends requests as → ∃ as', s'.Performs ends requests' as' ∧
    List.Forall₂ (fun a a' => a'.1 = a.1 ∧ R a.2 a'.2) as as'
  back : ∀ as', s'.Performs ends requests' as' → ∃ as, s.Performs ends requests as ∧
    List.Forall₂ (fun a a' => a'.1 = a.1 ∧ R a.2 a'.2) as as'

section Alike

variable {ends : Evaluator} {R : Session → Session → Prop} {s s' : Session} {name : String}
  {operands operands' : List Value} {locality locality' : Locality}

theorem alike_create {codename : String}
    (ha : (s'.create name operands' locality' codename).1 =
      (s.create name operands locality codename).1)
    (hr : R (s.create name operands locality codename).2
      (s'.create name operands' locality' codename).2) :
    s.Alike ends R s' (.create name operands locality codename)
      (.create name operands' locality' codename) where
  forward a t h := by
    cases h
    exact ⟨_, ha ▸ .create, hr⟩
  back a t' h := by
    cases h
    exact ⟨_, ha ▸ .create, hr⟩

theorem alike_createNamed {site : Site}
    (ha : (s'.createNamed name operands' locality' site).1 =
      (s.createNamed name operands locality site).1)
    (hr : R (s.createNamed name operands locality site).2
      (s'.createNamed name operands' locality' site).2) :
    s.Alike ends R s' (.createNamed name operands locality site)
      (.createNamed name operands' locality' site) where
  forward a t h := by
    cases h
    exact ⟨_, ha ▸ .createNamed, hr⟩
  back a t' h := by
    cases h
    exact ⟨_, ha ▸ .createNamed, hr⟩

theorem replays_nil : s.Replays ends R s' [] [] where
  forward as h := by
    cases h
    exact ⟨[], .nil, .nil⟩
  back as h := by
    cases h
    exact ⟨[], .nil, .nil⟩

theorem replays_cons {q q' : Session.Request} {requests requests' : List Session.Request}
    (hq : s.Alike ends R s' q q')
    (hrest : ∀ a t t', s.Does ends q a t → R t t' → t.Replays ends R t' requests requests') :
    s.Replays ends R s' (q :: requests) (q' :: requests') where
  forward := by
    rintro _ (_ | ⟨hd, hp⟩)
    obtain ⟨t', hd', hr⟩ := hq.forward _ _ hd
    obtain ⟨as', hp', hall⟩ := (hrest _ _ _ hd hr).forward _ hp
    exact ⟨_, .cons hd' hp', .cons ⟨rfl, hr⟩ hall⟩
  back := by
    rintro _ (_ | ⟨hd', hp'⟩)
    obtain ⟨t, hd, hr⟩ := hq.back _ _ hd'
    obtain ⟨as, hp, hall⟩ := (hrest _ _ _ hd hr).back _ hp'
    exact ⟨_, .cons hd hp, .cons ⟨rfl, hr⟩ hall⟩

end Alike

end ArrayGraph
