import ArrayGraph.Proofs.Evaluation.Sequence
/-!
# Ways that agree

A way leads from a state to a value or a failure and to the state that it leaves: an operand
that is evaluated, operands in sequence, a loop. `Simulates` says that a second way comes to
what a first one comes to, from states that are like each other. No node reads the log, so
every operand agrees with itself on states that have the same in the slots
(`evaluates_simulates`), and operands that agree do so in sequence (`sequence_simulates`).
-/

namespace ArrayGraph

/-- The same in the slots; the logs may differ. -/
def World.SameSlots (w w' : World) : Prop := w.slots = w'.slots

/-- The same error, or values that are related. -/
inductive Related {α β : Type} (R : α → β → Prop) : Except Halt α → Except Halt β → Prop
  | ok {a b} : R a b → Related R (.ok a) (.ok b)
  | error {e} : Related R (.error e) (.error e)

/-- From states like each other, whatever the first way comes to, the second comes to
something related and leaves a state like it. -/
def Simulates {α β : Type} (like : World → World → Prop)
    (first : World → Except Halt α → World → Prop)
    (second : World → Except Halt β → World → Prop) (R : α → β → Prop) : Prop :=
  ∀ u u' s z, like u u' → first u s z →
    ∃ s' z', second u' s' z' ∧ like z z' ∧ Related R s s'

section Ways

variable {α β : Type} {R R' : α → β → Prop} {like : World → World → Prop}
  {first : World → Except Halt α → World → Prop}
  {second : World → Except Halt β → World → Prop}

theorem Related.eq {s s' : Except Halt α} (h : Related Eq s s') : s = s' := by
  cases h with
  | ok h => rw [h]
  | error => rfl

theorem related_refl (s : Except Halt α) : Related Eq s s := by
  cases s with
  | ok a => exact .ok rfl
  | error e => exact .error

theorem Related.imp {s : Except Halt α} {s' : Except Halt β} (h : Related R s s')
    (hR : ∀ a b, R a b → R' a b) : Related R' s s' := by
  cases h with
  | ok h => exact .ok (hR _ _ h)
  | error => exact .error

theorem Simulates.imp (h : Simulates like first second R) (hR : ∀ a b, R a b → R' a b) :
    Simulates like first second R' := by
  intro u u' s z hu hs
  obtain ⟨s', z', hs', hz, hr⟩ := h u u' s z hu hs
  exact ⟨s', z', hs', hz, hr.imp hR⟩

theorem simulates_self (way : World → Except Halt α → World → Prop) : Simulates Eq way way Eq := by
  rintro u _ s z rfl h
  exact ⟨s, z, h, rfl, related_refl s⟩

/-! ## Outcomes -/

theorem outcome_ok {way : Except Halt α → Prop} {f : α → Value} {v : Value} :
    (∃ s, way s ∧ .ok v = s.map f) ↔ ∃ a, way (.ok a) ∧ v = f a := by
  constructor
  · rintro ⟨s, hs, he⟩
    cases s with
    | ok a =>
      cases he
      exact ⟨a, hs, rfl⟩
    | error e => cases he
  · rintro ⟨a, hs, rfl⟩
    exact ⟨_, hs, rfl⟩

theorem outcome_error {way : Except Halt α → Prop} {f : α → Value} {e : Halt} :
    (∃ s, way s ∧ .error e = s.map f) ↔ way (.error e) := by
  constructor
  · rintro ⟨s, hs, he⟩
    cases s with
    | ok a => cases he
    | error e =>
      cases he
      exact hs
  · intro hs
    exact ⟨_, hs, rfl⟩

/-- The outcomes that are read off two ways are the same if they are for related values. -/
theorem Simulates.outcome {f : α → Value} {f' : β → Value} {u u' z : World} {r : Outcome}
    (h : Simulates like first second R) (hf : ∀ a b, R a b → f a = f' b) (hu : like u u')
    (hs : ∃ s, first u s z ∧ r = s.map f) :
    ∃ z', like z z' ∧ ∃ s, second u' s z' ∧ r = s.map f' := by
  obtain ⟨s, hs, rfl⟩ := hs
  obtain ⟨s', z', hs', hz, hr⟩ := h u u' s z hu hs
  refine ⟨z', hz, s', hs', ?_⟩
  cases hr with
  | ok hr => exact congrArg Except.ok (hf _ _ hr)
  | error => rfl

/-- Ways that agree both ways come to the same outcomes, in states of which the same holds. -/
theorem Simulates.outcome_iff {S : β → α → Prop} {f : α → Value} {f' : β → Value}
    {P : World → Prop} {u u' : World} {r : Outcome} (h : Simulates like first second R)
    (h' : Simulates like second first S) (hf : ∀ a b, R a b → f a = f' b)
    (hf' : ∀ b a, S b a → f' b = f a) (hu : like u u') (hu' : like u' u)
    (hP : ∀ z z', like z z' → P z → P z') :
    (∃ z, (∃ s, first u s z ∧ r = s.map f) ∧ P z) ↔
      ∃ z, (∃ s, second u' s z ∧ r = s.map f') ∧ P z := by
  constructor
  · rintro ⟨z, hs, hz⟩
    obtain ⟨z', hlike, hs'⟩ := h.outcome hf hu hs
    exact ⟨z', hs', hP _ _ hlike hz⟩
  · rintro ⟨z, hs, hz⟩
    obtain ⟨z', hlike, hs'⟩ := h'.outcome hf' hu' hs
    exact ⟨z', hs', hP _ _ hlike hz⟩

end Ways

/-! ## Operands -/

variable {g : Graph} {args : List Value}

theorem evaluates_simulates (hb : g.Builtin) (args : List Value) (v : Value) :
    Simulates World.SameSlots (g.Evaluates v args) (g.Evaluates v args) Eq := by
  intro u u' s z hs h
  have hc := closed_all hb u
  obtain ⟨z', hz', hag⟩ :=
    evaluates_agree hc (within_all v) (given_all args) (World.agree_of_slots hs) h
  exact ⟨s, z', hz', World.slots_ext hag.size fun i => hag.slot i trivial, related_refl s⟩

/-- Operands that agree one by one agree in sequence. -/
theorem sequence_simulates {like : World → World → Prop} {vs : List Value}
    (h : ∀ v ∈ vs, Simulates like (g.Evaluates v args) (g.Evaluates v args) Eq) :
    Simulates like (g.Sequence args vs) (g.Sequence args vs) Eq := by
  intro u u' s z hu hseq
  induction hseq generalizing u' with
  | nil => exact ⟨_, u', .nil, hu, .ok rfl⟩
  | cons hv _ ih =>
    rw [List.forall_mem_cons] at h
    obtain ⟨s₁, u₁, hv', hu₁, he⟩ := h.1 _ _ _ _ hu hv
    obtain ⟨s₂, z', hvs', hz, he'⟩ := ih h.2 u₁ hu₁
    rw [← he.eq] at hv'
    rw [← he'.eq] at hvs'
    exact ⟨_, z', .cons hv' hvs', hz, related_refl _⟩
  | halt hv =>
    obtain ⟨s₁, u₁, hv', hu₁, he⟩ := h _ List.mem_cons_self _ _ _ _ hu hv
    rw [← he.eq] at hv'
    exact ⟨_, u₁, .halt hv', hu₁, .error⟩

end ArrayGraph
