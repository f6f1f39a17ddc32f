import ArrayGraph.Proofs.Evaluation.Sequence
import ArrayGraph.Proofs.Evaluation.Sibling
import Mathlib.Data.List.Perm.Basic
/-!
# The order of operands

Operands none of which writes what another one reaches, and which all have values when
they are evaluated alone, have those values in every order: in a block, in a parallel
block, in a join of their jobs in any order, and with their steps interleaved in any
way. What they leave in the slots is the same too. That is `siblings_in_any_order`.
-/

namespace ArrayGraph

variable {g : Graph} {w : World} {args : List Value}

/-- No store that one of the operands reaches has a target that the other reaches. -/
def Graph.Apart (g : Graph) (w : World) (a b : Value) : Prop :=
  (g.reach w [a]).Apart (g.reach w [b])

/-- Operands that lead into closed nodes with none in common are apart. -/
theorem apart_of_closedOn (ks ls : List Nat) {a b : Value} (hd : ∀ k ∈ ks, k ∉ ls)
    (ha : [a].all (·.leadsInto ks) = true) (hb : [b].all (·.leadsInto ls) = true)
    (hk : g.closedOn w ks = true) (hl : g.closedOn w ls = true) : g.Apart w a b := by
  constructor
  · intro i hi hr
    exact hd i (mem_of_reaches ha hk (reaches_of_writes hi)) (mem_of_reaches hb hl hr)
  · intro i hi hr
    exact hd i (mem_of_reaches ha hk hr) (mem_of_reaches hb hl (reaches_of_writes hi))

/-- What the operand comes to alone. -/
structure Graph.Alone (g : Graph) (args : List Value) (w : World) (e : Value) (s : Solo) :
    Prop where
  scope : s.scope = g.reach w [e]
  evaluates : g.Evaluates e args w (.ok s.value) s.final

theorem exists_solos {es vs : List Value}
    (h : List.Forall₂ (fun e v => ∃ z, g.Evaluates e args w (.ok v) z) es vs) :
    ∃ solos, solos.map (·.value) = vs ∧ List.Forall₂ (g.Alone args w) es solos := by
  induction h with
  | nil => exact ⟨[], rfl, .nil⟩
  | @cons e v es vs he _ ih =>
    obtain ⟨z, hz⟩ := he
    obtain ⟨solos, rfl, hs⟩ := ih
    exact ⟨⟨g.reach w [e], v, z⟩ :: solos, rfl, .cons ⟨rfl, hz⟩ hs⟩

theorem Graph.Alone.closed {e : Value} {s : Solo} (h : g.Alone args w e s) (hb : g.Builtin) :
    s.scope.Closed g w ∧ e.Within s.scope := by
  rw [h.scope]
  exact ⟨closed_reach hb, within_reach List.mem_cons_self⟩

theorem scopes_of_alone {es : List Value} {solos : List Solo}
    (h : List.Forall₂ (g.Alone args w) es solos) :
    solos.map (·.scope) = es.map fun e => g.reach w [e] :=
  map_eq_of_forall₂ h fun _ _ he => he.scope

theorem solos_apart {es : List Value} {solos : List Solo}
    (h : List.Forall₂ (g.Alone args w) es solos) (ha : es.Pairwise (g.Apart w)) :
    solos.Pairwise fun s t => s.scope.Apart t.scope := by
  have hp : (es.map fun e => g.reach w [e]).Pairwise Scope.Apart := List.pairwise_map.2 ha
  rw [← scopes_of_alone h] at hp
  exact List.pairwise_map.1 hp

/-! ## One after the other -/

/-- Operands in sequence have the values that they have alone, on every state that
agrees with `w` on what is still to come. -/
theorem sequence_settled {es : List Value} {solos : List Solo} {x : World} (hb : g.Builtin)
    (ha : ∀ a ∈ args, a.Plain) (h : List.Forall₂ (g.Alone args w) es solos)
    (hap : solos.Pairwise fun s t => s.scope.Apart t.scope)
    (hx : ∀ s ∈ solos, w.Agree s.scope x) :
    ∃ z, g.Sequence args es x (.ok (solos.map (·.value))) z ∧ Settled solos x z := by
  induction h generalizing x with
  | nil => exact ⟨x, .nil, nofun, .refl x⟩
  | @cons e s es solos he _ ih =>
    rw [List.forall_mem_cons] at hx
    rw [List.pairwise_cons] at hap
    obtain ⟨hc, hin⟩ := he.closed hb
    have hargs : s.scope.Given args := fun _ a hm => within_of_plain (ha a hm)
    obtain ⟨y, hy, hag⟩ := evaluates_agree hc hin hargs hx.1 he.evaluates
    have hk : x.Kept s.scope y := (evaluates_within hy (hc.agree hx.1) hin hargs).2
    have hy' : ∀ t ∈ solos, w.Agree t.scope y :=
      fun t ht => (hx.2 t ht).trans (hk.agree (hap.1 t ht).1)
    obtain ⟨z, hseq, hset⟩ := ih hap.2 hy'
    -- those that follow leave the slots of this one alone
    have hspare : (writesOf solos).Spares s.scope := by
      rintro i ⟨t, ht, hi⟩
      exact (hap.1 t ht).2 i hi
    refine ⟨z, .cons hy hseq, List.forall_mem_cons.2 ⟨?_, hset.final⟩, ?_⟩
    · exact hag.trans (hset.kept.agree hspare)
    · have h₁ : x.Kept (writesOf (s :: solos)) y :=
        hk.mono fun i hi => ⟨s, List.mem_cons_self, hi⟩
      have h₂ : y.Kept (writesOf (s :: solos)) z :=
        hset.kept.mono fun i ⟨t, ht, hi⟩ => ⟨t, List.mem_cons_of_mem s ht, hi⟩
      exact h₁.trans h₂

/-! ## Side by side -/

theorem exists_team {es : List Value} {solos : List Solo} (hb : g.Builtin)
    (ha : ∀ a ∈ args, a.Plain) (h : List.Forall₂ (g.Alone args w) es solos)
    (hap : solos.Pairwise fun s t => s.scope.Apart t.scope) :
    ∃ team : List Sibling, team.map (·.job) = es.map (fun e => (g.launch e args w).1) ∧
      ∀ x : World, x.slots = w.slots → Abreast g solos w team x := by
  have hin : List.Forall₂ (fun j s => ∃ left, Sibling.InStep g ⟨s, j, left⟩ w)
      (es.map fun e => (g.launch e args w).1) solos := by
    refine List.forall₂_map_left_iff.2 (h.imp fun e s he => ?_)
    obtain ⟨hc, hv⟩ := he.closed hb
    have hargs : s.scope.Given args := fun _ a hm => within_of_plain (ha a hm)
    exact Sibling.exists_inStep (launch_within hc hv hargs) hc
      (World.agree_of_slots (launch_slots ..)) he.evaluates
  obtain ⟨team, hj, hsolo, hin⟩ := Sibling.exists_siblings hin
  exact ⟨team, hj, fun x hx => ⟨hsolo, hap,
    fun s hm => (hin s hm).agree (World.agree_of_slots hx.symm), .of_slots hx⟩⟩

theorem Abreast.perm {solos : List Solo} {w₀ : World} {team team' : List Sibling}
    (h : Abreast g solos w₀ team w) (hp : team'.Perm team) :
    Abreast g (team'.map (·.solo)) w₀ team' w := by
  have hsolo : (team'.map (·.solo)).Perm solos := by
    rw [← h.members]
    exact hp.map _
  refine ⟨rfl, ?_, fun s hs => h.inStep s (hp.subset hs), h.kept.mono ?_⟩
  · exact (hsolo.pairwise_iff fun h => h.symm).2 h.apart
  · rintro i ⟨s, hs, hi⟩
    exact ⟨s, hsolo.symm.subset hs, hi⟩

/-- What is read off the members of a team, in another order. -/
theorem exists_order {α : Type} {f : Sibling → α} {team : List Sibling} {order : List α}
    (h : order.Perm (team.map f)) :
    ∃ team' : List Sibling, team'.Perm team ∧ order = team'.map f := by
  have hf : List.Forall₂ (fun a s => a = f s) (team.map f) team := by
    rw [List.forall₂_map_left_iff]
    exact List.forall₂_same.2 fun _ _ => rfl
  obtain ⟨team', hf', hp⟩ := List.perm_comp_forall₂ h hf
  have he : List.Forall₂ Eq order (team'.map f) := List.forall₂_map_right_iff.2 hf'
  rw [List.forall₂_eq_eq_eq] at he
  exact ⟨team', hp, he⟩

/-! ## Localities -/

/-- Where a node runs makes no difference to its value. -/
theorem evaluates_served {h : Handle} {n : Node} {v : Value} {P : World → Prop}
    (hn : g.node? h = some n) (hs : n.locality.Served)
    (hrun : ∀ x : World, x.slots = w.slots → ∃ z,
      (n.run g (w.slot h.index) args x).1.Runs g (n.run g (w.slot h.index) args x).2 (.ok v) z ∧
        P z) : ∃ z, g.Evaluates (.node h) args w (.ok v) z ∧ P z := by
  have hstart : ∀ x : World, x.slots = w.slots →
      ∃ z, (Job.start n (w.slot h.index) args).Runs g x (.ok v) z ∧ P z := by
    intro x hx
    obtain ⟨z, hz, hp⟩ := hrun x hx
    exact ⟨z, (Job.runs_step rfl).2 hz, hp⟩
  simp only [evaluates_iff, Graph.launch, hn, Locality.dispatch]
  cases ht : n.locality.transport with
  | inline => exact hstart w rfl
  | recorder line => exact hstart (w.write _) rfl
  | pool size name =>
    obtain ⟨z, hz, hp⟩ := hstart w rfl
    simp only [if_pos (hs size name ht)]
    exact ⟨z, runs_placed hz, hp⟩

/-! ## Any order -/

section Orders

variable {es : List Value} {solos : List Solo} (hb : g.Builtin) (ha : ∀ a ∈ args, a.Plain)
  (hs : List.Forall₂ (g.Alone args w) es solos)
  (hap : solos.Pairwise fun s t => s.scope.Apart t.scope)

include hb ha hs hap

theorem join_settled {k : Join} {x : World} (hx : x.slots = w.slots) :
    ∃ z, (g.join k es args x).1.Runs g (g.join k es args x).2
        (k.finish (solos.map (·.value))) z ∧ Settled solos w z := by
  obtain ⟨team, hj, hteam⟩ := exists_team hb ha hs hap
  rw [join_eq, launchAll_jobs hx, ← hj]
  exact start_finishes (hteam _ ((launchAll_slots ..).trans hx))

theorem order_settled {order : List (Job × Value)}
    (ho : order.Perm ((g.launchAll args es w).1.zip (solos.map (·.value)))) :
    ∃ z solos', (Join.all.start (order.map (·.1))).Runs g (g.launchAll args es w).2
        (.ok (.list (order.map (·.2)))) z ∧
      Settled solos' w z ∧ ∀ s, s ∈ solos ↔ s ∈ solos' := by
  obtain ⟨team, hj, hteam⟩ := exists_team hb ha hs hap
  have habreast := hteam (g.launchAll args es w).2 (launchAll_slots ..)
  have hzip : (g.launchAll args es w).1.zip (solos.map (·.value)) =
      team.map fun s => (s.job, s.solo.value) := by
    rw [launchAll_jobs rfl, ← hj, ← habreast.members, List.map_map, List.zip_map']
    rfl
  rw [hzip] at ho
  obtain ⟨team', hp, rfl⟩ := exists_order ho
  obtain ⟨z, hz, hset⟩ := start_finishes (k := .all) (habreast.perm hp)
  refine ⟨z, team'.map (·.solo), ?_, hset, ?_⟩
  · have hvalues : (team'.map (·.solo)).map (·.value) =
        (team'.map fun s => (s.job, s.solo.value)).map (·.2) := by
      rw [List.map_map, List.map_map]
      rfl
    rw [hvalues] at hz
    rw [List.map_map]
    exact hz
  · intro s
    rw [← habreast.members]
    exact (hp.map _).mem_iff.symm

theorem interleaved_order : ∃ N, ∀ n jobs z,
      Job.Interleaved g n (g.launchAll args es w).1 (g.launchAll args es w).2 jobs z →
        n ≤ N ∧ ((∀ j ∈ jobs, ∃ r, j = .done r) →
          jobs = Job.finished (solos.map (·.value)) ∧ Settled solos w z) := by
  obtain ⟨team, hj, hteam⟩ := exists_team hb ha hs hap
  have habreast := hteam (g.launchAll args es w).2 (launchAll_slots ..)
  refine ⟨Sibling.total (·.toGo) team, fun n jobs z hi => ?_⟩
  rw [launchAll_jobs rfl, ← hj] at hi
  obtain ⟨team', -, -, hsum⟩ := habreast.interleaved hi rfl
  exact ⟨by omega, interleaved_settled habreast hi⟩

theorem block_settled {h : Handle} {n : Node} (hn : g.node? h = some n)
    (ho : n.operands = es) (hl : n.locality.Served)
    (hp : n.primitive = .parallelBlock ∨ n.primitive = .block) :
    ∃ z, g.Evaluates (.node h) args w (.ok (lastValue (solos.map (·.value)))) z ∧
      Settled solos w z := by
  -- the node may have been launched with an entry in the log
  refine evaluates_served hn hl fun x hx => ?_
  rcases hp with hp | hp
  · simp only [Node.run, hp, ho]
    exact join_settled hb ha hs hap hx
  · obtain ⟨z, hseq, hset⟩ :=
      sequence_settled hb ha hs hap fun s _ => World.agree_of_slots hx.symm
    have hset' : Settled solos w z := ⟨hset.final, (World.Kept.of_slots hx).trans hset.kept⟩
    refine ⟨z, ?_, hset'⟩
    simp only [Node.run, hp, ho]
    cases es with
    | nil =>
      cases hs
      obtain ⟨-, rfl⟩ := sequence_nil.1 hseq
      exact runs_done.2 ⟨rfl, rfl⟩
    | cons e es => exact runs_block.2 ⟨_, hseq, rfl⟩

end Orders

/-- Of operands none of which writes what another reaches, each of which has a value
when it is evaluated alone, a block and a parallel block have the value of the last, and
each has its own value in every order of their jobs and of the jobs' steps, of which
there are only so many. The slots then hold the same after all of these. -/
theorem siblings_in_any_order {es vs : List Value} (hb : g.Builtin) (ha : ∀ a ∈ args, a.Plain)
    (hap : es.Pairwise (g.Apart w))
    (halone : List.Forall₂ (fun e v => ∃ z, g.Evaluates e args w (.ok v) z) es vs) :
    ∃ slots : Array Value,
      (∀ h n, g.node? h = some n → n.operands = es → n.locality.Served →
        n.primitive = .parallelBlock ∨ n.primitive = .block →
        ∃ z, g.Evaluates (.node h) args w (.ok (lastValue vs)) z ∧ z.slots = slots) ∧
      (∃ z, g.Sequence args es w (.ok vs) z ∧ z.slots = slots) ∧
      (∀ order : List (Job × Value), order.Perm ((g.launchAll args es w).1.zip vs) →
        ∃ z, (Join.all.start (order.map (·.1))).Runs g (g.launchAll args es w).2
          (.ok (.list (order.map (·.2)))) z ∧ z.slots = slots) ∧
      ∃ N, ∀ n jobs z,
        Job.Interleaved g n (g.launchAll args es w).1 (g.launchAll args es w).2 jobs z →
          n ≤ N ∧ ((∀ j ∈ jobs, ∃ r, j = .done r) → jobs = Job.finished vs ∧ z.slots = slots) := by
  obtain ⟨solos, rfl, hs⟩ := exists_solos halone
  have hsolos := solos_apart hs hap
  have hwrites : ∀ s ∈ solos, ∀ i, s.scope.slot i → s.scope.node i := by
    intro s hm i hi
    have hscope : s.scope ∈ es.map fun e => g.reach w [e] := by
      rw [← scopes_of_alone hs]
      exact List.mem_map_of_mem hm
    obtain ⟨e, -, he⟩ := List.mem_map.1 hscope
    rw [← he] at hi ⊢
    exact reaches_of_writes hi
  obtain ⟨z₀, hz₀, hset₀⟩ :=
    sequence_settled hb ha hs hsolos fun s _ => World.agree_of_slots (u := w) rfl
  refine ⟨z₀.slots, ?_, ⟨z₀, hz₀, rfl⟩, ?_, ?_⟩
  · intro h n hn ho hl hp
    obtain ⟨z, hz, hset⟩ := block_settled hb ha hs hsolos hn ho hl hp
    exact ⟨z, hz, hset.unique hset₀ (fun _ => Iff.rfl) hwrites⟩
  · intro order ho
    obtain ⟨z, solos', hz, hset, hm⟩ := order_settled hb ha hs hsolos ho
    exact ⟨z, hz, (hset₀.unique hset hm hwrites).symm⟩
  · obtain ⟨N, hN⟩ := interleaved_order hb ha hs hsolos
    refine ⟨N, fun n jobs z hi => ⟨(hN n jobs z hi).1, fun hd => ?_⟩⟩
    obtain ⟨hj, hset⟩ := (hN n jobs z hi).2 hd
    exact ⟨hj, hset.unique hset₀ (fun _ => Iff.rfl) hwrites⟩

/-- Two variables, each with a block that stores into it and reads it. -/
def twoSlots : Graph where
  nodes := #[⟨.variable, [.int 1], ⟨"a", "sample"⟩, .here⟩,
    ⟨.variable, [.int 2], ⟨"b", "sample"⟩, .here⟩,
    ⟨.store, [.node ⟨0, "a"⟩, .int 5], ⟨"five", "sample"⟩, .here⟩,
    ⟨.store, [.node ⟨1, "b"⟩, .int 6], ⟨"six", "sample"⟩, .here⟩,
    ⟨.block, [.node ⟨2, "five"⟩, .node ⟨0, "a"⟩], ⟨"left", "sample"⟩, .here⟩,
    ⟨.block, [.node ⟨3, "six"⟩, .node ⟨1, "b"⟩], ⟨"right", "sample"⟩, .here⟩,
    ⟨.parallelBlock, [.node ⟨4, "left"⟩, .node ⟨5, "right"⟩], ⟨"both", "sample"⟩, .here⟩]

/-- Side by side the blocks have the value of the second, and the slots end as they do
when the blocks run in sequence. -/
theorem twoSlots_in_any_order :
    twoSlots.Apart ⟨#[.int 1, .int 2], #[]⟩ (.node ⟨4, "left"⟩) (.node ⟨5, "right"⟩) ∧
    ∃ slots : Array Value,
      (∃ z, twoSlots.Evaluates (.node ⟨6, "both"⟩) [] ⟨#[.int 1, .int 2], #[]⟩ (.ok (.int 6)) z ∧
        z.slots = slots) ∧
      ∃ z, twoSlots.Sequence [] [.node ⟨4, "left"⟩, .node ⟨5, "right"⟩] ⟨#[.int 1, .int 2], #[]⟩
        (.ok [.int 5, .int 6]) z ∧ z.slots = slots := by
  have hb : twoSlots.Builtin := by decide
  have hap : twoSlots.Apart ⟨#[.int 1, .int 2], #[]⟩ (.node ⟨4, "left"⟩) (.node ⟨5, "right"⟩) :=
    apart_of_closedOn [0, 2, 4] [1, 3, 5] (by decide) rfl rfl rfl rfl
  have hleft : twoSlots.Evaluates (.node ⟨4, "left"⟩) [] ⟨#[.int 1, .int 2], #[]⟩ (.ok (.int 5))
      ⟨#[.int 5, .int 2], #[]⟩ := ⟨20, rfl⟩
  have hright : twoSlots.Evaluates (.node ⟨5, "right"⟩) [] ⟨#[.int 1, .int 2], #[]⟩ (.ok (.int 6))
      ⟨#[.int 1, .int 6], #[]⟩ := ⟨20, rfl⟩
  obtain ⟨slots, hblock, hseq, -⟩ := siblings_in_any_order hb (List.forall_mem_nil _)
    (List.pairwise_pair.2 hap) (.cons ⟨_, hleft⟩ (.cons ⟨_, hright⟩ .nil))
  exact ⟨hap, slots, hblock ⟨6, "both"⟩ _ rfl rfl nofun (.inl rfl), hseq⟩

end ArrayGraph
