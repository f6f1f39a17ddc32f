import ArrayGraph.Proofs.Evaluation.Sequence
import ArrayGraph.Proofs.Session.Reachable
import Mathlib.Data.Set.Card
/-!
# Paths of operands

A path leads from a node to one of its operands, from there to an operand of that one, and
so on. `Graph.Walk` lists what is visited below a node when its operands are: each path once,
in an order in which a node that joins its operands has them visited all at once, before
anything below them. A node's own walk is put together from those of its operands by
`walk_of_errands`, whether it joins them or takes one after the other.
-/

namespace ArrayGraph

/-! ## Paths -/

/-- A path of positions among operands leads from one node to another. -/
inductive Graph.Leads (g : Graph) : Nat → List Nat → Nat → Prop
  | here {i} : Leads g i [] i
  | operand {i n a h p j} : g.nodes[i]? = some n → n.operands[a]? = some (.node h) →
      Leads g h.index p j → Leads g i (a :: p) j

variable {g : Graph} {i j k : Nat} {p q : List Nat} {n : Node}

/-- No way leads from a node back to it. -/
def Graph.Acyclic (g : Graph) : Prop := ∀ i p, g.Leads i p i → p = []

theorem leads_nil : g.Leads i [] j ↔ j = i := by
  constructor
  · intro h
    cases h
    rfl
  · rintro rfl
    exact .here

theorem leads_cons {a : Nat} (hn : g.nodes[i]? = some n) : g.Leads i (a :: p) j ↔
    ∃ h, n.operands[a]? = some (.node h) ∧ g.Leads h.index p j := by
  constructor
  · intro h
    cases h with
    | operand hm ha hp =>
      cases hn.symm.trans hm
      exact ⟨_, ha, hp⟩
  · rintro ⟨h, ha, hp⟩
    exact .operand hn ha hp

theorem Graph.Leads.trans (h : g.Leads i p j) (h' : g.Leads j q k) : g.Leads i (p ++ q) k := by
  induction h with
  | here => exact h'
  | operand hn ha _ ih => exact .operand hn ha (ih h')

/-- What is shown of a node once it is shown of its operands is true of every node. -/
theorem Graph.Acyclic.induction (ha : g.Acyclic) {P : Nat → Prop}
    (step : ∀ i, (∀ n h, g.nodes[i]? = some n → .node h ∈ n.operands → P h.index) → P i)
    (i : Nat) : P i := by
  let below : Fin g.nodes.size → Fin g.nodes.size → Prop := fun a b =>
    ∃ p, p ≠ [] ∧ g.Leads b p a
  have htrans : IsTrans _ below := by
    refine ⟨?_⟩
    rintro a b c ⟨p, hp, hab⟩ ⟨q, hq, hbc⟩
    exact ⟨q ++ p, by simp [hp], hbc.trans hab⟩
  have hirrefl : Std.Irrefl below := ⟨fun a ⟨p, hp, haa⟩ => hp (ha a p haa)⟩
  have hwf : WellFounded below := Finite.wellFounded_of_trans_of_irrefl below
  -- an index that is out of the graph has no operands below it
  have hout : ∀ i, g.nodes.size ≤ i → P i := by
    intro i hi
    refine step i fun n h hn _ => ?_
    rw [Array.getElem?_eq_none hi] at hn
    cases hn
  have hin : ∀ a : Fin g.nodes.size, P a := by
    intro a
    induction a using hwf.induction with
    | _ a ih =>
      refine step a fun n h hn hm => ?_
      rcases Nat.lt_or_ge h.index g.nodes.size with hlt | hge
      · obtain ⟨b, hb⟩ := List.getElem?_of_mem hm
        exact ih ⟨h.index, hlt⟩ ⟨[b], by simp, .operand hn hb .here⟩
      · exact hout _ hge
  rcases Nat.lt_or_ge i g.nodes.size with hlt | hge
  · exact hin ⟨i, hlt⟩
  · exact hout i hge

/-- Operands that are there before their node lead to no cycle. -/
theorem acyclic_of_ordered (ho : ∀ (i : Nat) (n : Node), g.nodes[i]? = some n →
    ∀ v ∈ n.operands, v.Below i) : g.Acyclic := by
  have hle : ∀ i p j, g.Leads i p j → j ≤ i ∧ (p ≠ [] → j < i) := by
    intro i p j h
    induction h with
    | here => exact ⟨le_rfl, fun h => absurd rfl h⟩
    | operand hn ha _ ih =>
      have hlt := ho _ _ hn _ (List.mem_of_getElem? ha) _ rfl
      exact ⟨by omega, fun _ => by omega⟩
  intro i p h
  by_contra hp
  exact lt_irrefl i ((hle i p i h).2 hp)

/-! ## Walks -/

/-- A path from the node that is at work, and the node that it leads to. -/
structure Visit where
  path : List Nat
  node : Nat
  deriving DecidableEq

/-- The visit as it is seen from where a path leads to the node that is at work. -/
def Visit.under (p : List Nat) (x : Visit) : Visit := ⟨p ++ x.path, x.node⟩

/-- The visit of the operand at position `a`, if it is a node. -/
def Value.calls (a : Nat) : Value → List Visit
  | .node h => [⟨[a], h.index⟩]
  | _ => []

/-- The visits of the operands that are nodes, in the order of the operands. -/
def Node.calls (n : Node) : List Visit := n.operands.zipIdx.flatMap fun t => t.1.calls t.2

/-- What is visited below a node, in order. -/
structure Graph.Walk (g : Graph) (i : Nat) (visits : List Visit) : Prop where
  /-- Every path is taken. -/
  mem : ∀ p j, ⟨p, j⟩ ∈ visits ↔ p ≠ [] ∧ g.Leads i p j
  /-- No path is taken twice. -/
  nodup : visits.Nodup
  /-- Operands that are joined are visited one right after the other, before all below. -/
  joins : ∀ p j n, g.Leads i p j → g.nodes[j]? = some n → n.join?.isSome = true →
    ∃ before after, visits = before ++ n.calls.map (·.under p) ++ after ∧
      ∀ a q k, q ≠ [] → g.Leads i (p ++ a :: q) k → ⟨p ++ a :: q, k⟩ ∈ after

/-- An operand, and what is visited below it. -/
structure Errand where
  value : Value
  visits : List Visit

/-- The operand is a node of the graph with this walk below it, or it is no node. -/
def Errand.Run (g : Graph) (e : Errand) : Prop :=
  match e.value with
  | .node h => (g.nodes[h.index]?).isSome = true ∧ g.Walk h.index e.visits
  | _ => e.visits = []

/-- What is visited below the operand at position `a`. -/
def Errand.below (e : Errand) (a : Nat) : List Visit := e.visits.map (·.under [a])

/-- The operand at position `a` is visited, and then what is below it. -/
def Errand.whole (e : Errand) (a : Nat) : List Visit := e.value.calls a ++ e.below a

/-- What is listed for operands, one after the other. -/
def listed (team : List Errand) (f : Errand → Nat → List Visit) : List Visit :=
  team.zipIdx.flatMap fun t => f t.1 t.2

variable {team : List Errand} {e : Errand} {x : Visit}

theorem mem_calls : x ∈ n.calls ↔
    ∃ a h, n.operands[a]? = some (.node h) ∧ x = ⟨[a], h.index⟩ := by
  simp only [Node.calls, List.mem_flatMap, Prod.exists, List.mk_mem_zipIdx_iff_getElem?]
  constructor
  · rintro ⟨v, a, hv, hx⟩
    cases v with
    | node h => exact ⟨a, h, hv, List.mem_singleton.1 hx⟩
    | _ => cases hx
  · rintro ⟨a, h, hv, rfl⟩
    exact ⟨_, a, hv, List.mem_singleton.2 rfl⟩

theorem mem_listed {f : Errand → Nat → List Visit} :
    x ∈ listed team f ↔ ∃ (a : Nat) (e : Errand), team[a]? = some e ∧ x ∈ f e a := by
  simp only [listed, List.mem_flatMap, Prod.exists, List.mk_mem_zipIdx_iff_getElem?]
  exact exists_comm

theorem Errand.mem_below {a : Nat} : x ∈ e.below a ↔ ∃ y ∈ e.visits, y.under [a] = x :=
  List.mem_map

theorem under_injective (p : List Nat) : Function.Injective (Visit.under p) := by
  rintro ⟨q, i⟩ ⟨q', i'⟩ h
  simpa [Visit.under] using h

theorem Errand.Run.walk {h : Handle} (hr : e.Run g) (hv : e.value = .node h) :
    g.Walk h.index e.visits := by
  rw [Errand.Run, hv] at hr
  exact hr.2

theorem Errand.Run.leads {y : Visit} (hr : e.Run g) (hy : y ∈ e.visits) :
    ∃ h, e.value = .node h ∧ y.path ≠ [] ∧ g.Leads h.index y.path y.node := by
  unfold Errand.Run at hr
  split at hr
  · rename_i h hv
    exact ⟨h, hv, (hr.2.mem y.path y.node).1 hy⟩
  · rw [hr] at hy
    cases hy

theorem Errand.Run.nodup (hr : e.Run g) : e.visits.Nodup := by
  unfold Errand.Run at hr
  split at hr
  · exact hr.2.nodup
  · rw [hr]
    exact List.nodup_nil

theorem path_of_mem_calls {v : Value} {a : Nat} (hx : x ∈ v.calls a) : x.path = [a] := by
  cases v with
  | node h => rw [List.mem_singleton.1 hx]
  | _ => cases hx

/-- What is listed for one operand stays in one piece. -/
theorem piece_of_listed {f : Errand → Nat → List Visit} {a : Nat} (he : team[a]? = some e) :
    f e a <:+: listed team f := by
  rw [listed, List.flatMap_def]
  exact List.infix_of_mem_flatten
    (List.mem_map_of_mem (f := fun t => f t.1 t.2) (List.mk_mem_zipIdx_iff_getElem?.2 he))

section Errands

variable (hn : g.nodes[i]? = some n) (ho : n.operands = team.map (·.value))
  (hr : ∀ e ∈ team, e.Run g)

include ho in
theorem calls_errands : n.calls = listed team fun e a => e.value.calls a := by
  rw [Node.calls, ho, List.zipIdx_map, List.flatMap_map]
  rfl

include ho in
theorem calls_below_perm :
    (n.calls ++ listed team Errand.below).Perm (listed team Errand.whole) := by
  rw [calls_errands ho]
  exact List.flatMap_append_perm ..

include hn ho hr

/-- What is visited is what paths lead to. -/
theorem mem_calls_below {p : List Nat} {j : Nat} :
    ⟨p, j⟩ ∈ n.calls ++ listed team Errand.below ↔ p ≠ [] ∧ g.Leads i p j := by
  have hvalue : ∀ (a : Nat) h, n.operands[a]? = some (.node h) →
      ∃ e, team[a]? = some e ∧ e.value = .node h := by
    intro a h ha
    rw [ho, List.getElem?_map, Option.map_eq_some_iff] at ha
    exact ha
  rw [List.mem_append, mem_calls, mem_listed]
  constructor
  · rintro (⟨a, h, ha, hx⟩ | ⟨a, e, he, hx⟩)
    · cases hx
      exact ⟨List.cons_ne_nil _ _, .operand hn ha .here⟩
    · obtain ⟨y, hy, hx⟩ := Errand.mem_below.1 hx
      cases hx
      obtain ⟨h, hv, -, hl⟩ := (hr e (List.mem_of_getElem? he)).leads hy
      refine ⟨List.cons_ne_nil _ _, .operand hn (h := h) ?_ hl⟩
      rw [ho, List.getElem?_map, he, Option.map_some, hv]
  · rintro ⟨hp, hl⟩
    obtain ⟨a, q, rfl⟩ := List.exists_cons_of_ne_nil hp
    obtain ⟨h, ha, hl⟩ := (leads_cons hn).1 hl
    obtain ⟨e, he, hv⟩ := hvalue a h ha
    by_cases hq : q = []
    · subst hq
      obtain rfl := leads_nil.1 hl
      exact .inl ⟨a, h, ha, rfl⟩
    · have hwalk := (hr e (List.mem_of_getElem? he)).walk hv
      exact .inr ⟨a, e, he, Errand.mem_below.2 ⟨⟨q, j⟩, (hwalk.mem q j).2 ⟨hq, hl⟩, rfl⟩⟩

omit hn in
/-- No visit is listed twice, since those at one position have it at the head of their path. -/
theorem nodup_calls_below : (n.calls ++ listed team Errand.below).Nodup := by
  rw [(calls_below_perm ho).nodup_iff, listed, List.nodup_flatMap]
  constructor
  · rintro ⟨e, a⟩ hm
    have he : e.Run g := hr e (List.mem_of_getElem? (List.mk_mem_zipIdx_iff_getElem?.1 hm))
    refine List.nodup_append.2 ⟨?_, he.nodup.map (under_injective [a]), ?_⟩
    · cases e.value with
      | node h => exact List.nodup_singleton _
      | _ => exact List.nodup_nil
    · rintro x hx _ hy rfl
      obtain ⟨y, hmem, rfl⟩ := Errand.mem_below.1 hy
      obtain ⟨h, -, hne, -⟩ := he.leads hmem
      exact hne (List.cons.inj (path_of_mem_calls hx)).2
  · have hdistinct : team.zipIdx.Pairwise (·.2 ≠ ·.2) := by
      rw [← List.pairwise_map (f := Prod.snd) (R := (· ≠ ·)), List.zipIdx_map_snd]
      exact List.nodup_range'
    have hhead : ∀ (t : Errand × Nat) (x : Visit),
        x ∈ t.1.whole t.2 → x.path.head? = some t.2 := by
      intro t x hx
      rcases List.mem_append.1 hx with hx | hx
      · rw [path_of_mem_calls hx]
        rfl
      · obtain ⟨y, -, rfl⟩ := Errand.mem_below.1 hx
        rfl
    refine hdistinct.imp fun {t t'} hne x hx hx' => hne ?_
    exact Option.some.inj ((hhead t x hx).symm.trans (hhead t' x hx'))

/-- A node's walk is put together from those of its operands, in any order that keeps each
of these in one piece and has joined operands visited before anything below them. -/
theorem walk_of_errands {visits : List Visit}
    (hperm : visits.Perm (n.calls ++ listed team Errand.below))
    (hpiece : ∀ (a : Nat) (e : Errand), team[a]? = some e → e.below a <:+: visits)
    (hjoin : n.join?.isSome = true → visits = n.calls ++ listed team Errand.below) :
    g.Walk i visits where
  mem p j := hperm.mem_iff.trans (mem_calls_below hn ho hr)
  nodup := hperm.nodup_iff.2 (nodup_calls_below ho hr)
  joins := by
    intro p j m hl hm hk
    cases hl with
    | here =>
      cases hn.symm.trans hm
      refine ⟨[], listed team Errand.below, ?_, fun a q k hq hl => ?_⟩
      · rw [hjoin hk, List.nil_append]
        congr 1
        exact (List.map_id _).symm
      · have hmem := (mem_calls_below hn ho hr).2 ⟨List.cons_ne_nil _ _, hl⟩
        rcases List.mem_append.1 hmem with hx | hx
        · obtain ⟨b, h, -, hx⟩ := mem_calls.1 hx
          cases hx
          exact absurd rfl hq
        · exact hx
    | @operand _ _ a h p _ hn' ha hl =>
      cases hn.symm.trans hn'
      rw [ho, List.getElem?_map, Option.map_eq_some_iff] at ha
      obtain ⟨e, he, hv⟩ := ha
      have hwalk := (hr e (List.mem_of_getElem? he)).walk hv
      obtain ⟨before, after, hvisits, hafter⟩ := hwalk.joins p j m hl hm hk
      obtain ⟨left, right, hpieces⟩ := hpiece a e he
      refine ⟨left ++ before.map (·.under [a]), after.map (·.under [a]) ++ right, ?_, ?_⟩
      · rw [← hpieces, Errand.below, hvisits]
        simp [Visit.under, Function.comp_def]
      · intro b q k hq hlong
        obtain ⟨h', ha', hlong⟩ := (leads_cons hn).1 hlong
        rw [ho, List.getElem?_map, he, Option.map_some, hv] at ha'
        cases ha'
        have hx := List.mem_map_of_mem (f := Visit.under [a]) (hafter b q k hq hlong)
        exact List.mem_append_left _ hx

theorem walk_joined : g.Walk i (n.calls ++ listed team Errand.below) := by
  refine walk_of_errands hn ho hr (.refl _) (fun a e he => ?_) fun _ => rfl
  exact (piece_of_listed he).trans (List.suffix_append _ _).isInfix

theorem walk_inTurn (hk : n.join? = none) : g.Walk i (listed team Errand.whole) := by
  refine walk_of_errands hn ho hr (calls_below_perm ho).symm (fun a e he => ?_) fun hs => ?_
  · have hlast : e.below a <:+: e.whole a := (List.suffix_append _ _).isInfix
    exact hlast.trans (piece_of_listed he)
  · rw [hk] at hs
    cases hs

end Errands

/-! ## Counting -/

/-- If the visits are those of all paths, a node is visited once for each path to it. -/
theorem encard_paths {visits : List Visit} (hnodup : visits.Nodup)
    (hmem : ∀ p j, ⟨p, j⟩ ∈ visits ↔ g.Leads i p j) (j : Nat) :
    {p | g.Leads i p j}.encard = (visits.map (·.node)).count j := by
  have hpaths : {p | g.Leads i p j} =
      ((visits.filter (·.node = j)).map (·.path)).toFinset := by
    ext p
    simp only [Set.mem_ofPred_eq, List.coe_toFinset, List.mem_map, List.mem_filter,
      decide_eq_true_eq, ← hmem]
    constructor
    · exact fun h => ⟨_, ⟨h, rfl⟩, rfl⟩
    · rintro ⟨⟨p', j'⟩, ⟨h, rfl⟩, rfl⟩
      exact h
  have hdistinct : ((visits.filter (·.node = j)).map (·.path)).Nodup := by
    refine (hnodup.filter _).map_on ?_
    rintro ⟨p, k⟩ hx ⟨p', k'⟩ hy rfl
    simp only [List.mem_filter, decide_eq_true_eq] at hx hy
    rw [hx.2, hy.2]
  rw [hpaths, Set.encard_coe_eq_coe_finsetCard, List.toFinset_card_of_nodup hdistinct,
    List.length_map, List.count_eq_countP, List.countP_map, List.countP_eq_length_filter]
  rfl

end ArrayGraph
