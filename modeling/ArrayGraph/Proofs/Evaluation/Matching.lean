import ArrayGraph.Proofs.Evaluation.Agreement
import ArrayGraph.Proofs.Evaluation.Following
import ArrayGraph.Proofs.Session.Reachable
/-!
# Graphs that match

Two graphs may differ in operands and localities and still evaluate alike. A `Matching`
says what may stand for what: operands, states, and jobs that match for a reason of
their own (`leaf`). `Matching.Lawful` is what has to be shown of it: that matching
operands are launched to matching jobs and that the jobs of `leaf` keep up. Then
`step_matched` says that a step of the second graph is some steps of the first, and
`evaluates_matched` that both graphs come to the same ends.
-/

namespace ArrayGraph

/-! ## What keeps a node from panicking -/

/-- The node has the operands that its primitive reads, and gives no handle of its own. -/
def Node.Complete (n : Node) : Prop :=
  match n.primitive with
  | .store => ∃ h v rest, n.operands = .node h :: v :: rest
  | .argument => ∃ i, n.operands.head?.bind (·.asInt?) = some i
  | .forLoop => ∃ a b c d rest, n.operands = a :: b :: c :: d :: rest
  | .whileLoop | .trace => ∃ a b rest, n.operands = a :: b :: rest
  | .choice => n.operands ≠ []
  | .echo => ∃ v rest, n.operands = v :: rest ∧ v.Plain
  | .explode => False
  | _ => True

/-- A tame node that passes the check has the operands that it reads. -/
theorem complete_of_tame {g : Graph} {n : Node} (ht : n.Tame) (he : n.primitive ≠ .explode)
    (hc : g.check n.primitive n.operands = .ok ()) : n.Complete := by
  obtain ⟨hcount, -, htarget, hindex⟩ := check_eq_ok_iff.1 hc
  obtain ⟨p, operands, site, locality⟩ := n
  dsimp only at he hcount htarget hindex
  unfold Node.Complete
  cases p with
  | store =>
    rcases operands with _ | ⟨target, _ | ⟨v, rest⟩⟩
    iterate 2 cases hcount
    have ht := htarget rfl target rfl
    cases target with
    | node h => exact ⟨h, v, rest, rfl⟩
    | _ => cases ht
  | argument =>
    rcases operands with _ | ⟨index, rest⟩
    · cases hcount
    · obtain ⟨i, hi, -⟩ := (Option.any_eq_true ..).1 (hindex rfl index rfl)
      exact ⟨i, hi⟩
  | forLoop =>
    rcases operands with _ | ⟨a, _ | ⟨b, _ | ⟨c, _ | ⟨d, rest⟩⟩⟩⟩
    iterate 4 cases hcount
    exact ⟨a, b, c, d, rest, rfl⟩
  | whileLoop =>
    rcases operands with _ | ⟨a, _ | ⟨b, rest⟩⟩
    iterate 2 cases hcount
    exact ⟨a, b, rest, rfl⟩
  | choice =>
    rintro rfl
    cases hcount
  | trace => exact ht.elim
  | echo => exact ht
  | explode => exact absurd rfl he
  | _ => trivial

theorem complete_of_check {g : Graph} {n : Node} (hb : n.primitive.isBuiltin = true)
    (hc : g.check n.primitive n.operands = .ok ()) : n.Complete := by
  refine complete_of_tame (tame_of_builtin hb) (fun he => ?_) hc
  rw [he] at hb
  cases hb

/-- Whether a node of the primitive looks at its first operand as it stands. -/
def Primitive.readsHead : Primitive → Bool
  | .store | .argument | .trace | .echo => true
  | _ => false

theorem constantNamed_ne_panic (site : Site) (name : String) :
    constantNamed site name ≠ .error .panic := by
  unfold constantNamed
  split <;> exact nofun

theorem finish_ne_panic {k : Join} {values : List Value} (h : k.Takes values.length) :
    k.finish values ≠ .error .panic := by
  cases k with
  | compare op site | arithmetic op site =>
    rcases values with _ | ⟨a, _ | ⟨b, rest⟩⟩
    · simp [Join.Takes] at h
    · simp [Join.Takes] at h
    · exact ofKernel_ne_panic site _
  | statistic s site =>
    rcases values with _ | ⟨v, rest⟩
    · simp [Join.Takes] at h
    · exact ofKernel_ne_panic site _
  | last | all =>
    intro h
    cases h

/-! ## Matchings -/

/-- What in one graph stands for what in another. -/
structure Matching where
  /-- Under these arguments the second operand stands for the first. -/
  value : List Value → Value → Value → Prop
  world : World → World → Prop
  leaf : Job → Job → Prop
  /-- No job comes to a panic, or to a value that is a handle. -/
  strict : Prop
  /-- A job may stand for that job on a pool. -/
  carries : Prop

namespace Matching

variable (M : Matching)

def Allows (r : Outcome) : Prop := M.strict → r.Sane ∧ r ≠ .error .panic

/-- The arguments stand for themselves where they are operands. -/
def Supplied (args : List Value) : Prop := ∀ a ∈ args, M.value [] a a

/-- The jobs have the same value, or neither has one. -/
def Level (j j' : Job) : Prop :=
  (∃ v, j = .done (.ok v) ∧ j' = .done (.ok v) ∧ M.Allows (.ok v)) ∨
    (j.value? = none ∧ j'.value? = none)

end Matching

variable {M : Matching} {g g' : Graph} {w w' : World}

structure Node.Matched (M : Matching) (args : List Value) (n n' : Node) : Prop where
  primitive : n'.primitive = n.primitive
  site : n'.site = n.site
  operands : List.Forall₂ (M.value args) n.operands n'.operands
  head : n.primitive.readsHead = true → n'.operands.head? = n.operands.head?
  thread : n.primitive = .threadName → n'.locality.threadName = n.locality.threadName
  complete : M.strict → n.Complete

structure Loop.Matched (M : Matching) (l l' : Loop) : Prop where
  site : l'.site = l.site
  args : l'.args = l.args
  condition : M.value l.args l.condition l'.condition
  body : M.value l.args l.body l'.body
  step : Option.Rel (M.value l.args) l.step l'.step
  supplied : M.Supplied l.args

inductive Frame.Matched (M : Matching) : Frame → Frame → Prop
  | constantName {site} : Matched M (.constantName site) (.constantName site)
  | store {target} : Matched M (.store target) (.store target)
  | choice {site args yes no yes' no'} : M.Supplied args →
      Option.Rel (M.value args) yes yes' → Option.Rel (M.value args) no no' →
      Matched M (.choice site args yes no) (.choice site args yes' no')
  | block {args rest rest'} : M.Supplied args → List.Forall₂ (M.value args) rest rest' →
      Matched M (.block args rest) (.block args rest')
  | loopInit {l l'} : l.Matched M l' → Matched M (.loopInit l) (.loopInit l')
  | loopCondition {l l' last} : l.Matched M l' → M.Allows (.ok last) →
      Matched M (.loopCondition l last) (.loopCondition l' last)
  | loopBody {l l'} : l.Matched M l' → Matched M (.loopBody l) (.loopBody l')
  | loopStep {l l' last} : l.Matched M l' → M.Allows (.ok last) →
      Matched M (.loopStep l last) (.loopStep l' last)

/-- The jobs have matching things left to do. Those beside each other in a join are
paired, and where nothing panics a pool makes no difference. -/
inductive Job.Matched (M : Matching) : Job → Job → Prop
  | leaf {j j'} : M.leaf j j' → Matched M j j'
  | done {r} : M.Allows r → Matched M (.done r) (.done r)
  | start {n n' content content' args} : n.Matched M args n' →
      (n.primitive = .variable → M.value args content content') → M.Supplied args →
      Matched M (.start n content args) (.start n' content' args)
  | round {l l' last} : l.Matched M l' → M.Allows (.ok last) →
      Matched M (.round l last) (.round l' last)
  | rest {l l' last} : l.Matched M l' → M.Allows (.ok last) →
      Matched M (.rest l last) (.rest l' last)
  | waiting {k k' j j'} : k.Matched M k' → Matched M j j' →
      Matched M (.waiting k j) (.waiting k' j')
  | joined {k j j'} {turned coming : List (Job × Job)} :
      (∀ t ∈ turned, Matched M t.1 t.2) → (∀ t ∈ turned, M.Level t.1 t.2) → Matched M j j' →
      (∀ c ∈ coming, Matched M c.1 c.2) →
      (M.strict → k.Takes (turned.length + 1 + coming.length)) →
      Matched M (.joined k (turned.map Prod.fst) j (coming.map Prod.fst))
        (.joined k (turned.map Prod.snd) j' (coming.map Prod.snd))
  | placed {id site j j'} : Matched M j j' → Matched M (.placed id site j) (.placed id site j')
  | carried {id site j j'} : M.carries → M.strict → Matched M j j' →
      Matched M (.placed id site j) j'

inductive Progress.Matched (M : Matching) : Progress → Progress → Prop
  | finished {r} : M.Allows r → Matched M (.finished r) (.finished r)
  | moved {j j'} : j.Matched M j' → Matched M (.moved j) (.moved j')
  | suspended {j j'} : j.Matched M j' → j.value? = none → j'.value? = none →
      Matched M (.suspended j) (.suspended j')

/-- What is asked of a matching of two graphs. -/
structure Matching.Lawful (M : Matching) (g g' : Graph) : Prop where
  launch : ∀ {v v' args w w'}, M.value args v v' → M.Supplied args → M.world w w' →
    (g.launch v args w).1.Matched M (g'.launch v' args w').1 ∧
      M.world (g.launch v args w).2 (g'.launch v' args w').2
  setSlot : ∀ {i v w w'}, M.Allows (.ok v) → M.world w w' →
    M.world (w.setSlot i v) (w'.setSlot i v)
  write : ∀ {line w w'}, M.world w w' → M.world (w.write line) (w'.write line)
  leaf : ∀ {j j' w w'}, M.leaf j j' → M.world w w' → ∃ p w₁, j.ComesTo g w p w₁ ∧
    p.Matched M (j'.step g' w').1 ∧ M.world w₁ (j'.step g' w').2

/-! ## Outcomes -/

theorem supplied_nil : M.Supplied [] := List.forall_mem_nil _

theorem allows_of {r : Outcome} (hs : r.Sane) (hp : r ≠ .error .panic) : M.Allows r :=
  fun _ => ⟨hs, hp⟩

theorem allows_fail {site : Site} {c : Cause} (h : ∀ k, c ≠ .notCondition k) :
    M.Allows (.fail site c) := allows_of (sane_fail h) nofun

theorem allows_constantNamed (site : Site) (name : String) : M.Allows (constantNamed site name) :=
  allows_of (sane_constantNamed ..) (constantNamed_ne_panic site name)

theorem allows_plain {v : Value} (h : v.Plain) : M.Allows (.ok v) := allows_of h nofun

theorem allows_finish {k : Join} {values : List Value} (ht : M.strict → k.Takes values.length)
    (hv : ∀ v ∈ values, M.Allows (.ok v)) : M.Allows (k.finish values) :=
  fun hs => ⟨sane_finish k fun v hm => (hv v hm hs).1, finish_ne_panic (ht hs)⟩

/-- A handle that is no condition comes up only where handles do. -/
theorem allows_notCondition {site : Site} {v : Value} (hv : M.Allows (.ok v))
    (ht : v.truthy? = none) : M.Allows (.fail site (.notCondition v.kind)) := by
  intro hs
  obtain ⟨b, hb⟩ := truthy_of_plain (hv hs).1
  rw [ht] at hb
  cases hb

theorem matched_panic {P : Prop} (h : M.strict → P) (hp : ¬ P) :
    (Job.done (.error .panic)).Matched M (.done (.error .panic)) :=
  .done fun hs => absurd (h hs) hp

/-! ## Joins -/

theorem exists_pairs {js js' : List Job} (h : List.Forall₂ (Job.Matched M) js js') :
    ∃ pairs : List (Job × Job), js = pairs.map Prod.fst ∧ js' = pairs.map Prod.snd ∧
      ∀ p ∈ pairs, p.1.Matched M p.2 := by
  induction h with
  | nil => exact ⟨[], rfl, rfl, List.forall_mem_nil _⟩
  | @cons j j' js js' hj _ ih =>
    obtain ⟨pairs, rfl, rfl, hp⟩ := ih
    exact ⟨(j, j') :: pairs, rfl, rfl, List.forall_mem_cons.2 ⟨hj, hp⟩⟩

theorem start_matched {k : Join} {pairs : List (Job × Job)} (hp : ∀ p ∈ pairs, p.1.Matched M p.2)
    (ht : M.strict → k.Takes pairs.length) :
    (k.start (pairs.map Prod.fst)).Matched M (k.start (pairs.map Prod.snd)) := by
  cases pairs with
  | nil => exact .done (allows_finish ht (List.forall_mem_nil _))
  | cons p pairs =>
    rw [List.forall_mem_cons] at hp
    refine @Job.Matched.joined M k _ _ [] pairs (List.forall_mem_nil _) (List.forall_mem_nil _) hp.1
      hp.2 ?_
    intro hs
    rw [List.length_nil, Nat.zero_add, Nat.add_comm]
    exact ht hs

theorem level_finished {pairs : List (Job × Job)} {vs : List Value}
    (hl : ∀ p ∈ pairs, M.Level p.1 p.2) (h : pairs.map Prod.fst = Job.finished vs) :
    pairs.map Prod.snd = Job.finished vs ∧ ∀ v ∈ vs, M.Allows (.ok v) := by
  induction pairs generalizing vs with
  | nil =>
    cases vs with
    | nil => exact ⟨rfl, List.forall_mem_nil _⟩
    | cons v vs => cases h
  | cons p pairs ih =>
    cases vs with
    | nil => cases h
    | cons v vs =>
      rw [List.forall_mem_cons] at hl
      obtain ⟨hp, htail⟩ := List.cons.inj h
      obtain ⟨hs, hv⟩ := ih hl.2 htail
      rcases hl.1 with ⟨x, h₁, h₂, hx⟩ | ⟨hn, -⟩
      · rw [h₁] at hp
        cases hp
        refine ⟨?_, List.forall_mem_cons.2 ⟨hx, hv⟩⟩
        rw [List.map_cons, h₂, hs]
        rfl
      · rw [hp] at hn
        cases hn

theorem level_values {pairs : List (Job × Job)} (hl : ∀ p ∈ pairs, M.Level p.1 p.2) :
    (pairs.map Prod.fst).mapM Job.value? = (pairs.map Prod.snd).mapM Job.value? := by
  induction pairs with
  | nil => rfl
  | cons p pairs ih =>
    rw [List.forall_mem_cons] at hl
    have hp : p.1.value? = p.2.value? := by
      rcases hl.1 with ⟨x, h₁, h₂, -⟩ | ⟨h₁, h₂⟩ <;> rw [h₁, h₂]
    rw [List.map_cons, List.map_cons, List.mapM_cons, List.mapM_cons, hp, ih hl.2]

theorem turn_matched {k : Join} {turned coming : List (Job × Job)}
    (ht : ∀ t ∈ turned, t.1.Matched M t.2) (hl : ∀ t ∈ turned, M.Level t.1 t.2)
    (hc : ∀ c ∈ coming, c.1.Matched M c.2)
    (hk : M.strict → k.Takes (turned.length + coming.length)) :
    (k.turn (turned.map Prod.fst) (coming.map Prod.fst)).Matched M
      (k.turn (turned.map Prod.snd) (coming.map Prod.snd)) := by
  cases coming with
  | cons c coming =>
    rw [List.forall_mem_cons] at hc
    refine .moved (.joined ht hl hc.1 hc.2 fun hs => ?_)
    have := hk hs
    rwa [List.length_cons, Nat.add_comm coming.length, ← Nat.add_assoc] at this
  | nil =>
    -- the round is over, and the operands are looked at in their order
    obtain ⟨pairs, rfl⟩ : ∃ pairs, turned = pairs.reverse := ⟨turned.reverse, by simp⟩
    simp only [List.mem_reverse] at ht hl
    rw [List.length_reverse] at hk
    rw [List.map_reverse, List.map_reverse, List.map_nil, List.map_nil]
    rcases finished_or_not (pairs.map Prod.fst) with ⟨vs, hv⟩ | ⟨hn, -⟩
    · obtain ⟨hv', ha⟩ := level_finished hl hv
      have hlen : vs.length = pairs.length := by
        simpa [Job.finished] using (congrArg List.length hv).symm
      rw [hv, hv', turn_finished]
      refine .finished (allows_finish (fun hs => ?_) ha)
      rw [hlen]
      exact hk hs
    · have hn' : (pairs.map Prod.snd).mapM Job.value? = none := (level_values hl).symm.trans hn
      rw [turn_unfinished k hn, turn_unfinished k hn']
      cases pairs with
      | nil => cases hn
      | cons p pairs => exact .suspended (start_matched ht hk) rfl rfl

/-! ## What happens at once -/

theorem getElem?_related {R : Value → Value → Prop} {vs vs' : List Value}
    (h : List.Forall₂ R vs vs') (i : Nat) : Option.Rel R vs[i]? vs'[i]? := by
  induction h generalizing i with
  | nil => exact .none
  | cons hv _ ih =>
    cases i with
    | zero => exact .some hv
    | succ i => exact ih i

theorem bind_matched {n n' : Node} {args : List Value} (hn : n.Matched M args n')
    (ha : M.Supplied args) :
    List.Forall₂ (M.value (n.bind args).2) (n.bind args).1 (n'.bind args).1 ∧
      (n'.bind args).2 = (n.bind args).2 ∧ M.Supplied (n.bind args).2 := by
  have ho := hn.operands
  unfold Node.bind
  cases hl : n.operands with
  | nil =>
    rw [hl] at ho
    rw [List.forall₂_nil_left_iff.1 ho]
    exact ⟨List.forall₂_same.2 ha, rfl, supplied_nil⟩
  | cons v vs =>
    rw [hl] at ho
    obtain ⟨v', vs', -, -, he⟩ := List.forall₂_cons_left_iff.1 ho
    rw [he] at ho ⊢
    exact ⟨ho, rfl, ha⟩

section Actions

variable (L : M.Lawful g g')

include L

theorem launchAll_matched {args vs vs' : List Value} (hv : List.Forall₂ (M.value args) vs vs')
    (ha : M.Supplied args) (hw : M.world w w') :
    List.Forall₂ (Job.Matched M) (g.launchAll args vs w).1 (g'.launchAll args vs' w').1 ∧
      M.world (g.launchAll args vs w).2 (g'.launchAll args vs' w').2 := by
  induction hv generalizing w w' with
  | nil => exact ⟨.nil, hw⟩
  | cons hv _ ih =>
    obtain ⟨hj, hw₁⟩ := L.launch hv ha hw
    obtain ⟨hjs, hw₂⟩ := ih hw₁
    exact ⟨.cons hj hjs, hw₂⟩

theorem await_matched {k k' : Frame} {v v' : Value} {args : List Value} (hk : k.Matched M k')
    (hv : M.value args v v') (ha : M.Supplied args) (hw : M.world w w') :
    (g.await k v args w).1.Matched M (g'.await k' v' args w').1 ∧
      M.world (g.await k v args w).2 (g'.await k' v' args w').2 := by
  obtain ⟨hj, hw₁⟩ := L.launch hv ha hw
  exact ⟨.waiting hk hj, hw₁⟩

theorem join_matched {k : Join} {args vs vs' : List Value}
    (hv : List.Forall₂ (M.value args) vs vs') (ha : M.Supplied args) (hw : M.world w w')
    (ht : M.strict → k.Takes vs.length) :
    (g.join k vs args w).1.Matched M (g'.join k vs' args w').1 ∧
      M.world (g.join k vs args w).2 (g'.join k vs' args w').2 := by
  obtain ⟨hjs, hw₁⟩ := launchAll_matched L hv ha hw
  obtain ⟨pairs, h₁, h₂, hp⟩ := exists_pairs hjs
  have hlen : pairs.length = vs.length := by
    have := congrArg List.length h₁
    rw [launchAll_jobs rfl] at this
    simpa using this.symm
  rw [join_eq, join_eq, h₁, h₂]
  refine ⟨start_matched hp ?_, hw₁⟩
  rw [hlen]
  exact ht

theorem joinBound_matched {n n' : Node} {k : Join} {ok : Nat → Bool} {args : List Value}
    (hn : n.Matched M args n') (ha : M.Supplied args) (hw : M.world w w')
    (ht : ∀ count, ok count = true → k.Takes count) :
    (n.joinBound g k ok args w).1.Matched M (n'.joinBound g' k ok args w').1 ∧
      M.world (n.joinBound g k ok args w).2 (n'.joinBound g' k ok args w').2 := by
  obtain ⟨hv, he, ha'⟩ := bind_matched hn ha
  unfold Node.joinBound
  dsimp only
  rw [he, ← hv.length_eq, hn.site, hn.primitive]
  split
  · rename_i hok
    exact join_matched L hv ha' hw fun _ => ht _ hok
  · exact ⟨.done (allows_fail fun _ => Cause.noConfusion), hw⟩

/-- Matching nodes do matching things first. -/
theorem run_matched {n n' : Node} {content content' : Value} {args : List Value}
    (hn : n.Matched M args n') (hc : n.primitive = .variable → M.value args content content')
    (ha : M.Supplied args) (hw : M.world w w') :
    (n.run g content args w).1.Matched M (n'.run g' content' args w').1 ∧
      M.world (n.run g content args w).2 (n'.run g' content' args w').2 := by
  have hbind := bind_matched hn ha
  have hbound := @joinBound_matched M g g' w w' L n n'
  obtain ⟨p, operands, site, locality⟩ := n
  obtain ⟨p', operands', site', locality'⟩ := n'
  obtain ⟨hp, hs, ho, hh, hth, hcm⟩ := id hn
  dsimp only at hp hs ho hh hth hc
  subst hp hs
  cases p' with
  | constant =>
    obtain ⟨hv, he, ha'⟩ := hbind
    simp only [Node.run]
    rw [he]
    generalize (Node.bind ⟨.constant, operands, site', locality⟩ args).1 = vs at hv
    generalize (Node.bind ⟨.constant, operands', site', locality'⟩ args).1 = vs' at hv
    rcases hv with _ | ⟨hv, _ | ⟨_, _⟩⟩
    · exact ⟨.done (allows_constantNamed _ _), hw⟩
    · exact await_matched L .constantName hv ha' hw
    · exact ⟨.done (allows_fail fun _ => Cause.noConfusion), hw⟩
  | «variable» => exact L.launch (hc rfl) ha hw
  | store =>
    have hh := hh rfl
    simp only [Node.run]
    rcases ho with _ | @⟨t, t', _, _, ht, _ | ⟨hv, _⟩⟩
    · exact ⟨matched_panic hcm (by simp [Node.Complete]), hw⟩
    · cases hh
      cases t <;> exact ⟨matched_panic hcm (by simp [Node.Complete]), hw⟩
    · cases hh
      cases t with
      | node h => exact await_matched L .store hv ha hw
      | _ => exact ⟨matched_panic hcm (by simp [Node.Complete]), hw⟩
  | argument =>
    simp only [Node.run]
    rw [hh rfl]
    cases hi : operands.head?.bind (·.asInt?) with
    | none => exact ⟨matched_panic hcm (by simp [Node.Complete, hi]), hw⟩
    | some i =>
      dsimp only
      cases hx : args[i.toInt.toNat]? with
      | none => exact ⟨.done (allows_fail fun _ => Cause.noConfusion), hw⟩
      | some a => exact L.launch (ha a (List.mem_of_getElem? hx)) supplied_nil hw
  | compare op =>
    exact hbound hn ha hw fun count hc => Nat.le_of_eq (beq_iff_eq.1 hc).symm
  | arithmetic op =>
    exact hbound hn ha hw fun count hc => Nat.le_of_eq (beq_iff_eq.1 hc).symm
  | statistic s =>
    refine hbound hn ha hw fun count hc => ?_
    simp only [Bool.or_eq_true, beq_iff_eq] at hc
    simp only [Join.Takes]
    omega
  | forLoop =>
    simp only [Node.run]
    rcases ho with _ | ⟨h₁, _ | ⟨h₂, _ | ⟨h₃, _ | ⟨h₄, _⟩⟩⟩⟩
    iterate 4 exact ⟨matched_panic hcm (by simp [Node.Complete]), hw⟩
    exact await_matched L (.loopInit ⟨rfl, rfl, h₂, h₄, .some h₃, ha⟩) h₁ ha hw
  | whileLoop =>
    simp only [Node.run]
    rcases ho with _ | ⟨h₁, _ | ⟨h₂, _⟩⟩
    iterate 2 exact ⟨matched_panic hcm (by simp [Node.Complete]), hw⟩
    exact ⟨.round ⟨rfl, rfl, h₁, h₂, .none, ha⟩ (allows_plain rfl), hw⟩
  | choice =>
    simp only [Node.run]
    rcases ho with _ | ⟨h₁, hb⟩
    · exact ⟨matched_panic hcm (by simp [Node.Complete]), hw⟩
    · exact await_matched L (.choice ha (getElem?_related hb 0) (getElem?_related hb 1)) h₁ ha hw
  | block =>
    simp only [Node.run]
    rcases ho with _ | ⟨h₁, hb⟩
    · exact ⟨.done (allows_plain rfl), hw⟩
    · exact await_matched L (.block ha hb) h₁ ha hw
  | parallelBlock => exact join_matched L ho ha hw fun _ => trivial
  | trace =>
    have hh := hh rfl
    simp only [Node.run]
    rcases ho with _ | ⟨_, _ | ⟨hv, _⟩⟩
    iterate 2 exact ⟨matched_panic hcm (by simp [Node.Complete]), hw⟩
    cases hh
    exact L.launch hv ha (L.write hw)
  | echo =>
    have hh := hh rfl
    have he : (Node.bind ⟨.echo, operands', site', locality'⟩ args).1.head? =
        (Node.bind ⟨.echo, operands, site', locality⟩ args).1.head? := by
      unfold Node.bind
      cases ho with
      | nil => rfl
      | cons _ _ => exact hh
    simp only [Node.run]
    rw [he]
    refine ⟨.done fun hs => ?_, hw⟩
    obtain ⟨v, rest, hv, hpl⟩ := hcm hs
    dsimp only at hv
    subst hv
    exact allows_plain (M := M) hpl hs
  | explode => exact ⟨matched_panic hcm (by simp [Node.Complete]), hw⟩
  | threadName =>
    simp only [Node.run]
    rw [hth rfl]
    exact ⟨.done (allows_plain rfl), hw⟩

/-- Matching frames do matching things with a value. -/
theorem resume_matched {k k' : Frame} {v : Value} (hk : k.Matched M k') (hv : M.Allows (.ok v))
    (hw : M.world w w') :
    (k.resume g v w).1.Matched M (k'.resume g' v w').1 ∧
      M.world (k.resume g v w).2 (k'.resume g' v w').2 := by
  cases hk with
  | constantName =>
    cases v with
    | str name => exact ⟨.done (allows_constantNamed _ _), hw⟩
    | _ => exact ⟨.done (allows_fail fun _ => Cause.noConfusion), hw⟩
  | store => exact ⟨.done (allows_plain rfl), L.setSlot hv hw⟩
  | @choice site args yes no yes' no' ha hy hn =>
    cases ht : v.truthy? with
    | none =>
      simp only [Frame.resume, ht]
      exact ⟨.done (allows_notCondition hv ht), hw⟩
    | some b =>
      have hb : Option.Rel (M.value args) (if b then yes else no) (if b then yes' else no') := by
        cases b
        · exact hn
        · exact hy
      simp only [Frame.resume, ht]
      generalize (if b then yes else no) = branch at hb
      generalize (if b then yes' else no') = branch' at hb
      cases hb with
      | none => exact ⟨.done (allows_plain rfl), hw⟩
      | some hb => exact L.launch hb ha hw
  | block ha hr =>
    cases hr with
    | nil => exact ⟨.done hv, hw⟩
    | cons hnext hr => exact await_matched L (.block ha hr) hnext ha hw
  | loopInit hl => exact ⟨.round hl (allows_plain rfl), hw⟩
  | @loopCondition l l' last hl hlast =>
    cases ht : v.truthy? with
    | none =>
      simp only [Frame.resume, ht, hl.site]
      exact ⟨.done (allows_notCondition hv ht), hw⟩
    | some b =>
      simp only [Frame.resume, ht]
      cases b with
      | false => exact ⟨.done hlast, hw⟩
      | true =>
        dsimp only
        rw [hl.args]
        exact await_matched L (.loopBody hl) hl.body hl.supplied hw
  | @loopBody l l' hl =>
    have hstep := hl.step
    simp only [Frame.resume]
    rw [hl.args]
    generalize l.step = step at hstep
    generalize l'.step = step' at hstep
    cases hstep with
    | none => exact ⟨.rest hl hv, hw⟩
    | some hstep => exact await_matched L (.loopStep hl hv) hstep hl.supplied hw
  | loopStep hl hlast => exact ⟨.rest hl hlast, hw⟩

/-! ## Steps and runs -/

theorem frame_after_matched {k k' : Frame} {p p' : Progress} (hk : k.Matched M k')
    (hp : p.Matched M p') (hw : M.world w w') :
    (k.after g p w).1.Matched M (k'.after g' p' w').1 ∧
      M.world (k.after g p w).2 (k'.after g' p' w').2 := by
  cases hp with
  | @finished r hr =>
    cases r with
    | error h => exact ⟨.finished hr, hw⟩
    | ok v =>
      obtain ⟨hj, hw₁⟩ := resume_matched L hk hr hw
      exact ⟨.moved hj, hw₁⟩
  | moved hj => exact ⟨.moved (.waiting hk hj), hw⟩
  | suspended hj _ _ => exact ⟨.suspended (.waiting hk hj) rfl rfl, hw⟩

omit L in
theorem join_after_matched {k : Join} {turned coming : List (Job × Job)} {p p' : Progress}
    (ht : ∀ t ∈ turned, t.1.Matched M t.2) (hl : ∀ t ∈ turned, M.Level t.1 t.2)
    (hc : ∀ c ∈ coming, c.1.Matched M c.2)
    (hk : M.strict → k.Takes (turned.length + 1 + coming.length)) (hp : p.Matched M p') :
    (k.after (turned.map Prod.fst) (coming.map Prod.fst) p).Matched M
      (k.after (turned.map Prod.snd) (coming.map Prod.snd) p') := by
  -- the one whose turn it was becomes the latest of those that had theirs
  have hturn : ∀ j j' : Job, j.Matched M j' → M.Level j j' →
      (k.turn (j :: turned.map Prod.fst) (coming.map Prod.fst)).Matched M
        (k.turn (j' :: turned.map Prod.snd) (coming.map Prod.snd)) := fun j j' hj hlevel =>
    @turn_matched M k ((j, j') :: turned) coming (List.forall_mem_cons.2 ⟨hj, ht⟩)
      (List.forall_mem_cons.2 ⟨hlevel, hl⟩) hc hk
  cases hp with
  | @finished r hr =>
    cases r with
    | error h => exact .finished hr
    | ok v => exact hturn _ _ (.done hr) (.inl ⟨v, rfl, rfl, hr⟩)
  | moved hj => exact .moved (.joined ht hl hj hc hk)
  | suspended hj hn hn' => exact hturn _ _ hj (.inr ⟨hn, hn'⟩)

omit L in
theorem reported_matched {id : LocalityId} {site : Site} {p p' : Progress} (hp : p.Matched M p') :
    (p.reported id site).Matched M (p'.reported id site) := by
  cases hp with
  | @finished r hr =>
    refine .finished fun hs => ⟨sane_reported (hr hs).1, ?_⟩
    unfold Outcome.reported
    split
    · exact nofun
    · exact (hr hs).2
  | moved hj => exact .moved (.placed hj)
  | suspended hj _ _ => exact .suspended (.placed hj) rfl rfl

omit L in
/-- Where nothing panics, what a pool reports is what happened. -/
theorem reported_carried {id : LocalityId} {site : Site} {p p' : Progress} (hc : M.carries)
    (hs : M.strict) (hp : p.Matched M p') : (p.reported id site).Matched M p' := by
  cases hp with
  | @finished r hr =>
    have he : r.reported id site = r := by
      unfold Outcome.reported
      split
      · exact absurd rfl (hr hs).2
      · rfl
    simp only [Progress.reported, he]
    exact .finished hr
  | moved hj => exact .moved (.carried hc hs hj)
  | suspended hj _ hn => exact .suspended (.carried hc hs hj) rfl hn

/-- Jobs that wait for no others match for a reason of their own, or take matching steps. -/
theorem single_step_matched {j j' : Job} (hj : j.Matched M j') (hs : j.Single)
    (hw : M.world w w') : M.leaf j j' ∨ (j.step g w).1.Matched M (j'.step g' w').1 ∧
      M.world (j.step g w).2 (j'.step g' w').2 := by
  cases hj with
  | leaf h => exact .inl h
  | done hr => exact .inr ⟨.finished hr, hw⟩
  | start hn hc ha =>
    obtain ⟨hj, hw₁⟩ := run_matched L hn hc ha hw
    exact .inr ⟨.moved hj, hw₁⟩
  | @round l l' last hl hlast =>
    have hk : (Frame.loopCondition l last).Matched M (.loopCondition l' last) :=
      .loopCondition hl hlast
    obtain ⟨hj, hw₁⟩ := await_matched L hk hl.condition hl.supplied hw
    simp only [Job.step, hl.args]
    exact .inr ⟨.moved hj, hw₁⟩
  | rest hl hlast => exact .inr ⟨.suspended (.round hl hlast) rfl rfl, hw⟩
  | waiting | joined | placed | carried => exact hs.elim

/-- A step of a job is some steps of the job that it matches. -/
theorem step_matched {j j' : Job} (hj : j.Matched M j') (hw : M.world w w') :
    ∃ p w₁, j.ComesTo g w p w₁ ∧ p.Matched M (j'.step g' w').1 ∧
      M.world w₁ (j'.step g' w').2 := by
  have hsingle : ∀ {j j' : Job}, j.Matched M j' → j.Single → ∃ p w₁, j.ComesTo g w p w₁ ∧
      p.Matched M (j'.step g' w').1 ∧ M.world w₁ (j'.step g' w').2 := by
    intro j j' hj hs
    rcases single_step_matched L hj hs hw with hl | ⟨hp, hw₁⟩
    · exact L.leaf hl hw
    · exact ⟨_, _, .now rfl, hp, hw₁⟩
  induction hj with
  | leaf h => exact L.leaf h hw
  | done hr => exact hsingle (.done hr) trivial
  | start hn hc ha => exact hsingle (.start hn hc ha) trivial
  | round hl hlast => exact hsingle (.round hl hlast) trivial
  | rest hl hlast => exact hsingle (.rest hl hlast) trivial
  | @waiting k k' j j' hk _ ih =>
    obtain ⟨p, w₁, hc, hp, hw₁⟩ := ih
    obtain ⟨hp', hw'⟩ := frame_after_matched L hk hp hw₁
    refine ⟨_, _, comesTo_waiting hc, ?_, ?_⟩ <;> rw [step_waiting]
    · exact hp'
    · exact hw'
  | joined ht hl _ hcom hk _ ih _ =>
    obtain ⟨p, w₁, hc, hp, hw₁⟩ := ih
    refine ⟨_, _, comesTo_joined hc, ?_, ?_⟩ <;> rw [step_joined]
    · exact join_after_matched ht hl hcom hk hp
    · exact hw₁
  | placed _ ih =>
    obtain ⟨p, w₁, hc, hp, hw₁⟩ := ih
    refine ⟨_, _, comesTo_placed hc, ?_, ?_⟩ <;> rw [step_placed]
    · exact reported_matched hp
    · exact hw₁
  | carried hcarries hs _ ih =>
    obtain ⟨p, w₁, hc, hp, hw₁⟩ := ih
    exact ⟨_, _, comesTo_placed hc, reported_carried hcarries hs hp, hw₁⟩

/-- The end of the second job is allowed, and the first job comes to it as well. -/
theorem runs_stands {j j' : Job} {r : Outcome} {z' : World} (hj : j.Matched M j')
    (hw : M.world w w') (h : j'.Runs g' w' r z') :
    M.Allows r ∧ ∃ z, j.Runs g w r z ∧ M.world z z' := by
  refine h.rec_step (P := fun j' w' => ∀ j w, j.Matched M j' → M.world w w' →
    M.Allows r ∧ ∃ z, j.Runs g w r z ∧ M.world z z') ?_ ?_ ?_ j w hj hw
  · intro j' w' hs j w hj hw
    obtain ⟨p, w₁, hc, hp, hw₁⟩ := step_matched L hj hw
    rw [hs] at hp hw₁
    obtain ⟨hr⟩ := hp
    exact ⟨hr, w₁, (Job.runs_comesTo hc).2 ⟨rfl, rfl⟩, hw₁⟩
  · intro j' w' j₁' w₁' hs ih j w hj hw
    obtain ⟨p, w₁, hc, hp, hw₁⟩ := step_matched L hj hw
    rw [hs] at hp hw₁
    obtain - | ⟨hj₁⟩ := hp
    obtain ⟨hr, z, hz, hzz⟩ := ih _ w₁ hj₁ hw₁
    exact ⟨hr, z, (Job.runs_comesTo hc).2 hz, hzz⟩
  · intro j' w' j₁' w₁' hs ih j w hj hw
    obtain ⟨p, w₁, hc, hp, hw₁⟩ := step_matched L hj hw
    rw [hs] at hp hw₁
    obtain - | - | ⟨hj₁, -, -⟩ := hp
    obtain ⟨hr, z, hz, hzz⟩ := ih _ w₁ hj₁ hw₁
    exact ⟨hr, z, (Job.runs_comesTo hc).2 hz, hzz⟩

/-- The second of two matching jobs sets the pace. -/
theorem matched_keepsUp :
    KeepsUp g' g (fun w' w => M.world w w') (fun j' j => j.Matched M j') := by
  intro j' j w' w hj hw
  obtain ⟨p, w₁, hc, hp, hw₁⟩ := step_matched L hj hw
  refine ⟨p, w₁, hc, ?_, hw₁⟩
  generalize (j'.step g' w').1 = p' at hp
  cases hp with
  | finished hr => exact .finished (.done hr)
  | moved hj => exact .moved hj
  | suspended hj hv hv' => exact .suspended hj hv' hv

/-- Matching jobs run to the same ends, and leave matching states. -/
theorem runs_matched {j j' : Job} {r : Outcome} (hj : j.Matched M j') (hw : M.world w w') :
    (∀ z', j'.Runs g' w' r z' → ∃ z, j.Runs g w r z ∧ M.world z z') ∧
      ∀ z, j.Runs g w r z → ∃ z', j'.Runs g' w' r z' ∧ M.world z z' :=
  (matched_keepsUp L).runs hj hw

theorem evaluates_matched {v v' : Value} {args : List Value} {r : Outcome}
    (hv : M.value args v v') (ha : M.Supplied args) (hw : M.world w w') :
    (∀ z', g'.Evaluates v' args w' r z' → ∃ z, g.Evaluates v args w r z ∧ M.world z z') ∧
      ∀ z, g.Evaluates v args w r z → ∃ z', g'.Evaluates v' args w' r z' ∧ M.world z z' := by
  obtain ⟨hj, hw₁⟩ := L.launch hv ha hw
  exact runs_matched L hj hw₁

theorem evaluates_allowed {v v' : Value} {args : List Value} {r : Outcome} {z : World}
    (hv : M.value args v v') (ha : M.Supplied args) (hw : M.world w w')
    (h : g.Evaluates v args w r z) : M.Allows r := by
  obtain ⟨hj, hw₁⟩ := L.launch hv ha hw
  obtain ⟨z', hz', -⟩ := (runs_matched L hj hw₁).2 _ h
  exact (runs_stands L hj hw₁ hz').1

end Actions

theorem dispatch_matched {l : Locality} {site : Site} {j j' : Job} (hj : j.Matched M j') :
    (l.dispatch site j w).1.Matched M (l.dispatch site j' w').1 := by
  unfold Locality.dispatch
  split
  · exact hj
  · exact hj
  · split
    · exact .placed hj
    · exact .done (allows_fail fun _ => Cause.noConfusion)

/-! ## Graphs with the same operands -/

/-- A graph matches another whose nodes have the same operands, if their jobs match. -/
def Graph.nodewise (g : Graph) (leaf : Job → Job → Prop) : Matching where
  value _ v v' := v' = v ∧ v.Below g.nodes.size
  world w w' := w'.slots = w.slots ∧ g.Holds w
  leaf := leaf
  strict := True
  carries := True

section Nodewise

variable {leaf : Job → Job → Prop}

theorem nodewise_value {v : Value} {args : List Value} (h : v.Below g.nodes.size) :
    (g.nodewise leaf).value args v v := ⟨rfl, h⟩

theorem nodewise_operands {vs args : List Value} (h : ∀ v ∈ vs, v.Below g.nodes.size) :
    List.Forall₂ ((g.nodewise leaf).value args) vs vs :=
  List.forall₂_same.2 fun v hv => nodewise_value (h v hv)

theorem nodewise_lawful {f : Node → Node}
    (hstart : ∀ n ∈ g.nodes, ∀ content args w w',
      (n.primitive = .variable → content.Below g.nodes.size) → (g.nodewise leaf).Supplied args →
      (n.locality.dispatch n.site (.start n content args) w).1.Matched (g.nodewise leaf)
        ((f n).locality.dispatch (f n).site (.start (f n) content args) w').1)
    (hleaf : ∀ {j j' w w'}, leaf j j' → (g.nodewise leaf).world w w' → ∃ p w₁,
      j.ComesTo g w p w₁ ∧ p.Matched (g.nodewise leaf) (j'.step ⟨g.nodes.map f⟩ w').1 ∧
        (g.nodewise leaf).world w₁ (j'.step ⟨g.nodes.map f⟩ w').2) :
    (g.nodewise leaf).Lawful g ⟨g.nodes.map f⟩ where
  launch {v v' args w w'} hv ha hw := by
    obtain ⟨rfl, hv⟩ := hv
    refine ⟨?_, ?_⟩
    · cases v' with
      | node h =>
        have hlt : h.index < g.nodes.size := hv h rfl
        have hn : g.node? h = some g.nodes[h.index] := Array.getElem?_eq_getElem hlt
        have hn' : Graph.node? ⟨g.nodes.map f⟩ h = some (f g.nodes[h.index]) := by
          rw [Graph.node?, Array.getElem?_map]
          exact congrArg (Option.map f) hn
        have hslot : w'.slot h.index = w.slot h.index := by simp only [World.slot, hw.1]
        simp only [Graph.launch, hn, hn', hslot]
        exact hstart _ (Array.getElem_mem hlt) _ _ _ _ (hw.2 _ _ hn) ha
      | _ => exact .done (allows_plain rfl)
    · refine ⟨?_, ?_⟩
      · rw [launch_slots, launch_slots]
        exact hw.1
      · intro i n hn hp
        simp only [World.slot, launch_slots]
        exact hw.2 i n hn hp
  setSlot hv hw := ⟨by simp only [World.setSlot, hw.1], hw.2.setSlot (hv trivial).1⟩
  write hw := hw
  leaf := hleaf

/-- A graph whose nodes pass their checks matches itself. -/
theorem self_lawful (hb : g.Builtin) (hk : ∀ n ∈ g.nodes, g.check n.primitive n.operands = .ok ())
    (ho : ∀ n ∈ g.nodes, ∀ v ∈ n.operands, v.Below g.nodes.size) :
    (g.nodewise fun _ _ => False).Lawful g g := by
  have hlawful : (g.nodewise fun _ _ => False).Lawful g ⟨g.nodes.map id⟩ := by
    refine nodewise_lawful (fun n hn content args w w' hc ha => ?_) False.elim
    refine dispatch_matched (.start ?_ (fun hp => ⟨rfl, hc hp⟩) ha)
    exact ⟨rfl, rfl, nodewise_operands (ho n hn), fun _ => rfl, fun _ => rfl,
      fun _ => complete_of_check (hb n hn) (hk n hn)⟩
  simpa using hlawful

end Nodewise

end ArrayGraph
