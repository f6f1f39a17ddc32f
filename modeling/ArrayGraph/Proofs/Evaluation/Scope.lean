import ArrayGraph.Proofs.Evaluation.First
import ArrayGraph.Proofs.Evaluation.Run
/-!
# What an evaluation may touch

A `Scope` says which nodes an evaluation may run, which slots it may write and whether
it may loop or evaluate its arguments. A job is within a scope if all it still has to do
is. The main statement is `step_within`: a step keeps a job within its scope, it changes
no slot but those that the scope allows, and what it puts there is no handle. On the way
every outcome is sane: no value is a handle, and no condition was one.
-/

namespace ArrayGraph

/-! ## Values and outcomes -/

/-- The value is no handle. -/
def Value.Plain (v : Value) : Prop := v.asHandle? = none

/-- A value is not a handle, and the error is not that a condition was one. -/
def Outcome.Sane : Outcome → Prop
  | .ok v => v.Plain
  | .error (.error (.raised _ (.notCondition _))) => False
  | .error _ => True

@[simp] theorem sane_ok {v : Value} : Outcome.Sane (.ok v) ↔ v.Plain := Iff.rfl

theorem sane_fail {site : Site} {c : Cause} (h : ∀ k, c ≠ .notCondition k) :
    (Outcome.fail site c).Sane := by
  cases c with
  | notCondition k => exact absurd rfl (h k)
  | _ => trivial

theorem truthy_of_plain {v : Value} (h : v.Plain) : ∃ b, v.truthy? = some b := by
  cases v with
  | node h' => cases h
  | _ => exact ⟨_, rfl⟩

/-! ## Kernels -/

theorem ofKernel_ne_panic (site : Site) (r : Except Cause Value) :
    Outcome.ofKernel site r ≠ .error .panic := by
  cases r <;> exact nofun

theorem plain_ofBools (t : Tensor Bool) : (Value.ofBools t).Plain := by
  unfold Value.ofBools
  split <;> rfl

theorem plain_ofFloats (t : Tensor Float) : (Value.ofFloats t).Plain := by
  unfold Value.ofFloats
  split <;> rfl

/-- A kernel that makes a value of its result and words its failure. -/
theorem sane_kernel {site : Site} {α ε : Type} {r : Except ε α} {f : α → Value} {word : ε → Cause}
    (hf : ∀ a, (f a).Plain) (hw : ∀ e k, word e ≠ .notCondition k) :
    (Outcome.ofKernel site ((r.map f).mapError word)).Sane := by
  cases r with
  | ok a => exact hf a
  | error e => exact sane_fail (hw e)

theorem sane_compare (op : CompareOp) (site : Site) (a b : Value) :
    (Outcome.ofKernel site (a.compare op b)).Sane := by
  unfold Value.compare
  split
  · rfl
  · rfl
  · split
    · exact sane_kernel plain_ofBools fun _ _ => Cause.noConfusion
    · split
      · exact sane_kernel plain_ofBools fun _ _ => Cause.noConfusion
      · trivial

theorem sane_combineFloats (op : ArithmeticOp) (site : Site) (a b : Value) :
    (Outcome.ofKernel site (Value.combineFloats op a b)).Sane := by
  unfold Value.combineFloats
  split
  · exact sane_kernel plain_ofFloats fun _ _ => Cause.noConfusion
  · trivial

theorem sane_combine (op : ArithmeticOp) (site : Site) (a b : Value) :
    (Outcome.ofKernel site (a.combine op b)).Sane := by
  unfold Value.combine
  split
  · split
    · rfl
    · exact sane_combineFloats op site _ _
  · exact sane_combineFloats op site _ _

theorem sane_reduce (s : Statistic) (site : Site) (v : Value) (axis : Option Int64) :
    (Outcome.ofKernel site (v.reduce s axis)).Sane := by
  unfold Value.reduce
  split
  · trivial
  · split
    · exact sane_kernel (fun _ => rfl) fun _ _ => Cause.noConfusion
    · split
      · trivial
      · exact sane_kernel plain_ofFloats fun _ _ => Cause.noConfusion

theorem sane_constantNamed (site : Site) (name : String) : (constantNamed site name).Sane := by
  unfold constantNamed
  split <;> trivial

theorem sane_finish (k : Join) {values : List Value} (h : ∀ v ∈ values, v.Plain) :
    (k.finish values).Sane := by
  cases k with
  | compare op site =>
    rcases values with _ | ⟨a, _ | ⟨b, rest⟩⟩
    · trivial
    · trivial
    · exact sane_compare op site a b
  | arithmetic op site =>
    rcases values with _ | ⟨a, _ | ⟨b, rest⟩⟩
    · trivial
    · trivial
    · exact sane_combine op site a b
  | statistic s site =>
    rcases values with _ | ⟨v, _ | ⟨x, rest⟩⟩
    · trivial
    · exact sane_reduce s site v none
    · simp only [Join.finish, axisOperand]
      cases x.asInt? with
      | some axis => exact sane_reduce s site v axis
      | none => trivial
  | last =>
    simp only [Join.finish, sane_ok]
    cases hl : values.getLast? with
    | none => rfl
    | some v => exact h v (List.mem_of_getLast? hl)
  | all => rfl

/-! ## Scopes -/

/-- Whether a node of the primitive is a loop. -/
def Primitive.isLoop : Primitive → Bool
  | .forLoop | .whileLoop => true
  | _ => false

/-- What an evaluation may touch. -/
structure Scope where
  /-- The nodes that it may run. -/
  node : Nat → Prop
  /-- The slots that it may write. -/
  slot : Nat → Prop
  /-- Whether it may loop. -/
  loops : Prop
  /-- Whether it may evaluate the arguments of the call. -/
  takes : Prop

/-- The scope that allows everything. -/
def Scope.all : Scope := ⟨fun _ => True, fun _ => True, True, True⟩

variable {g : Graph} {S : Scope}

/-- Evaluating the value starts in the scope. -/
def Value.Within (S : Scope) (v : Value) : Prop := ∀ h, v = .node h → S.node h.index

def WithinAll (S : Scope) (vs : List Value) : Prop := ∀ v ∈ vs, v.Within S

/-- The arguments may be evaluated, if the scope lets arguments be evaluated at all. -/
def Scope.Given (S : Scope) (args : List Value) : Prop := S.takes → WithinAll S args

/-- The node may evaluate the arguments of the call. -/
def Node.TakesArgs (n : Node) : Prop :=
  n.primitive = .argument ∨ (n.operands = [] ∧ n.primitive.isBuiltin = true)

instance (n : Node) : Decidable n.TakesArgs := inferInstanceAs (Decidable (_ ∨ _))

/-- A built-in node, or one that reads no operand but to give it back when it is no
handle. -/
def Node.Tame (n : Node) : Prop :=
  match n.primitive with
  | .trace => False
  | .echo => ∃ v rest, n.operands = v :: rest ∧ v.Plain
  | _ => True

theorem tame_of_builtin {n : Node} (h : n.primitive.isBuiltin = true) : n.Tame := by
  unfold Node.Tame
  split
  · rename_i hp
    rw [hp] at h
    cases h
  · rename_i hp
    rw [hp] at h
    cases h
  · trivial

/-- A tame node whose operands, store, loop and arguments the scope allows. -/
structure Node.Within (S : Scope) (n : Node) : Prop where
  tame : n.Tame
  operands : WithinAll S n.operands
  target : ∀ h rest, n.primitive = .store → n.operands = .node h :: rest → S.slot h.index
  loops : n.primitive.isLoop = true → S.loops
  takes : n.TakesArgs → S.takes

/-- Each node of the scope is within it, and so is what each of its variables holds. -/
def Scope.Closed (g : Graph) (S : Scope) (w : World) : Prop :=
  ∀ i n, S.node i → g.nodes[i]? = some n →
    n.Within S ∧ (n.primitive = .variable → (w.slot i).Within S)

structure Loop.Within (S : Scope) (l : Loop) : Prop where
  loops : S.loops
  args : S.Given l.args
  condition : l.condition.Within S
  body : l.body.Within S
  step : ∀ v, l.step = some v → v.Within S

/-- Whatever value the frame waits for, it goes on within the scope. -/
def Frame.Within (S : Scope) : Frame → Prop
  | .constantName _ => True
  | .store target => S.slot target
  | .choice _ args yes no =>
    S.Given args ∧ (∀ v, yes = some v → v.Within S) ∧ ∀ v, no = some v → v.Within S
  | .block args rest => S.Given args ∧ WithinAll S rest
  | .loopInit l | .loopBody l => l.Within S
  | .loopCondition l last | .loopStep l last => l.Within S ∧ last.Plain

/-- All that is left of the job is within the scope. Of the operands of a join that
have had their turn, only a loop has anything left. -/
inductive Job.Within (S : Scope) : Job → Prop
  | done {r} : r.Sane → Within S (.done r)
  | start {n content args} : n.Within S → (n.primitive = .variable → content.Within S) →
      S.Given args → Within S (.start n content args)
  | round {l last} : l.Within S → last.Plain → Within S (.round l last)
  | rest {l last} : l.Within S → last.Plain → Within S (.rest l last)
  | waiting {k j} : k.Within S → Within S j → Within S (.waiting k j)
  | joined {k turned j coming} : (∀ t ∈ turned, Within S t) →
      (∀ t ∈ turned, t.value? = none → S.loops) → Within S j → (∀ c ∈ coming, Within S c) →
      Within S (.joined k turned j coming)
  | placed {id site j} : Within S j → Within S (.placed id site j)

def Progress.Within (S : Scope) : Progress → Prop
  | .finished r => r.Sane
  | .moved j => j.Within S
  | .suspended j => S.loops ∧ j.Within S

theorem within_of_plain {v : Value} (h : v.Plain) : v.Within S := by
  rintro h' rfl
  cases h

@[simp] theorem within_node {h : Handle} : (Value.node h).Within S ↔ S.node h.index :=
  ⟨fun hw => hw h rfl, fun hs _ he => by cases he; exact hs⟩

theorem withinAll_cons {v : Value} {vs : List Value} :
    WithinAll S (v :: vs) ↔ v.Within S ∧ WithinAll S vs := List.forall_mem_cons

theorem withinAll_nil : WithinAll S [] := List.forall_mem_nil _

theorem within_all (v : Value) : v.Within .all := fun _ _ => trivial

theorem withinAll_all (vs : List Value) : WithinAll .all vs := fun _ _ _ _ => trivial

theorem WithinAll.given {args : List Value} (h : WithinAll S args) : S.Given args := fun _ => h

theorem given_all (args : List Value) : Scope.all.Given args := (withinAll_all args).given

/-! ## Worlds -/

namespace World

theorem slots_ext {u w : World} (hs : u.slots.size = w.slots.size) (h : ∀ i, u.slot i = w.slot i) :
    u.slots = w.slots := by
  apply Array.ext hs
  intro i hu hw
  have hi := h i
  simpa [slot, hu, hw] using hi

/-- Only slots of the scope differ, and those that do hold no handle. -/
structure Kept (S : Scope) (w w' : World) : Prop where
  size : w'.slots.size = w.slots.size
  slot : ∀ i, w'.slot i = w.slot i ∨ (S.slot i ∧ (w'.slot i).Plain)

theorem Kept.of_slots {w w' : World} (h : w'.slots = w.slots) : w.Kept S w' :=
  ⟨by rw [h], fun i => .inl (by simp only [World.slot, h])⟩

theorem Kept.refl (w : World) : w.Kept S w := .of_slots rfl

theorem Kept.trans {w w' w'' : World} (h : w.Kept S w') (h' : w'.Kept S w'') : w.Kept S w'' := by
  refine ⟨h'.size.trans h.size, fun i => ?_⟩
  rcases h'.slot i with e | hs
  · rw [e]; exact h.slot i
  · exact .inr hs

theorem Kept.slots_eq {w w' : World} (h : w.Kept S w') (hs : ∀ i, ¬ S.slot i) :
    w'.slots = w.slots := by
  refine slots_ext h.size fun i => ?_
  exact (h.slot i).resolve_right fun hi => hs i hi.1

theorem slot_setSlot (w : World) (i k : Nat) (v : Value) :
    (w.setSlot i v).slot k = w.slot k ∨ (i = k ∧ (w.setSlot i v).slot k = v) := by
  by_cases hk : i = k
  · subst hk
    by_cases hi : i < w.slots.size
    · exact .inr ⟨rfl, slot_setSlot_self w i v hi⟩
    · exact .inl (by simp [slot, setSlot, hi])
  · exact .inl (slot_setSlot_of_ne w v hk)

theorem kept_setSlot (w : World) {i : Nat} {v : Value} (hi : S.slot i) (hv : v.Plain) :
    w.Kept S (w.setSlot i v) := by
  refine ⟨by simp [setSlot], fun k => (w.slot_setSlot i k v).imp_right ?_⟩
  rintro ⟨rfl, he⟩
  exact ⟨hi, by rwa [he]⟩

end World

theorem Scope.Closed.kept {w w' : World} (hc : S.Closed g w) (h : w.Kept S w') : S.Closed g w' := by
  intro i n hi hn
  refine ⟨(hc i n hi hn).1, fun hv => ?_⟩
  rcases h.slot i with e | ⟨-, hp⟩
  · rw [e]; exact (hc i n hi hn).2 hv
  · exact within_of_plain hp

/-! ## Launching -/

theorem dispatch_slots (l : Locality) (site : Site) (j : Job) (w : World) :
    (l.dispatch site j w).2.slots = w.slots := by
  unfold Locality.dispatch
  split
  · rfl
  · rfl
  · split <;> rfl

theorem launch_slots (g : Graph) (v : Value) (args : List Value) (w : World) :
    (g.launch v args w).2.slots = w.slots := by
  unfold Graph.launch
  split
  · split
    · exact dispatch_slots ..
    · rfl
  · rfl

theorem launchAll_slots (g : Graph) (args vs : List Value) (w : World) :
    (g.launchAll args vs w).2.slots = w.slots := by
  induction vs generalizing w with
  | nil => rfl
  | cons v vs ih => exact (ih _).trans (launch_slots ..)

theorem dispatch_within {l : Locality} {site : Site} {j : Job} {w : World} (h : j.Within S) :
    (l.dispatch site j w).1.Within S := by
  unfold Locality.dispatch
  split
  · exact h
  · exact h
  · split
    · exact .placed h
    · exact .done (sane_fail fun _ => Cause.noConfusion)

theorem launch_within {v : Value} {args : List Value} {w : World} (hc : S.Closed g w)
    (hv : v.Within S) (ha : S.Given args) : (g.launch v args w).1.Within S := by
  cases v with
  | node h =>
    simp only [Graph.launch]
    split
    · rename_i n hn
      obtain ⟨hw, hs⟩ := hc h.index n (within_node.1 hv) hn
      exact dispatch_within (.start hw hs ha)
    · exact .done trivial
  | _ => exact .done rfl

theorem launchAll_within {args vs : List Value} {w : World} (hc : S.Closed g w)
    (hv : WithinAll S vs) (ha : S.Given args) : ∀ j ∈ (g.launchAll args vs w).1, j.Within S := by
  induction vs generalizing w with
  | nil => simp [Graph.launchAll]
  | cons v vs ih =>
    rw [withinAll_cons] at hv
    have hc' : S.Closed g (g.launch v args w).2 := hc.kept (.of_slots (launch_slots ..))
    intro j hj
    rcases List.mem_cons.1 hj with rfl | hj
    · exact launch_within hc hv.1 ha
    · exact ih hc' hv.2 j hj

theorem await_within {k : Frame} {v : Value} {args : List Value} {w : World} (hc : S.Closed g w)
    (hk : k.Within S) (hv : v.Within S) (ha : S.Given args) :
    (g.await k v args w).1.Within S :=
  .waiting hk (launch_within hc hv ha)

theorem join_slots (g : Graph) (k : Join) (vs args : List Value) (w : World) :
    (g.join k vs args w).2.slots = w.slots := by
  rw [join_eq]
  exact launchAll_slots ..

/-- What a node does first changes no slot. -/
theorem run_slots (n : Node) (g : Graph) (content : Value) (args : List Value) (w : World) :
    (n.run g content args w).2.slots = w.slots := by
  have hfirst := run_first n g content args
  generalize n.run g content args = first at hfirst ⊢
  cases hfirst with
  | named | missing | refused | whileLoop | empty | echo | threadName | panic => rfl
  | name | slot | store | argument | forLoop | choice | block | trace => exact launch_slots ..
  | join => exact join_slots ..

theorem start_within {k : Join} {jobs : List Job} (h : ∀ j ∈ jobs, j.Within S) :
    (k.start jobs).Within S := by
  cases jobs with
  | nil => exact .done (sane_finish k nofun)
  | cons j js =>
    rw [List.forall_mem_cons] at h
    exact .joined nofun nofun h.1 h.2

theorem join_within {k : Join} {vs args : List Value} {w : World} (hc : S.Closed g w)
    (hv : WithinAll S vs) (ha : S.Given args) : (g.join k vs args w).1.Within S := by
  rw [join_eq]
  exact start_within (launchAll_within hc hv ha)

/-! ## Actions -/

/-- The job does not wait for other jobs. -/
def Job.Single : Job → Prop
  | .waiting .. | .joined .. | .placed .. => False
  | _ => True

/-- What a node does when its job begins to run, or a frame when its value is there:
all that can happen at once, within the scope. -/
inductive Action (g : Graph) (S : Scope) : (World → Job × World) → Prop
  | job {j} : j.Within S → j.Single → Action g S fun w => (j, w)
  | launch {v args} : v.Within S → S.Given args → Action g S (g.launch v args)
  | await {k v args} : k.Within S → v.Within S → S.Given args → Action g S (g.await k v args)
  | join {k vs args} : WithinAll S vs → S.Given args → Action g S (g.join k vs args)
  | write {i v} : S.slot i → v.Plain → Action g S fun w => (.done (.ok .empty), w.setSlot i v)

theorem Action.within {f : World → Job × World} {w : World} (h : Action g S f)
    (hc : S.Closed g w) : (f w).1.Within S ∧ w.Kept S (f w).2 := by
  cases h with
  | job hj _ => exact ⟨hj, .refl w⟩
  | launch hv ha => exact ⟨launch_within hc hv ha, .of_slots (launch_slots ..)⟩
  | await hk hv ha => exact ⟨await_within hc hk hv ha, .of_slots (launch_slots ..)⟩
  | join hv ha => exact ⟨join_within hc hv ha, .of_slots (join_slots ..)⟩
  | write hi hv => exact ⟨.done rfl, w.kept_setSlot hi hv⟩

theorem Action.fail {site : Site} {c : Cause} (h : ∀ k, c ≠ .notCondition k) :
    Action g S fun w => (.done (.fail site c), w) :=
  .job (.done (sane_fail h)) trivial

theorem Action.panic : Action g S fun w => (.done (.error .panic), w) :=
  .job (.done trivial) trivial

theorem bind_within {n : Node} {args : List Value} (ho : WithinAll S n.operands)
    (ha : S.Given args) (hr : n.operands = [] → S.takes) :
    WithinAll S (n.bind args).1 ∧ S.Given (n.bind args).2 := by
  unfold Node.bind
  cases hl : n.operands with
  | nil => exact ⟨ha (hr hl), withinAll_nil.given⟩
  | cons v vs =>
    rw [hl] at ho
    exact ⟨ho, ha⟩

/-- What a node does first is an action. -/
theorem run_action {n : Node} {content : Value} {args : List Value} (hn : n.Within S)
    (hc : n.primitive = .variable → content.Within S) (ha : S.Given args) :
    Action g S (n.run g content args) := by
  obtain ⟨htame, ho, ht, hl, htakes⟩ := hn
  have hbind : n.primitive.isBuiltin = true →
      WithinAll S (n.bind args).1 ∧ S.Given (n.bind args).2 :=
    fun hb => bind_within ho ha fun he => htakes (.inr ⟨he, hb⟩)
  have hfirst := run_first n g content args
  generalize n.run g content args = first at hfirst ⊢
  cases hfirst with
  | named => exact .job (.done (sane_constantNamed ..)) trivial
  | name hp hv =>
    obtain ⟨hb, hb'⟩ := hbind (by rw [hp]; rfl)
    rw [hv, withinAll_cons] at hb
    exact .await trivial hb.1 hb'
  | slot hp => exact .launch (hc hp) ha
  | store hp hops =>
    have hslot := ht _ _ hp hops
    rw [hops, withinAll_cons, withinAll_cons] at ho
    exact .await hslot ho.2.1 ha
  | argument hp hx =>
    exact .launch (ha (htakes (.inl hp)) _ (List.mem_of_getElem? hx)) withinAll_nil.given
  | missing | refused => exact .fail fun _ => Cause.noConfusion
  | join hk =>
    obtain ⟨hb, hb'⟩ := hbind (builtin_of_join? hk)
    exact .join hb hb'
  | forLoop hp hops =>
    simp only [hops, withinAll_cons] at ho
    exact .await ⟨hl (by rw [hp]; rfl), ha, ho.2.1, ho.2.2.2.1,
      fun v hv => by cases hv; exact ho.2.2.1⟩ ho.1 ha
  | whileLoop hp hops =>
    simp only [hops, withinAll_cons] at ho
    exact .job (.round ⟨hl (by rw [hp]; rfl), ha, ho.1, ho.2.1, fun v hv => by cases hv⟩ rfl)
      trivial
  | choice _ hops =>
    rw [hops, withinAll_cons] at ho
    exact .await ⟨ha, fun v hv => ho.2 v (List.mem_of_getElem? hv),
      fun v hv => ho.2 v (List.mem_of_getElem? hv)⟩ ho.1 ha
  | block _ hops =>
    rw [hops, withinAll_cons] at ho
    exact .await ⟨ha, ho.2⟩ ho.1 ha
  | trace hp =>
    simp only [Node.Tame, hp] at htame
  | echo hp =>
    simp only [Node.Tame, hp] at htame
    obtain ⟨v, rest, hops, hv⟩ := htame
    rw [bind_of_operands (by simp [hops]), hops]
    exact .job (.done hv) trivial
  | empty | threadName => exact .job (.done rfl) trivial
  | panic => exact .panic

/-- What a frame does with a value that is no handle is an action. -/
theorem resume_action {k : Frame} {v : Value} (hk : k.Within S) (hv : v.Plain) :
    Action g S (k.resume g v) := by
  cases k with
  | constantName site =>
    cases v with
    | str name => exact .job (.done (sane_constantNamed ..)) trivial
    | _ => exact .fail fun _ => Cause.noConfusion
  | store target => exact .write hk hv
  | choice site args yes no =>
    obtain ⟨ha, hy, hn⟩ := hk
    obtain ⟨b, hb⟩ := truthy_of_plain hv
    cases hc : if b then yes else no with
    | none =>
      have e : (Frame.choice site args yes no).resume g v = fun w => (.done (.ok .empty), w) := by
        funext w
        simp only [Frame.resume, hb, hc]
      rw [e]
      exact .job (.done rfl) trivial
    | some branch =>
      have e : (Frame.choice site args yes no).resume g v = g.launch branch args := by
        funext w
        simp only [Frame.resume, hb, hc]
      rw [e]
      refine .launch ?_ ha
      cases b
      · exact hn branch hc
      · exact hy branch hc
  | block args rest =>
    cases rest with
    | nil => exact .job (.done hv) trivial
    | cons next rest =>
      exact .await ⟨hk.1, (withinAll_cons.1 hk.2).2⟩ (withinAll_cons.1 hk.2).1 hk.1
  | loopInit l => exact .job (.round hk rfl) trivial
  | loopCondition l last =>
    obtain ⟨hl, hp⟩ := hk
    obtain ⟨b, hb⟩ := truthy_of_plain hv
    cases b with
    | true =>
      have e : (Frame.loopCondition l last).resume g v = g.await (.loopBody l) l.body l.args := by
        funext w
        simp only [Frame.resume, hb]
      rw [e]
      exact .await hl hl.body hl.args
    | false =>
      have e : (Frame.loopCondition l last).resume g v = fun w => (.done (.ok last), w) := by
        funext w
        simp only [Frame.resume, hb]
      rw [e]
      exact .job (.done hp) trivial
  | loopBody l =>
    cases hs : l.step with
    | none =>
      have e : (Frame.loopBody l).resume g v = fun w => (.rest l v, w) := by
        funext w
        simp only [Frame.resume, hs]
      rw [e]
      exact .job (.rest hk hv) trivial
    | some step =>
      have e : (Frame.loopBody l).resume g v = g.await (.loopStep l v) step l.args := by
        funext w
        simp only [Frame.resume, hs]
      rw [e]
      exact .await ⟨hk, hv⟩ (hk.step step hs) hk.args
  | loopStep l last => exact .job (.rest hk.1 hk.2) trivial

/-! ## Steps -/

theorem turn_within {k : Join} {turned coming : List Job} (ht : ∀ t ∈ turned, t.Within S)
    (hl : ∀ t ∈ turned, t.value? = none → S.loops) (hc : ∀ c ∈ coming, c.Within S) :
    (k.turn turned coming).Within S := by
  cases coming with
  | cons c coming =>
    rw [List.forall_mem_cons] at hc
    exact .joined ht hl hc.1 hc.2
  | nil =>
    rw [← List.reverse_reverse turned]
    rcases finished_or_not turned.reverse with ⟨vs, hv⟩ | ⟨hn, j, hj, hv⟩
    · rw [hv, turn_finished]
      -- every value comes from a job that is done, and those are sane
      refine sane_finish k fun v hm => ?_
      have hd : Job.done (.ok v) ∈ turned := by
        rw [← List.mem_reverse, hv]
        exact List.mem_map_of_mem hm
      cases ht _ hd with
      | done hs => exact hs
    · rw [turn_unfinished k hn]
      have ht' : ∀ t ∈ turned.reverse, t.Within S := fun t h => ht t (List.mem_reverse.1 h)
      exact ⟨hl j (List.mem_reverse.1 hj) hv, start_within ht'⟩

theorem sane_reported {id : LocalityId} {site : Site} {r : Outcome} (h : r.Sane) :
    (r.reported id site).Sane := by
  unfold Outcome.reported
  split
  · exact sane_fail fun _ => Cause.noConfusion
  · exact h

theorem frame_after_within {k : Frame} {p : Progress} {w : World} (hk : k.Within S)
    (hp : p.Within S) (hc : S.Closed g w) :
    (k.after g p w).1.Within S ∧ w.Kept S (k.after g p w).2 := by
  rcases p with (e | v) | j | j
  · exact ⟨hp, .refl w⟩
  · exact (resume_action hk hp).within hc
  · exact ⟨.waiting hk hp, .refl w⟩
  · exact ⟨⟨hp.1, .waiting hk hp.2⟩, .refl w⟩

theorem join_after_within {k : Join} {turned coming : List Job} {p : Progress}
    (ht : ∀ t ∈ turned, t.Within S) (hl : ∀ t ∈ turned, t.value? = none → S.loops)
    (hc : ∀ c ∈ coming, c.Within S) (hp : p.Within S) : (k.after turned coming p).Within S := by
  rcases p with (e | v) | j | j
  · exact hp
  · have hd : (Job.done (.ok v)).value? = none → S.loops := by
      intro hn
      cases hn
    exact turn_within (List.forall_mem_cons.2 ⟨.done hp, ht⟩) (List.forall_mem_cons.2 ⟨hd, hl⟩) hc
  · exact .joined ht hl hp hc
  · exact turn_within (List.forall_mem_cons.2 ⟨hp.2, ht⟩)
      (List.forall_mem_cons.2 ⟨fun _ => hp.1, hl⟩) hc

theorem reported_within {id : LocalityId} {site : Site} {p : Progress} (hp : p.Within S) :
    (p.reported id site).Within S := by
  rcases p with r | j | j
  · exact sane_reported hp
  · exact .placed hp
  · exact ⟨hp.1, .placed hp.2⟩

/-- A step keeps a job within its scope and changes only slots of the scope. -/
theorem step_within {j : Job} {w : World} (hj : j.Within S) (hc : S.Closed g w) :
    (j.step g w).1.Within S ∧ w.Kept S (j.step g w).2 := by
  -- a step goes into the job that is at work, so the induction is on how jobs are nested
  induction hj with
  | done hr => exact ⟨hr, .refl w⟩
  | start hn hcon ha => exact (run_action hn hcon ha).within hc
  | round hl hp =>
    exact (Action.await (k := .loopCondition _ _) ⟨hl, hp⟩ hl.condition hl.args).within hc
  | rest hl hp => exact ⟨⟨hl.loops, .round hl hp⟩, .refl w⟩
  | waiting hk _ ih =>
    obtain ⟨hp, hw⟩ := ih
    rw [step_waiting]
    obtain ⟨hp', hw'⟩ := frame_after_within hk hp (hc.kept hw)
    exact ⟨hp', hw.trans hw'⟩
  | joined ht hl _ hcom _ ih _ =>
    rw [step_joined]
    exact ⟨join_after_within ht hl hcom ih.1, ih.2⟩
  | placed _ ih =>
    rw [step_placed]
    exact ⟨reported_within ih.1, ih.2⟩

/-! ## Runs -/

theorem comesTo_within {j : Job} {w w' : World} {p : Progress} (h : j.ComesTo g w p w')
    (hj : j.Within S) (hc : S.Closed g w) : p.Within S ∧ w.Kept S w' := by
  induction h with
  | now hs =>
    have hw := step_within hj hc
    rwa [hs] at hw
  | later hs _ ih =>
    have hw := step_within hj hc
    rw [hs] at hw
    obtain ⟨hp, hk⟩ := ih hw.1 (hc.kept hw.2)
    exact ⟨hp, hw.2.trans hk⟩

theorem steps_within {j j' : Job} {w w' : World} (h : j.Steps g w j' w') (hj : j.Within S)
    (hc : S.Closed g w) : j'.Within S ∧ w.Kept S w' := by
  induction h with
  | refl => exact ⟨hj, .refl _⟩
  | moved hs _ ih =>
    have hw := step_within hj hc
    rw [hs] at hw
    obtain ⟨hj', hk⟩ := ih hw.1 (hc.kept hw.2)
    exact ⟨hj', hw.2.trans hk⟩
  | suspended hs _ ih =>
    have hw := step_within hj hc
    rw [hs] at hw
    obtain ⟨hj', hk⟩ := ih hw.1.2 (hc.kept hw.2)
    exact ⟨hj', hw.2.trans hk⟩

theorem runs_within {j : Job} {w z : World} {r : Outcome} (h : j.Runs g w r z) (hj : j.Within S)
    (hc : S.Closed g w) : r.Sane ∧ w.Kept S z := by
  revert hj hc
  refine h.rec_step (P := fun j w => j.Within S → S.Closed g w → r.Sane ∧ w.Kept S z) ?_ ?_ ?_
  · intro j w hs hj hc
    have hw := step_within hj hc
    rwa [hs] at hw
  all_goals
    intro j w j' w' hs ih hj hc
    have hw := step_within hj hc
    rw [hs] at hw
  · obtain ⟨hr, hk⟩ := ih hw.1 (hc.kept hw.2)
    exact ⟨hr, hw.2.trans hk⟩
  · obtain ⟨hr, hk⟩ := ih hw.1.2 (hc.kept hw.2)
    exact ⟨hr, hw.2.trans hk⟩

theorem evaluates_within {v : Value} {args : List Value} {w z : World} {r : Outcome}
    (h : g.Evaluates v args w r z) (hc : S.Closed g w) (hv : v.Within S) (ha : S.Given args) :
    r.Sane ∧ w.Kept S z := by
  have hl : (g.launch v args w).2.slots = w.slots := launch_slots ..
  obtain ⟨hr, hk⟩ := runs_within h (launch_within hc hv ha) (hc.kept (.of_slots hl))
  exact ⟨hr, (World.Kept.of_slots hl).trans hk⟩

theorem quiet_of_within {j : Job} {w : World} (hj : j.Within S) (hc : S.Closed g w)
    (hl : ¬ S.loops) : j.Quiet g w :=
  fun _ _ h => hl (comesTo_within h hj hc).1.1

/-! ## Graphs of tame nodes -/

def Graph.Tame (g : Graph) : Prop := ∀ n ∈ g.nodes, n.Tame

/-- Every node is part of every registry. -/
def Graph.Builtin (g : Graph) : Prop := ∀ n ∈ g.nodes, n.primitive.isBuiltin = true

instance (g : Graph) : Decidable g.Builtin := inferInstanceAs (Decidable (∀ n ∈ g.nodes, _))

theorem Graph.Builtin.tame (h : g.Builtin) : g.Tame := fun n hn => tame_of_builtin (h n hn)

theorem Graph.Tame.closed_all (h : g.Tame) (w : World) : Scope.all.Closed g w := fun _ n _ hn =>
  ⟨⟨h n (Array.mem_of_getElem? hn), withinAll_all _, fun _ _ _ _ => trivial, fun _ => trivial,
    fun _ => trivial⟩, fun _ _ _ => trivial⟩

theorem closed_all (h : g.Builtin) (w : World) : Scope.all.Closed g w := h.tame.closed_all w

end ArrayGraph
