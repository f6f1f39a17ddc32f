import ArrayGraph.Evaluation.Step
/-!
# What a node does first

`Node.First` has a case for each thing that a node may do when its job begins, with what it
does it with, and `run_first` says that there are no others: what holds of whatever a node does
first is shown by cases of `Node.First`. A node that has passed the check of its graph has the
operands that it reads, so it panics only if it is there to do so.

Nodes that join operands have one case in common (`Node.join?`). Those of them that may be built
without operands count again when they run.
-/

namespace ArrayGraph

variable {g : Graph}

/-! ## Checks -/

/-- What a node that passes the check satisfies. -/
theorem check_eq_ok_iff {g : Graph} {p : Primitive} {operands : List Value} :
    g.check p operands = .ok () ↔ p.accepts operands.length = true ∧
      (p.needsValid = true → ∀ v ∈ operands, v.isValid = true) ∧
      (p = .store → ∀ v, operands.head? = some v → g.isVariable v = true) ∧
      (p = .argument → ∀ v, operands.head? = some v → Graph.isArgumentIndex v = true) := by
  unfold Graph.check
  cases ha : p.accepts operands.length with
  | false => simp
  | true =>
    have hany : (p.needsValid && operands.any (!·.isValid)) = true ↔
        ¬ (p.needsValid = true → ∀ v ∈ operands, v.isValid = true) := by simp
    by_cases hv : p.needsValid = true → ∀ v ∈ operands, v.isValid = true
    · rw [if_neg (by simp), if_neg (fun h => hany.1 h hv)]
      split
      · rename_i target rest
        cases h : g.isVariable target <;> simp [h]
        simpa using hv
      · rename_i index rest
        cases h : Graph.isArgumentIndex index <;> simp [h]
        simpa using hv
      · rename_i hstore hargument
        refine ⟨fun _ => ⟨rfl, hv, ?_, ?_⟩, fun _ => rfl⟩
        · rintro rfl v h
          obtain ⟨rest, rfl⟩ := List.head?_eq_some_iff.1 h
          exact (hstore v rest rfl rfl).elim
        · rintro rfl v h
          obtain ⟨rest, rfl⟩ := List.head?_eq_some_iff.1 h
          exact (hargument v rest rfl rfl).elim
    · rw [if_neg (by simp), if_pos (hany.2 hv)]
      exact ⟨nofun, fun h => absurd h.2.1 hv⟩

/-! ## Joins -/

/-- What a node that joins its operands makes of their values. -/
def Node.join? (n : Node) : Option Join :=
  match n.primitive with
  | .compare op => some (.compare op n.site)
  | .arithmetic op => some (.arithmetic op n.site)
  | .statistic s => some (.statistic s n.site)
  | .parallelBlock => some .last
  | _ => none

/-- The join has a result for this number of values. -/
def Join.Takes (k : Join) (count : Nat) : Prop :=
  match k with
  | .compare _ _ | .arithmetic _ _ => 2 ≤ count
  | .statistic _ _ => 1 ≤ count
  | .last | .all => True

/-- The node counts what it is called with, operands or arguments in their place. -/
def Node.Counts (n : Node) : Prop :=
  n.primitive = .constant ∨
    ((∃ op, n.primitive = .compare op) ∨ ∃ op, n.primitive = .arithmetic op) ∨
    ∃ s, n.primitive = .statistic s

section Joins

variable {n : Node} {k : Join} {args : List Value}

theorem builtin_of_join? (hk : n.join? = some k) : n.primitive.isBuiltin = true := by
  cases hp : n.primitive with
  | compare | arithmetic | statistic | parallelBlock => rfl
  | _ => simp [Node.join?, hp] at hk

theorem bind_of_operands (h : n.operands ≠ []) (args : List Value) :
    n.bind args = (n.operands, args) := by
  simp [Node.bind, h]

/-- The operands of a node have been counted when it was built, so only arguments can be too
few or too many. -/
theorem operands_of_refused (ok : Nat → Bool)
    (hcount : ∀ count, n.primitive.accepts count = true → count = 0 ∨ ok count = true)
    (h : ok (n.bind args).1.length = false) (ha : n.primitive.accepts n.operands.length = true) :
    n.operands = [] := by
  rcases hcount _ ha with h0 | hok
  · exact List.length_eq_zero_iff.1 h0
  · refine Decidable.byContradiction fun hne => ?_
    rw [bind_of_operands hne, hok] at h
    cases h

theorem joinBound_cases (n : Node) (g : Graph) (k : Join) (ok : Nat → Bool) (args : List Value) :
    (ok (n.bind args).1.length = true ∧
        n.joinBound g k ok args = g.join k (n.bind args).1 (n.bind args).2) ∨
      (ok (n.bind args).1.length = false ∧
        n.joinBound g k ok args = fun w => (.done (.fail n.site (.wrongCount n.primitive)), w)) := by
  unfold Node.joinBound
  cases hok : ok (n.bind args).1.length with
  | true => exact .inl ⟨rfl, by simp [hok]⟩
  | false => exact .inr ⟨rfl, by simp [hok]⟩

/-- A node that joins its operands, or the arguments in their place, has as many as it reads
values of, or fails. -/
theorem run_joins (hk : n.join? = some k) (hne : n.primitive = .parallelBlock → n.operands ≠ [])
    (content : Value) (args : List Value) :
    (k.Takes (n.bind args).1.length ∧
        n.run g content args = g.join k (n.bind args).1 (n.bind args).2) ∨
      (n.Counts ∧ (n.primitive.accepts n.operands.length = true → n.operands = []) ∧
        n.run g content args = fun w => (.done (.fail n.site (.wrongCount n.primitive)), w)) := by
  have hcases := joinBound_cases n g k
  have hrefused := fun ok => @operands_of_refused n args ok
  have hbind := @bind_of_operands n
  obtain ⟨p, operands, site, locality⟩ := n
  cases p with
  | compare op | arithmetic op =>
    cases hk
    rcases hcases (· == 2) args with ⟨hok, he⟩ | ⟨hok, he⟩
    · exact .inl ⟨Nat.le_of_eq (beq_iff_eq.1 hok).symm, he⟩
    · refine .inr ⟨by simp [Node.Counts], hrefused (· == 2) (fun count hc => ?_) hok, he⟩
      simpa [Primitive.accepts] using hc
  | statistic s =>
    cases hk
    have hrefused := hrefused fun k => k == 1 || k == 2
    rcases hcases (fun k => k == 1 || k == 2) args with ⟨hok, he⟩ | ⟨hok, he⟩
    · simp only [Bool.or_eq_true, beq_iff_eq] at hok
      exact .inl ⟨by simp only [Join.Takes]; omega, he⟩
    · refine .inr ⟨.inr (.inr ⟨s, rfl⟩), hrefused (fun count hc => ?_) hok, he⟩
      simp only [Primitive.accepts, decide_eq_true_eq, Bool.or_eq_true, beq_iff_eq] at hc ⊢
      omega
  | parallelBlock =>
    cases hk
    rw [hbind (hne rfl)]
    exact .inl ⟨trivial, rfl⟩
  | _ => cases hk

/-- If a node that joins fails at once, it has been built without operands and does not take as
many arguments. -/
theorem run_bound (ha : n.primitive.accepts n.operands.length = true) (hk : n.join? = some k)
    (content : Value) (args : List Value) (w : World) :
    (k.Takes (n.bind args).1.length ∧
        n.run g content args w = g.join k (n.bind args).1 (n.bind args).2 w) ∨
      (n.operands = [] ∧
        n.run g content args w = (.done (.fail n.site (.wrongCount n.primitive)), w)) := by
  have hne : n.primitive = .parallelBlock → n.operands ≠ [] := by
    intro hp he
    rw [hp, he] at ha
    cases ha
  rcases run_joins (g := g) hk hne content args with ⟨ht, he⟩ | ⟨-, hempty, he⟩
  · exact .inl ⟨ht, congrFun he w⟩
  · exact .inr ⟨hempty ha, congrFun he w⟩

theorem run_join (hk : n.join? = some k) (hne : n.operands ≠ [])
    (ha : n.primitive.accepts n.operands.length = true) (content : Value) (args : List Value)
    (w : World) : n.run g content args w = g.join k n.operands args w := by
  have hbound := run_bound (g := g) ha hk content args w
  rw [bind_of_operands hne] at hbound
  exact (hbound.resolve_right fun h => hne h.1).2

end Joins

/-! ## Nodes -/

/-- What a node does first, by its kind and by what it has of operands and arguments. -/
inductive Node.First (g : Graph) (n : Node) (content : Value) (args : List Value) :
    (World → Job × World) → Prop
  | named : n.primitive = .constant →
      First g n content args fun w => (.done (constantNamed n.site (bareName n.site.name)), w)
  | name {v} : n.primitive = .constant → (n.bind args).1 = [v] →
      First g n content args (g.await (.constantName n.site) v (n.bind args).2)
  | slot : n.primitive = .variable → First g n content args (g.launch content args)
  | store {h v rest} : n.primitive = .store → n.operands = .node h :: v :: rest →
      First g n content args (g.await (.store h.index) v args)
  | argument {i : Nat} {a} : n.primitive = .argument → args[i]? = some a →
      First g n content args (g.launch a [])
  | missing {i} : n.primitive = .argument →
      First g n content args fun w => (.done (.fail n.site (.missingArgument i args.length)), w)
  | join {k} : n.join? = some k → k.Takes (n.bind args).1.length →
      First g n content args (g.join k (n.bind args).1 (n.bind args).2)
  | refused : n.Counts → (n.primitive.accepts n.operands.length = true → n.operands = []) →
      First g n content args fun w => (.done (.fail n.site (.wrongCount n.primitive)), w)
  | forLoop {init condition step body rest} : n.primitive = .forLoop →
      n.operands = init :: condition :: step :: body :: rest →
      First g n content args
        (g.await (.loopInit ⟨n.site, args, condition, body, some step⟩) init args)
  | whileLoop {condition body rest} : n.primitive = .whileLoop →
      n.operands = condition :: body :: rest →
      First g n content args fun w => (.round ⟨n.site, args, condition, body, none⟩ .empty, w)
  | choice {condition branches} : n.primitive = .choice → n.operands = condition :: branches →
      First g n content args
        (g.await (.choice n.site args branches[0]? branches[1]?) condition args)
  | block {v rest} : n.primitive = .block → n.operands = v :: rest →
      First g n content args (g.await (.block args rest) v args)
  | empty : n.operands = [] → First g n content args fun w => (.done (.ok .empty), w)
  | trace {tag v rest} : n.primitive = .trace → n.operands = tag :: v :: rest →
      First g n content args fun w => g.launch v args (w.write (tag.asText?.getD "?"))
  | echo : n.primitive = .echo →
      First g n content args fun w => (.done (.ok ((n.bind args).1.head?.getD .empty)), w)
  | threadName : n.primitive = .threadName →
      First g n content args fun w => (.done (.ok (.str n.locality.threadName)), w)
  | panic : (g.check n.primitive n.operands = .ok () → n.primitive = .explode) →
      First g n content args fun w => (.done (.error .panic), w)

section Nodes

variable {n : Node} {content : Value} {args : List Value}

theorem join_first {k : Join} (hk : n.join? = some k)
    (hne : n.primitive = .parallelBlock → n.operands ≠ []) :
    n.First g content args (n.run g content args) := by
  rcases run_joins (g := g) hk hne content args with ⟨ht, he⟩ | ⟨hcounts, hempty, he⟩
  · exact he ▸ .join hk ht
  · exact he ▸ .refused hcounts hempty

theorem argument_first (hp : n.primitive = .argument) :
    n.First g content args (n.run g content args) := by
  obtain ⟨p, operands, site, locality⟩ := n
  subst hp
  cases hi : operands.head?.bind (·.asInt?) with
  | none =>
    have e : Node.run ⟨.argument, operands, site, locality⟩ g content args =
        fun w => (.done (.error .panic), w) := by
      funext w
      simp only [Node.run, hi]
    rw [e]
    refine .panic fun hc => ?_
    obtain ⟨hcount, -, -, hindex⟩ := check_eq_ok_iff.1 hc
    rcases operands with _ | ⟨index, rest⟩
    · cases hcount
    · obtain ⟨i, he, -⟩ := (Option.any_eq_true ..).1 (hindex rfl index rfl)
      cases hi.symm.trans he
  | some i =>
    cases hx : args[i.toInt.toNat]? with
    | none =>
      have e : Node.run ⟨.argument, operands, site, locality⟩ g content args = fun w =>
          (.done (.fail site (.missingArgument i.toInt.toNat args.length)), w) := by
        funext w
        simp only [Node.run, hi, hx]
      rw [e]
      exact .missing rfl
    | some a =>
      have e : Node.run ⟨.argument, operands, site, locality⟩ g content args =
          g.launch a [] := by
        funext w
        simp only [Node.run, hi, hx]
      rw [e]
      exact .argument rfl hx

/-- A node does one of these things first. -/
theorem run_first (n : Node) (g : Graph) (content : Value) (args : List Value) :
    n.First g content args (n.run g content args) := by
  have hjoin := @join_first g n content args
  have hargument := @argument_first g n content args
  obtain ⟨p, operands, site, locality⟩ := n
  cases p with
  | constant =>
    rcases operands with _ | ⟨v, _ | ⟨v', rest⟩⟩
    · rcases args with _ | ⟨a, _ | ⟨a', rest⟩⟩
      · exact .named rfl
      · exact .name rfl rfl
      · exact .refused (.inl rfl) fun _ => rfl
    · exact .name rfl rfl
    · exact .refused (.inl rfl) nofun
  | «variable» => exact .slot rfl
  | store =>
    rcases operands with _ | ⟨target, _ | ⟨v, rest⟩⟩
    · exact .panic nofun
    · cases target <;> exact .panic nofun
    · cases target with
      | node h => exact .store rfl rfl
      | _ => exact .panic fun hc => by cases (check_eq_ok_iff.1 hc).2.2.1 rfl _ rfl
  | argument => exact hargument rfl
  | compare op | arithmetic op | statistic s => exact hjoin rfl nofun
  | forLoop =>
    rcases operands with _ | ⟨a, _ | ⟨b, _ | ⟨c, _ | ⟨d, rest⟩⟩⟩⟩
    iterate 4 exact .panic nofun
    exact .forLoop rfl rfl
  | whileLoop =>
    rcases operands with _ | ⟨a, _ | ⟨b, rest⟩⟩
    iterate 2 exact .panic nofun
    exact .whileLoop rfl rfl
  | choice =>
    rcases operands with _ | ⟨condition, branches⟩
    · exact .panic nofun
    · exact .choice rfl rfl
  | block =>
    rcases operands with _ | ⟨v, rest⟩
    · exact .empty rfl
    · exact .block rfl rfl
  | parallelBlock =>
    cases operands with
    | nil => exact .empty rfl
    | cons v rest => exact hjoin rfl nofun
  | trace =>
    rcases operands with _ | ⟨tag, _ | ⟨v, rest⟩⟩
    iterate 2 exact .panic nofun
    exact .trace rfl rfl
  | echo => exact .echo rfl
  | explode => exact .panic fun _ => rfl
  | threadName => exact .threadName rfl

end Nodes

end ArrayGraph
