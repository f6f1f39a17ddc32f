import ArrayGraph.Proofs.Evaluation.Loop
/-!
# Counting loops

`for(store(i, a), i < n, store(i, i + 1), i)` counts over the whole range of machine
integers. What the six nodes give is said node by node (`Counted`), then a round takes the
variable from an integer to the next one, and rounds are counted off against `n` from there
(`rounds_counted`). No sum leaves the range, since a round begins below `n`. The result is
`counting_loop`.
-/

namespace ArrayGraph

variable {g : Graph} {args : List Value} {u w z : World} {h t : Handle} {m k : Node}
  {operands slots : List Value} {v x : Value}

/-! ## What a node gives -/

/-- The operand has this value and leaves this in the slots. -/
def Graph.Gives (g : Graph) (v : Value) (args : List Value) (w : World) (x : Value)
    (slots : Array Value) : Prop :=
  ∃ z, g.Evaluates v args w (.ok x) z ∧ z.slots = slots

theorem gives_literal (hv : v.Plain) : g.Gives v args w v w.slots :=
  ⟨w, (evaluates_literal hv).2 ⟨rfl, rfl⟩, rfl⟩

variable (args) in
theorem gives_variable (hn : g.Hosts h m .variable operands) (hv : (w.slot h.index).Plain) :
    g.Gives (.node h) args w (w.slot h.index) w.slots := by
  refine ⟨m.entered w, evaluates_entered hn ?_, slots_entered m w⟩
  simp only [Node.run, hn.primitive]
  exact (evaluates_literal hv).2 ⟨rfl, rfl⟩

theorem gives_store {slots : Array Value} (hn : g.Hosts h m .store [.node t, v])
    (hv : g.Gives v args (m.entered w) x slots) :
    g.Gives (.node h) args w .empty (slots.setIfInBounds t.index x) := by
  obtain ⟨z, hz, rfl⟩ := hv
  refine ⟨z.setSlot t.index x, evaluates_entered hn ?_, rfl⟩
  simp only [Node.run, hn.primitive, hn.operands]
  exact runs_await.2 ⟨_, _, hz, runs_done.2 ⟨rfl, rfl⟩⟩

variable (args) in
/-- The job of a variable has the content that was there when the job was made. -/
theorem comesTo_variable (hn : g.Hosts h m .variable operands) (hv : (w.slot h.index).Plain)
    (u : World) :
    (g.launch (.node h) args w).1.ComesTo g u (.finished (.ok (w.slot h.index))) u := by
  have hstart : (Job.start m (w.slot h.index) args).ComesTo g u
      (.finished (.ok (w.slot h.index))) u := by
    have hstep : (Job.start m (w.slot h.index) args).step g u =
        (.moved (.done (.ok (w.slot h.index))), u) := by
      simp only [Job.step, Node.run, hn.primitive, launch_literal hv]
    exact .later hstep (.now rfl)
  simp only [Graph.launch, hn.node, Locality.dispatch]
  cases ht : m.locality.transport with
  | inline | recorder line => exact hstart
  | pool size name =>
    simp only [if_pos (hn.served size name ht)]
    exact comesTo_placed hstart

/-- A join of a variable and a literal has what it makes of the content and the literal. -/
theorem gives_pair {j : Join} {p : Primitive} (hn : g.Hosts h m p [.node t, v])
    (hj : m.join? = some j) (hp : p.accepts 2 = true) (ht : g.Hosts t k .variable operands)
    (hs : (w.slot t.index).Plain) (hv : v.Plain) (hx : j.finish [w.slot t.index, v] = .ok x) :
    g.Gives (.node h) args w x w.slots := by
  have hs' : ((m.entered w).slot t.index).Plain := by rwa [slot_entered]
  refine ⟨(g.launch (.node t) args (m.entered w)).2, evaluates_entered hn ?_,
    (launch_slots ..).trans (slots_entered m w)⟩
  have hrun : m.run g (w.slot h.index) args (m.entered w) =
      (.joined j [] (g.launch (.node t) args (m.entered w)).1 [.done (.ok v)],
        (g.launch (.node t) args (m.entered w)).2) := by
    have hne : m.operands ≠ [] := by
      rw [hn.operands]
      exact nofun
    have haccepts : m.primitive.accepts m.operands.length = true := by
      rw [hn.operands, hn.primitive]
      exact hp
    rw [run_join hj hne haccepts, hn.operands]
    simp only [Graph.join, Graph.launchAll, launch_literal hv]
  rw [hrun]
  -- the variable has its turn, then the literal
  have hfirst := comesTo_variable args ht hs' (g.launch (.node t) args (m.entered w)).2
  refine (Job.runs_comesTo ((comesTo_joined hfirst).trans (.now rfl))).2 ?_
  rw [slot_entered]
  exact ⟨hx.symm, rfl⟩

/-! ## The six nodes -/

/-- The nodes of a counting loop. -/
structure Counter where
  slot : Handle
  start : Handle
  less : Handle
  next : Handle
  step : Handle
  loop : Handle

/-- `for(store(i, a), i < n, store(i, i + 1), i)`, with `m` for the loop. -/
structure Graph.Counts (g : Graph) (c : Counter) (m : Node) (a n : Int64) : Prop where
  slot : ∃ k initial, g.Hosts c.slot k .variable [initial]
  start : ∃ k, g.Hosts c.start k .store [.node c.slot, .int a]
  less : ∃ k, g.Hosts c.less k (.compare .less) [.node c.slot, .int n]
  next : ∃ k, g.Hosts c.next k (.arithmetic .add) [.node c.slot, .int 1]
  step : ∃ k, g.Hosts c.step k .store [.node c.slot, .node c.next]
  loop : g.Hosts c.loop m .forLoop [.node c.start, .node c.less, .node c.step, .node c.slot]

/-- The state `w` but for the integer in the slot. -/
def World.Counted (w : World) (i : Nat) (x : Int64) (u : World) : Prop :=
  u.slots = (w.setSlot i (.int x)).slots

section Counting

variable {c : Counter} {a n x : Int64}

theorem World.Counted.slot (h : w.Counted c.slot.index x u) (hi : c.slot.index < w.slots.size) :
    u.slot c.slot.index = .int x := by
  simp only [World.slot, World.Counted] at h ⊢
  rw [h]
  exact w.slot_setSlot_self _ _ hi

theorem World.Counted.set {y : Int64} {slots : Array Value} (h : w.Counted c.slot.index x u)
    (hs : slots = u.slots) :
    slots.setIfInBounds c.slot.index (.int y) = (w.setSlot c.slot.index (.int y)).slots := by
  rw [hs, h]
  simp [World.setSlot]

/-! ## What the rounds come to -/

theorem toInt_max (x y : Int64) : (max x y).toInt = max x.toInt y.toInt := by
  by_cases h : x ≤ y
  · rw [show max x y = y from if_pos h]
    exact (Int.max_eq_right (Int64.le_iff_toInt_le.1 h)).symm
  · rw [show max x y = x from if_neg h]
    rw [Int64.le_iff_toInt_le] at h
    exact (Int.max_eq_left (by omega)).symm

/-- What the operands of the rounds come to that count `k` integers up from `x`. -/
def countedRounds (x : Int64) (k : Nat) : List (List Value) :=
  (List.range k).map fun j : Nat => [.int (.ofInt (x.toInt + j)), .empty]

theorem countedRounds_succ {y : Int64} (k : Nat) (hy : y.toInt = x.toInt + 1) :
    countedRounds x (k + 1) = [.int x, .empty] :: countedRounds y k := by
  have hhead : Int64.ofInt (x.toInt + (0 : Nat)) = x := by simp
  have hrest : ∀ j : Nat, x.toInt + (j + 1 : Nat) = y.toInt + j := by omega
  rw [countedRounds, List.range_succ_eq_map, List.map_cons, List.map_map, hhead]
  refine congrArg _ (List.map_congr_left fun j _ => ?_)
  simp only [Function.comp_apply, Nat.succ_eq_add_one, hrest]

theorem lastValue_concat (values : List Value) (v : Value) : lastValue (values ++ [v]) = v := by
  simp [lastValue]

theorem bodyValue_countedRounds :
    bodyValue (countedRounds a (n.toInt - a.toInt).toNat) =
      if a < n then .int (n - 1) else .empty := by
  by_cases han : a < n
  · have hlt := Int64.lt_iff_toInt_lt.1 han
    obtain ⟨k, hk⟩ : ∃ k, (n.toInt - a.toInt).toNat = k + 1 := ⟨_, (Nat.succ_pred (by omega)).symm⟩
    have hlast : Int64.ofInt (a.toInt + k) = n - 1 := by
      rw [show a.toInt + k = n.toInt - 1 by omega, Int64.ofInt_sub, Int64.ofInt_toInt]
      rfl
    rw [if_pos han, hk, countedRounds, List.range_succ, List.map_append, bodyValue,
      List.map_append]
    exact (lastValue_concat _ _).trans (congrArg _ hlast)
  · have hle : ¬ a.toInt < n.toInt := fun hlt => han (Int64.lt_iff_toInt_lt.2 hlt)
    rw [if_neg han, show (n.toInt - a.toInt).toNat = 0 by omega]
    rfl

/-! ## The nodes of a counter -/

variable (args) (hc : g.Counts c m a n) (hi : c.slot.index < w.slots.size)

include hc

theorem gives_start (hu : u.slots = w.slots) :
    g.Gives (.node c.start) args u .empty (w.setSlot c.slot.index (.int a)).slots := by
  obtain ⟨k, hk⟩ := hc.start
  have hv : g.Gives (.int a) args (k.entered u) (.int a) (k.entered u).slots := gives_literal rfl
  rw [slots_entered, hu] at hv
  exact gives_store hk hv

include hi

theorem gives_body (hu : w.Counted c.slot.index x u) :
    g.Gives (.node c.slot) args u (.int x) u.slots := by
  obtain ⟨k, initial, hk⟩ := hc.slot
  have hs := hu.slot hi
  have hv := gives_variable args (w := u) hk (by rw [hs]; rfl)
  rwa [hs] at hv

theorem gives_less (hu : w.Counted c.slot.index x u) :
    g.Gives (.node c.less) args u (.bool (decide (x < n))) u.slots := by
  obtain ⟨k, initial, hk⟩ := hc.slot
  obtain ⟨k', hk'⟩ := hc.less
  have hs := hu.slot hi
  refine gives_pair hk' (j := .compare .less k'.site) ?_ rfl hk (by rw [hs]; rfl) rfl ?_
  · simp only [Node.join?, hk'.primitive]
  · rw [hs]
    rfl

theorem gives_next (hu : w.Counted c.slot.index x u) (hx : x < n) :
    ∃ y, y.toInt = x.toInt + 1 ∧ g.Gives (.node c.next) args u (.int y) u.slots := by
  obtain ⟨k, initial, hk⟩ := hc.slot
  obtain ⟨k', hk'⟩ := hc.next
  have hs := hu.slot hi
  -- below `n` there is room for the sum
  have hn := n.toInt_le
  have hl := x.minValue_le_toInt
  rw [Int64.lt_iff_toInt_lt] at hx
  have hfit : ArithmeticOp.fit? (x.toInt + 1) = some (.ofInt (x.toInt + 1)) :=
    if_pos ⟨by omega, by omega⟩
  refine ⟨_, ArithmeticOp.toInt_of_fit? hfit, ?_⟩
  refine gives_pair hk' (j := .arithmetic .add k'.site) ?_ rfl hk (by rw [hs]; rfl) rfl ?_
  · simp only [Node.join?, hk'.primitive]
  · rw [hs]
    simp only [Join.finish, Value.combine, ArithmeticOp.applyExact?]
    rw [show (1 : Int64).toInt = 1 from rfl, hfit]
    rfl

theorem gives_step (hu : w.Counted c.slot.index x u) (hx : x < n) :
    ∃ y, y.toInt = x.toInt + 1 ∧
      g.Gives (.node c.step) args u .empty (w.setSlot c.slot.index (.int y)).slots := by
  obtain ⟨k, hk⟩ := hc.step
  have hu' : w.Counted c.slot.index x (k.entered u) := (slots_entered k u).trans hu
  obtain ⟨y, hy, hv⟩ := gives_next args hc hi hu' hx
  refine ⟨y, hy, ?_⟩
  rw [← hu'.set rfl]
  exact gives_store hk hv

/-! ## Rounds -/

/-- From an integer below `n` a round takes the variable to the next one. -/
theorem round_counted (hu : w.Counted c.slot.index x u) (hx : x < n) :
    ∃ y u₁ z, y.toInt = x.toInt + 1 ∧ w.Counted c.slot.index y z ∧
      g.Evaluates (.node c.less) args u (.ok (.bool true)) u₁ ∧
      g.Sequence args [.node c.slot, .node c.step] u₁ (.ok [.int x, .empty]) z := by
  obtain ⟨u₁, hless, hu₁⟩ := gives_less args hc hi hu
  rw [decide_eq_true hx] at hless
  obtain ⟨u₂, hbody, hu₂⟩ := gives_body args hc hi (hu₁.trans hu)
  obtain ⟨y, hy, z, hstep, hz⟩ := gives_step args hc hi (hu₂.trans (hu₁.trans hu)) hx
  exact ⟨y, u₁, z, hy, hz, hless, .cons hbody (.cons hstep .nil)⟩

/-- Rounds take the variable from an integer to any one above it that comes after integers
below `n`. -/
theorem rounds_counted {y : Int64} (k : Nat) (hu : w.Counted c.slot.index x u)
    (hk : x.toInt + k = y.toInt) (hn : ∀ j : Nat, j < k → x.toInt + j < n.toInt) :
    ∃ z, g.Rounds args (.node c.less) [.node c.slot, .node c.step] u (countedRounds x k) z ∧
      w.Counted c.slot.index y z := by
  induction k generalizing x u with
  | zero =>
    obtain rfl : x = y := Int64.toInt_inj.1 (by omega)
    exact ⟨u, .nil, hu⟩
  | succ k ih =>
    have hx : x.toInt + (0 : Nat) < n.toInt := hn 0 (Nat.succ_pos k)
    rw [Int.natCast_zero, Int.add_zero, ← Int64.lt_iff_toInt_lt] at hx
    obtain ⟨x', u₁, u₂, hx', hu₂, hless, hoperands⟩ := round_counted args hc hi hu hx
    have hn' : ∀ j : Nat, j < k → x'.toInt + j < n.toInt := by
      intro j hj
      have hnext := hn (j + 1) (Nat.succ_lt_succ hj)
      omega
    obtain ⟨z, hrounds, hz⟩ := ih hu₂ (by omega) hn'
    rw [countedRounds_succ k hx']
    exact ⟨z, .cons hless rfl hoperands hrounds, hz⟩

/-! ## The loop -/

theorem course_counted :
    ∃ z, g.Course args [.node c.start] (.node c.less) [.node c.slot, .node c.step] (m.entered w)
        (.ok (countedRounds a (n.toInt - a.toInt).toNat)) z ∧
      w.Counted c.slot.index (max a n) z := by
  have hmax := toInt_max a n
  obtain ⟨u, hstart, hu⟩ := gives_start args hc (slots_entered m w)
  obtain ⟨z, hrounds, hz⟩ :=
    rounds_counted args hc hi (n.toInt - a.toInt).toNat hu (y := max a n) (by omega)
      fun j hj => by omega
  obtain ⟨z', hless, hz'⟩ := gives_less args hc hi hz
  have hlast : ¬ max a n < n := by
    rw [Int64.lt_iff_toInt_lt]
    omega
  rw [decide_eq_false hlast] at hless
  exact ⟨z', .ended (.cons hstart .nil) hrounds (.finished hless rfl), hz'.trans hz⟩

/-- Whatever rounds there have been, the variable has gone up by their number. -/
theorem counted_of_rounds {rounds : List (List Value)} (hu : w.Counted c.slot.index x u)
    (h : g.Rounds args (.node c.less) [.node c.slot, .node c.step] u rounds z) :
    ∃ y, y.toInt = x.toInt + rounds.length ∧ w.Counted c.slot.index y z := by
  induction h generalizing x with
  | nil => exact ⟨x, (Int.add_zero _).symm, hu⟩
  | cons hcond ht hvalues _ ih =>
    obtain ⟨u₁, hless, hu₁⟩ := gives_less args hc hi hu
    obtain ⟨he, -⟩ := evaluates_unique hcond hless
    cases he
    have hx : x < n := by simpa [Value.truthy?] using ht
    obtain ⟨y, u₁, u₂, hy, hu₂, hless, hoperands⟩ := round_counted args hc hi hu hx
    obtain ⟨-, rfl⟩ := evaluates_unique hcond hless
    obtain ⟨-, rfl⟩ := sequence_unique hvalues hoperands
    obtain ⟨y', hy', hz⟩ := ih hu₂
    refine ⟨y', ?_, hz⟩
    rw [List.length_cons]
    omega

/-- Between any two machine integers the loop ends with the last integer below the upper
one, after a round for each integer from the lower one on. -/
theorem counting_loop :
    (n.toInt - a.toInt).toNat < UInt64.size ∧
    (∃ z, g.Course args [.node c.start] (.node c.less) [.node c.slot, .node c.step] (m.entered w)
        (.ok (countedRounds a (n.toInt - a.toInt).toNat)) z ∧
      g.Evaluates (.node c.loop) args w (.ok (if a < n then .int (n - 1) else .empty)) z ∧
      w.Counted c.slot.index (max a n) z ∧
      ∀ args', g.Gives (.node c.loop) args' z (if a < n then .int (n - 1) else .empty) z.slots) ∧
    (∀ xs u rounds z, g.Sequence args [.node c.start] (m.entered w) (.ok xs) u →
      g.Rounds args (.node c.less) [.node c.slot, .node c.step] u rounds z →
      ∃ y, z.slot c.slot.index = .int y ∧ y.toInt = a.toInt + rounds.length ∧
        g.Gives (.node c.less) args z (.bool (decide (y.toInt < n.toInt))) z.slots) := by
  have hlower := a.le_toInt
  have hupper := n.toInt_lt
  have hsize : UInt64.size = 18446744073709551616 := rfl
  refine ⟨by omega, ?_, ?_⟩
  · obtain ⟨z, hcourse, hz⟩ := course_counted args hc hi
    refine ⟨z, hcourse, ?_, hz, fun args' => ?_⟩
    · rw [← bodyValue_countedRounds]
      exact for_of_course hc.loop hcourse
    · have hi' : c.slot.index < z.slots.size := by
        rw [hz]
        simpa [World.setSlot] using hi
      obtain ⟨z', hcourse', hz'⟩ := course_counted args' hc hi'
      refine ⟨z', ?_, hz'.trans ((hz.set rfl).trans hz.symm)⟩
      rw [← bodyValue_countedRounds]
      exact for_of_course hc.loop hcourse'
  · intro xs u rounds z hstart hrounds
    obtain ⟨u', hstart', hu'⟩ := gives_start args hc (slots_entered m w)
    obtain ⟨-, rfl⟩ := sequence_unique hstart (.cons hstart' .nil)
    obtain ⟨y, hy, hz⟩ := counted_of_rounds args hc hi hu' hrounds
    have hless := gives_less args hc hi hz
    simp only [Int64.lt_iff_toInt_lt] at hless
    exact ⟨y, hz.slot hi, hy, hless⟩

end Counting

/-- A loop up to the greatest machine integer; its variable begins with a text. -/
def topmost : Graph where
  nodes := #[⟨.variable, [.str "many"], ⟨"i", "sample"⟩, .here⟩,
    ⟨.store, [.node ⟨0, "i"⟩, .int 9223372036854775805], ⟨"start", "sample"⟩, .here⟩,
    ⟨.compare .less, [.node ⟨0, "i"⟩, .int 9223372036854775807], ⟨"less", "sample"⟩, .here⟩,
    ⟨.arithmetic .add, [.node ⟨0, "i"⟩, .int 1], ⟨"next", "sample"⟩, .here⟩,
    ⟨.store, [.node ⟨0, "i"⟩, .node ⟨3, "next"⟩], ⟨"step", "sample"⟩, .here⟩,
    ⟨.forLoop, [.node ⟨1, "start"⟩, .node ⟨2, "less"⟩, .node ⟨4, "step"⟩, .node ⟨0, "i"⟩],
      ⟨"for", "sample"⟩, .here⟩]

/-- It ends with the last integer but one, and leaves the last one in the variable. -/
theorem topmost_counted : ∃ z, topmost.Evaluates (.node ⟨5, "for"⟩) [] ⟨#[.str "many"], #[]⟩
    (.ok (.int 9223372036854775806)) z ∧ z.slots = #[.int 9223372036854775807] := by
  have hhere : Locality.here.Served := served_of_inline rfl
  have hc : topmost.Counts
      ⟨⟨0, "i"⟩, ⟨1, "start"⟩, ⟨2, "less"⟩, ⟨3, "next"⟩, ⟨4, "step"⟩, ⟨5, "for"⟩⟩ _
      9223372036854775805 9223372036854775807 :=
    ⟨⟨_, _, rfl, hhere, rfl, rfl⟩, ⟨_, rfl, hhere, rfl, rfl⟩, ⟨_, rfl, hhere, rfl, rfl⟩,
      ⟨_, rfl, hhere, rfl, rfl⟩, ⟨_, rfl, hhere, rfl, rfl⟩, ⟨rfl, hhere, rfl, rfl⟩⟩
  obtain ⟨-, ⟨z, -, hv, hz, -⟩, -⟩ :=
    @counting_loop _ [] ⟨#[.str "many"], #[]⟩ _ _ _ _ hc (by decide)
  exact ⟨z, hv, hz⟩

end ArrayGraph
