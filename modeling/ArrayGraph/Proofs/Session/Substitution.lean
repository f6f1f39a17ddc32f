import ArrayGraph.Proofs.Evaluation.Footprint
import ArrayGraph.Proofs.Evaluation.Threading
import ArrayGraph.Proofs.Session.Program
/-!
# Arguments in the place of their nodes

To call a graph with arguments is to put the arguments where the graph has handles to
the nodes that give them. `Session.fillAll` does so in a program: an operand that is a
handle to such a node becomes the argument, except that a node's number of an argument
is left as it is. `Session.Filled` relates the sessions of the two programs, and
`arguments_filled_in` says that they stay so related and that all answers are the same.

The nodes that give arguments have to be run by the thread that waits for them: what is filled
in is there at once, and what a pool runs may be late (`racing_late`).
-/

namespace ArrayGraph

/-! ## Filling in -/

/-- The number of the argument that the node gives, if it gives one. -/
def Node.argumentIndex? (n : Node) : Option Nat :=
  if n.primitive = .argument then
    (n.operands.head?.bind (·.asInt?)).map fun i => i.toInt.toNat
  else none

/-- The argument that the operand stands for, if it is a handle to a node that gives
one of these. -/
def Graph.argument? (g : Graph) (args : List Value) (v : Value) : Option Value :=
  match v with
  | .node h => ((g.node? h).bind Node.argumentIndex?).bind fun i => args[i]?
  | _ => none

/-- The operand, or the argument that it stands for. -/
def Graph.fill (g : Graph) (args : List Value) (v : Value) : Value := (g.argument? args v).getD v

/-- The node with its operands filled in. What numbers an argument stays. -/
def Node.filled (g : Graph) (args : List Value) (n : Node) : Node :=
  if n.primitive = .argument then n else { n with operands := n.operands.map (g.fill args) }

def Graph.filled (g : Graph) (args : List Value) : Graph := ⟨g.nodes.map (Node.filled g args)⟩

/-- The second session is the first with arguments filled in. -/
structure Session.Filled (args : List Value) (s s' : Session) : Prop where
  registry : s'.registry = s.registry
  graph : s'.graph = s.graph.filled args
  slots : s'.world.slots = s.world.slots.map (s.graph.fill args)

namespace Session

/-- Whether nodes of the pattern give arguments. -/
def givesArguments (s : Session) (name : String) : Bool :=
  (s.registry.get? name).any (·.primitive == .argument)

/-- The operands of a new node, filled in. -/
def fillOperands (s : Session) (args : List Value) (name : String) (operands : List Value) :
    List Value :=
  if s.givesArguments name then operands else operands.map (s.graph.fill args)

def fillRequest (s : Session) (args : List Value) : Request → Request
  | .create name operands locality codename =>
    .create name (s.fillOperands args name operands) locality codename
  | .createNamed name operands locality site =>
    .createNamed name (s.fillOperands args name operands) locality site
  | .evaluate v as => .evaluate v as

/-- The session with the node that a request asks for, and the slots as they were. -/
def next (s : Session) : Request → Session
  | .create name operands locality codename => (s.create name operands locality codename).2
  | .createNamed name operands locality site => (s.createNamed name operands locality site).2
  | .evaluate _ _ => s

/-- A program with its operands filled in. -/
def fillAll (args : List Value) : Session → List Request → List Request
  | _, [] => []
  | s, q :: requests => s.fillRequest args q :: fillAll args (s.next q) requests

/-- Handles are to nodes that are there, those that give arguments are run by the thread that
waits for them, and evaluations are under these arguments. -/
def Admits (s : Session) (args : List Value) : Request → Prop
  | .create name operands locality _ | .createNamed name operands locality _ =>
    (∀ v ∈ operands, v.Below s.graph.nodes.size) ∧
      (s.givesArguments name = true → locality.Near)
  | .evaluate v as => v.Below s.graph.nodes.size ∧ as = args

def AdmitsAll (args : List Value) : Session → List Request → Prop
  | _, [] => True
  | s, q :: requests => s.Admits args q ∧ AdmitsAll args (s.next q) requests

end Session

variable {g : Graph} {args : List Value} {v a : Value}

theorem argumentIndex?_eq_some {n : Node} {i : Nat} : n.argumentIndex? = some i ↔
    n.primitive = .argument ∧
      ∃ x, n.operands.head?.bind (·.asInt?) = some x ∧ x.toInt.toNat = i := by
  unfold Node.argumentIndex?
  split
  · rename_i hp
    simp only [Option.map_eq_some_iff, hp, true_and]
  · rename_i hp
    simp [hp]

theorem argument?_eq_some : g.argument? args v = some a ↔
    ∃ h n i, v = .node h ∧ g.node? h = some n ∧ n.argumentIndex? = some i ∧ args[i]? = some a := by
  cases v with
  | node h =>
    simp only [Graph.argument?, Option.bind_eq_some_iff]
    constructor
    · rintro ⟨i, ⟨n, hn, hi⟩, ha⟩
      exact ⟨h, n, i, rfl, hn, hi, ha⟩
    · rintro ⟨_, n, i, he, hn, hi, ha⟩
      cases he
      exact ⟨i, ⟨n, hn, hi⟩, ha⟩
  | _ => simp [Graph.argument?]

/-- A value is left as it is, or an argument takes the place of a handle to its node. -/
theorem fill_cases (g : Graph) (args : List Value) (v : Value) :
    g.fill args v = v ∨ ∃ a, g.argument? args v = some a ∧ g.fill args v = a := by
  unfold Graph.fill
  cases g.argument? args v with
  | none => exact .inl rfl
  | some a => exact .inr ⟨a, rfl, rfl⟩

theorem fill_of_plain (h : v.Plain) : g.fill args v = v := by
  cases v with
  | node k => cases h
  | _ => rfl

theorem fill_of_isVariable (h : g.isVariable v = true) : g.fill args v = v := by
  rcases fill_cases g args v with he | ⟨a, ha, -⟩
  · exact he
  · obtain ⟨k, n, i, rfl, hn, hi, -⟩ := argument?_eq_some.1 ha
    simp [Graph.isVariable, hn, (argumentIndex?_eq_some.1 hi).1] at h

/-- A new node changes nothing for operands that were there before it. -/
theorem fill_add (n : Node) (hv : v.Below g.nodes.size) :
    (g.add n).2.fill args v = g.fill args v := by
  cases v with
  | node h =>
    have hn : (g.add n).2.node? h = g.node? h := by
      have := hv h rfl
      simp only [Graph.node?, Graph.add, Array.getElem?_push]
      rw [if_neg (by omega)]
    simp only [Graph.fill, Graph.argument?, hn]
  | _ => rfl

@[simp] theorem filled_primitive (g : Graph) (args : List Value) (n : Node) :
    (n.filled g args).primitive = n.primitive := by
  unfold Node.filled
  split <;> rfl

@[simp] theorem filled_site (g : Graph) (args : List Value) (n : Node) :
    (n.filled g args).site = n.site := by
  unfold Node.filled
  split <;> rfl

@[simp] theorem filled_locality (g : Graph) (args : List Value) (n : Node) :
    (n.filled g args).locality = n.locality := by
  unfold Node.filled
  split <;> rfl

theorem node?_filled (g : Graph) (args : List Value) (h : Handle) :
    (g.filled args).node? h = (g.node? h).map (Node.filled g args) :=
  Array.getElem?_map ..

@[simp] theorem size_filled (g : Graph) (args : List Value) :
    (g.filled args).nodes.size = g.nodes.size := Array.size_map ..

theorem slot_map_fill {w w' : World} (h : w'.slots = w.slots.map (g.fill args)) (i : Nat) :
    w'.slot i = g.fill args (w.slot i) := by
  simp only [World.slot, h, Array.getElem?_map]
  cases w.slots[i]? <;> rfl

/-! ## Evaluations -/

/-- The job of a node that gives this argument. -/
inductive Job.Fetches (args : List Value) (a : Value) : Job → Prop
  | start {n content i} : n.argumentIndex? = some i → args[i]? = some a →
      Fetches args a (.start n content args)

theorem Job.Fetches.step {j : Job} (h : j.Fetches args a) (ha : a.Plain) (w : World) :
    j.step g w = (.moved (.done (.ok a)), w) := by
  obtain ⟨hi, hx⟩ := h
  obtain ⟨hp, x, hx', rfl⟩ := argumentIndex?_eq_some.1 hi
  simp only [Job.step, Node.run, hp, hx', hx]
  cases a with
  | node h => cases ha
  | _ => rfl

/-- What matches under a call with these arguments. -/
def Graph.calling (g : Graph) (args : List Value) : Matching where
  value as v v' := (v.Plain ∧ v' = v) ∨
    (as = args ∧ v.Below g.nodes.size ∧ (v' = v ∨ v' = g.fill args v))
  world w w' := (∀ i, (w.slot i).Below g.nodes.size) ∧ w'.slots = w.slots.map (g.fill args)
  leaf j j' := ∃ a, a.Plain ∧ j.Fetches args a ∧ j' = .done (.ok a)
  strict := True
  carries := False

theorem below_of_kept {S : Scope} {w z : World} {n : Nat} (hb : ∀ i, (w.slot i).Below n)
    (hk : w.Kept S z) (i : Nat) : (z.slot i).Below n := by
  rcases hk.slot i with e | ⟨-, hp⟩
  · rw [e]
    exact hb i
  · intro h he
    rw [he] at hp
    cases hp

section Calls

variable {w w' : World} (hs : g.Sound w) (ha : ∀ a ∈ args, a.Plain)
  (hnear : ∀ n ∈ g.nodes, n.primitive = .argument → n.locality.Near)

include hs in
/-- Matching operands of a node and of that node filled in. -/
theorem filled_matched {n : Node} {i : Nat} (hn : g.nodes[i]? = some n) :
    n.Matched (g.calling args) args (n.filled g args) := by
  have hm : n ∈ g.nodes := Array.mem_of_getElem? hn
  have hi : i < g.nodes.size := (Array.getElem?_eq_some_iff.1 hn).1
  have hbelow : ∀ v ∈ n.operands, v.Below g.nodes.size := fun v hv h he =>
    Nat.lt_trans (hs.ordered i n hn v hv h he) hi
  refine ⟨filled_primitive .., filled_site .., ?_, fun hread => ?_,
    fun _ => by rw [filled_locality],
    fun _ => complete_of_check (hs.builtin n hm) (hs.checked n hm)⟩
  · unfold Node.filled
    split
    · exact List.forall₂_same.2 fun v hv => .inr ⟨rfl, hbelow v hv, .inl rfl⟩
    · rw [List.forall₂_map_right_iff]
      exact List.forall₂_same.2 fun v hv => .inr ⟨rfl, hbelow v hv, .inr rfl⟩
  · unfold Node.filled
    split
    · rfl
    · -- of the built-in primitives, only a store is left to look at its first operand
      have hb := hs.builtin n hm
      cases hp : n.primitive with
      | argument => exact absurd hp ‹_›
      | store =>
        have htarget := (check_eq_ok_iff.1 (hs.checked n hm)).2.2.1 hp
        cases ho : n.operands with
        | nil => rfl
        | cons target rest => simp [fill_of_isVariable (htarget target (by rw [ho]; rfl))]
      | trace | echo => rw [hp] at hb; cases hb
      | _ => rw [hp] at hread; cases hread

include hs ha

/-- A node is launched like that node filled in. -/
theorem launch_node_filled {h : Handle} {u u' : World} (hh : h.index < g.nodes.size)
    (hu : (g.calling args).world u u') :
    (g.launch (.node h) args u).1.Matched (g.calling args)
        ((g.filled args).launch (.node h) args u').1 ∧
      (g.calling args).world (g.launch (.node h) args u).2
        ((g.filled args).launch (.node h) args u').2 := by
  obtain ⟨n, hn⟩ : ∃ n, g.node? h = some n := ⟨_, Array.getElem?_eq_getElem hh⟩
  have hstart : (Job.start n (u.slot h.index) args).Matched (g.calling args)
      (.start (n.filled g args) (u'.slot h.index) args) := by
    refine .start (filled_matched hs hn) (fun _ => ?_) fun a hm => .inl ⟨ha a hm, rfl⟩
    exact .inr ⟨rfl, hu.1 _, .inr (slot_map_fill hu.2 _)⟩
  simp only [Graph.launch, node?_filled, hn, Option.map_some, Locality.dispatch, filled_locality,
    filled_site]
  cases n.locality.transport with
  | inline => exact ⟨hstart, hu⟩
  | recorder line => exact ⟨hstart, hu⟩
  | pool size name =>
    dsimp only
    split
    · exact ⟨.placed hstart, hu⟩
    · exact ⟨.done (allows_fail fun _ => Cause.noConfusion), hu⟩

omit hs in
include hnear in
/-- A handle to a node that gives an argument is launched like the argument. -/
theorem launch_argument_filled {u u' : World} (hu : (g.calling args).world u u')
    (hv : g.argument? args v = some a) :
    (g.launch v args u).1.Matched (g.calling args) ((g.filled args).launch a args u').1 ∧
      (g.calling args).world (g.launch v args u).2 ((g.filled args).launch a args u').2 := by
  obtain ⟨h, n, i, rfl, hn, hi, hx⟩ := argument?_eq_some.1 hv
  have hp : a.Plain := ha a (List.mem_of_getElem? hx)
  have hlaunch : (g.filled args).launch a args u' = (.done (.ok a), u') := by
    cases a with
    | node h => cases hp
    | _ => rfl
  have hgives : (Job.start n (u.slot h.index) args).Fetches args a := .start hi hx
  rw [hlaunch]
  simp only [Graph.launch, hn, Locality.dispatch]
  cases ht : n.locality.transport with
  | inline => exact ⟨.leaf ⟨a, hp, hgives, rfl⟩, hu⟩
  | recorder line => exact ⟨.leaf ⟨a, hp, hgives, rfl⟩, hu⟩
  | pool size name =>
    exact absurd ht (hnear n (Array.mem_of_getElem? hn) (argumentIndex?_eq_some.1 hi).1 size name)

include hnear in
theorem calling_threaded : (g.calling args).Threaded g (g.filled args) where
  launch {v v' as u u'} hv _ hu := by
    have hplain : v.Plain → (g.launch v as u).1.Matched (g.calling args)
          ((g.filled args).launch v as u').1 ∧
        (g.calling args).world (g.launch v as u).2 ((g.filled args).launch v as u').2 := by
      intro hp
      cases v with
      | node h => cases hp
      | _ => exact ⟨.done (allows_plain hp), hu⟩
    rcases hv with ⟨hp, rfl⟩ | ⟨rfl, hbelow, rfl | rfl⟩
    · exact hplain hp
    · cases v' with
      | node h => exact launch_node_filled hs ha (hbelow h rfl) hu
      | _ => exact hplain rfl
    · rcases fill_cases g as v with he | ⟨a, hv, he⟩ <;> rw [he]
      · cases v with
        | node h => exact launch_node_filled hs ha (hbelow h rfl) hu
        | _ => exact hplain rfl
      · exact launch_argument_filled ha hnear hu hv
  setSlot {i v u u'} hv hu := by
    have hp : v.Plain := (hv trivial).1
    refine ⟨below_of_kept hu.1 (World.kept_setSlot (S := .all) u trivial hp), ?_⟩
    simp only [World.setSlot, hu.2, Array.map_setIfInBounds, fill_of_plain hp]
  write hu := hu
  leaf := by
    rintro _ _ u u' ⟨a, hp, hgives, rfl⟩ hu
    exact ⟨_, _, .later (hgives.step hp u) (.now rfl), .finished (allows_plain hp), hu⟩
  uncarried := id
  single := by
    rintro _ _ ⟨a, -, ⟨-, -⟩, rfl⟩
    exact ⟨trivial, trivial⟩
  ahead := by
    rintro _ _ u u' ⟨a, hp, hgives, rfl⟩ hu
    rw [hgives.step hp u]
    exact ⟨_, rfl, .done (allows_plain hp), hu⟩

end Calls

/-! ## Building nodes -/

/-- The session builds built-in primitives, its handles are to nodes that are there, and
its nodes that give arguments are run by the thread that waits for them. -/
structure Session.Callable (s : Session) : Prop where
  builtin : ∀ p ∈ s.registry.patterns, p.primitive.isBuiltin = true
  sound : s.graph.Sound s.world
  below : ∀ i, (s.world.slot i).Below s.graph.nodes.size
  near : ∀ n ∈ s.graph.nodes, n.primitive = .argument → n.locality.Near

theorem isValid_fill (ha : ∀ a ∈ args, a.isValid = true) (v : Value) :
    (g.fill args v).isValid = v.isValid := by
  rcases fill_cases g args v with he | ⟨a, hv, he⟩ <;> rw [he]
  obtain ⟨k, n, i, rfl, -, -, hx⟩ := argument?_eq_some.1 hv
  exact ha a (List.mem_of_getElem? hx)

theorem isVariable_fill (ha : ∀ a ∈ args, a.Plain) (v : Value) :
    (g.filled args).isVariable (g.fill args v) = g.isVariable v := by
  rcases fill_cases g args v with he | ⟨a, hv, he⟩ <;> rw [he]
  · cases v with
    | node h =>
      simp only [Graph.isVariable, node?_filled, Option.any_map]
      congr
      funext n
      simp
    | _ => rfl
  · obtain ⟨k, n, i, rfl, hn, hi, hx⟩ := argument?_eq_some.1 hv
    have hp := ha a (List.mem_of_getElem? hx)
    simp only [Graph.isVariable, hn, Option.any_some, (argumentIndex?_eq_some.1 hi).1]
    cases a with
    | node h => cases hp
    | _ => rfl

/-- Filling in arguments makes no difference to the check. -/
theorem check_filled (ha : ∀ a ∈ args, a.Plain ∧ a.isValid = true) (n : Node) :
    (g.filled args).check n.primitive (n.filled g args).operands =
      g.check n.primitive n.operands := by
  obtain ⟨p, operands, site, locality⟩ := n
  unfold Node.filled
  dsimp only
  split
  · rename_i hp
    subst hp
    unfold Graph.check
    cases operands <;> rfl
  · rename_i hp
    have hany : (operands.map (g.fill args)).any (!·.isValid) = operands.any (!·.isValid) := by
      rw [List.any_map]
      congr
      funext v
      exact congrArg (!·) (isValid_fill (fun a hm => (ha a hm).2) v)
    unfold Graph.check
    rw [hany, List.length_map]
    cases p with
    | argument => exact absurd rfl hp
    | store =>
      cases operands with
      | nil => rfl
      | cons v rest =>
        simp only [List.map_cons, isVariable_fill (fun a hm => (ha a hm).1) v]
    | _ => rfl

theorem filled_of_add (m : Node) {n : Node} (hn : ∀ v ∈ n.operands, v.Below g.nodes.size) :
    n.filled (g.add m).2 args = n.filled g args := by
  unfold Node.filled
  split
  · rfl
  · rw [List.map_congr_left fun v hv => fill_add m (hn v hv)]

/-- A filled in node may be added to the filled in graph. -/
theorem filled_add {w : World} (hs : g.Sound w) {n : Node}
    (hn : ∀ v ∈ n.operands, v.Below g.nodes.size) (args : List Value) :
    ((g.filled args).add (n.filled g args)).2 = (g.add n).2.filled args := by
  have hold : g.nodes.map (Node.filled (g.add n).2 args) = g.nodes.map (Node.filled g args) := by
    refine Array.map_congr_left fun m hm => filled_of_add n fun v hv h he => ?_
    obtain ⟨i, hi⟩ := Array.getElem?_of_mem hm
    exact Nat.lt_trans (hs.ordered i m hi v hv h he) (Array.getElem?_eq_some_iff.1 hi).1
  have hnew : n.filled (g.add n).2 args = n.filled g args := filled_of_add n hn
  simp only [Graph.filled, Graph.add] at hold hnew ⊢
  rw [Array.map_push, hold, hnew]

theorem fillOperands_eq {s : Session} {name : String} {p : Pattern}
    (hp : s.registry.get? name = some p) (args operands : List Value) (locality : Locality)
    (site : Site) : Node.filled s.graph args ⟨p.primitive, operands, site, locality⟩ =
      ⟨p.primitive, s.fillOperands args name operands, site, locality⟩ := by
  have hgives : s.givesArguments name = (p.primitive == .argument) := by
    simp only [Session.givesArguments, hp, Option.any_some]
  unfold Session.fillOperands Node.filled
  rw [hgives]
  by_cases ha : p.primitive = .argument <;> simp [ha]

theorem initialSlot_filled (g : Graph) (args : List Value) (n : Node) :
    Session.initialSlot n.primitive (n.filled g args).operands =
      g.fill args (Session.initialSlot n.primitive n.operands) := by
  unfold Session.initialSlot Node.filled
  split
  · rename_i hp
    rw [if_neg (by simp [hp]), List.head?_map]
    cases n.operands.head? <;> rfl
  · rfl

theorem below_initialSlot {n : Nat} (p : Primitive) {operands : List Value}
    (h : ∀ v ∈ operands, v.Below n) : (Session.initialSlot p operands).Below n := by
  unfold Session.initialSlot
  split
  · cases operands with
    | nil => exact nofun
    | cons v rest => exact h v List.mem_cons_self
  · exact nofun

theorem slot_push (w : World) (v : Value) (i : Nat) :
    ({ w with slots := w.slots.push v } : World).slot i =
      if i = w.slots.size then v else w.slot i := by
  simp only [World.slot, Array.getElem?_push]
  split <;> rfl

theorem callable_createNamed {s : Session} (hs : s.Callable) {name : String}
    {operands : List Value} {locality : Locality} {site : Site}
    (hbelow : ∀ v ∈ operands, v.Below s.graph.nodes.size)
    (hnear : s.givesArguments name = true → locality.Near) :
    (s.createNamed name operands locality site).2.Callable := by
  have hsound : (s.createNamed name operands locality site).2.graph.Sound
      (s.createNamed name operands locality site).2.world :=
    createNamed_sound hs.sound hs.builtin hbelow
  cases hp : s.registry.get? name with
  | none =>
    simp only [Session.createNamed, hp]
    exact hs
  | some p =>
    cases hc : s.graph.check p.primitive operands with
    | error cause =>
      simp only [Session.createNamed, hp, Graph.build, hc]
      exact hs
    | ok u =>
      rw [createNamed_eq hp hc] at hsound ⊢
      refine ⟨hs.builtin, hsound, fun i => ?_, fun n hn hprim => ?_⟩
      · intro h he
        rw [slot_push] at he
        have hlt : h.index < s.graph.nodes.size := by
          split at he
          · exact below_initialSlot _ hbelow h he
          · exact hs.below i h he
        exact Nat.lt_of_lt_of_eq (Nat.lt_succ_of_lt hlt) (Array.size_push ..).symm
      · rcases Array.mem_push.1 hn with hn | rfl
        · exact hs.near n hn hprim
        · exact hnear (by simpa [Session.givesArguments, hp] using hprim)

/-- A node is built or refused like that node filled in. -/
theorem filled_createNamed {s s' : Session} (hf : s.Filled args s') (hs : s.Callable)
    (ha : ∀ a ∈ args, a.Plain ∧ a.isValid = true) (name : String) {operands : List Value}
    (hbelow : ∀ v ∈ operands, v.Below s.graph.nodes.size) (locality : Locality) (site : Site) :
    (s'.createNamed name (s.fillOperands args name operands) locality site).1 =
        (s.createNamed name operands locality site).1 ∧
      (s.createNamed name operands locality site).2.Filled args
        (s'.createNamed name (s.fillOperands args name operands) locality site).2 := by
  obtain ⟨registry, graph, world⟩ := s'
  obtain ⟨rfl, rfl, hslots⟩ := id hf
  cases hp : s.registry.get? name with
  | none =>
    simp only [Session.createNamed, hp]
    exact ⟨trivial, hf⟩
  | some p =>
    have hnode := fillOperands_eq hp args operands locality site
    have hcheck := check_filled (g := s.graph) ha ⟨p.primitive, operands, site, locality⟩
    rw [hnode] at hcheck
    cases hc : s.graph.check p.primitive operands with
    | error cause =>
      rw [hc] at hcheck
      simp only [Session.createNamed, hp, Graph.build, hc, hcheck]
      exact ⟨trivial, hf⟩
    | ok u =>
      rw [hc] at hcheck
      rw [createNamed_eq hp hc,
        createNamed_eq (s := ⟨s.registry, s.graph.filled args, world⟩) hp hcheck]
      refine ⟨by rw [size_filled], rfl, ?_, ?_⟩
      · have hadd := filled_add hs.sound (n := ⟨p.primitive, operands, site, locality⟩) hbelow args
        rw [hnode] at hadd
        exact hadd
      · have hslot : Session.initialSlot p.primitive (s.fillOperands args name operands) =
            (s.graph.add ⟨p.primitive, operands, site, locality⟩).2.fill args
              (Session.initialSlot p.primitive operands) := by
          rw [fill_add _ (below_initialSlot _ hbelow)]
          have hinitial := initialSlot_filled s.graph args ⟨p.primitive, operands, site, locality⟩
          rwa [hnode] at hinitial
        dsimp only
        rw [Array.map_push, hslot, hslots]
        congr 1
        refine Array.map_congr_left fun v hv => (fill_add _ ?_).symm
        obtain ⟨i, hi⟩ := Array.getElem?_of_mem hv
        have hbelow := hs.below i
        rwa [World.slot, hi] at hbelow

/-! ## Programs -/

/-- What the slots hold has no part in what a session builds. -/
theorem createNamed_of_world (s : Session) (w : World) (name : String) (operands : List Value)
    (locality : Locality) (site : Site) :
    (({ s with world := w } : Session).createNamed name operands locality site).2.graph =
      (s.createNamed name operands locality site).2.graph := by
  unfold Session.createNamed
  dsimp only
  split
  · rfl
  · split <;> rfl

theorem does_next {ends : Evaluator} {s t u : Session} {q : Session.Request}
    {answer : Session.Answer} (hr : t.registry = s.registry) (hg : t.graph = s.graph)
    (hd : t.Does ends q answer u) :
    u.registry = (s.next q).registry ∧ u.graph = (s.next q).graph := by
  obtain ⟨_, _, w⟩ := t
  cases hr
  cases hg
  cases hd with
  | create =>
    simp only [Session.next, Session.create, createNamed_registry, true_and]
    exact createNamed_of_world { s with registry := _ } ..
  | createNamed =>
    simp only [Session.next, createNamed_registry, true_and]
    exact createNamed_of_world ..
  | evaluate _ => exact ⟨rfl, rfl⟩

section Programs

variable {ends : Evaluator} (he : ends = Graph.Evaluates ∨ ends = Graph.MayEvaluate)

include he

/-- However evaluations come to their ends, slots change to values that are no handles. -/
theorem ends_kept {v : Value} {as : List Value} {w z : World} {r : Outcome} (ht : g.Tame)
    (h : ends g v as w r z) : w.Kept .all z := by
  have hz : g.Schedules v as w (.done r) z := by
    rcases he with rfl | rfl
    · exact schedules_of_evaluates h
    · exact h
  exact (schedules_within (ht.closed_all w) trivial (within_all v) (given_all as) hz).2

theorem ends_matched {M : Matching} {g' : Graph} {v v' : Value} {as : List Value} {w w' : World}
    {r : Outcome} (T : M.Threaded g g') (hv : M.value as v v') (ha : M.Supplied as)
    (hw : M.world w w') :
    (∀ z', ends g' v' as w' r z' → ∃ z, ends g v as w r z ∧ M.world z z') ∧
      ∀ z, ends g v as w r z → ∃ z', ends g' v' as w' r z' ∧ M.world z z' := by
  rcases he with rfl | rfl
  · exact evaluates_matched T.toLawful hv ha hw
  · exact schedules_matched T hv ha hw

theorem callable_does {s t : Session} (hs : s.Callable) {q : Session.Request}
    (hq : s.Admits args q) {answer : Session.Answer} (hd : s.Does ends q answer t) :
    t.Callable := by
  cases hd with
  | @create name =>
    exact callable_createNamed (s := { s with registry := (s.registry.nextName name).2 })
      ⟨hs.builtin, hs.sound, hs.below, hs.near⟩ hq.1 hq.2
  | createNamed => exact callable_createNamed hs hq.1 hq.2
  | evaluate h =>
    have hk := ends_kept he hs.sound.tame h
    exact ⟨hs.builtin, hs.sound.kept hk, below_of_kept hs.below hk, hs.near⟩

variable (ha : ∀ a ∈ args, a.Plain ∧ a.isValid = true)

include ha

theorem alike_filled {s s' : Session} (hs : s.Callable) (hf : s.Filled args s')
    {q : Session.Request} (hq : s.Admits args q) :
    s.Alike ends (Session.Filled args) s' q (s.fillRequest args q) := by
  cases q with
  | create name operands locality codename =>
    -- only the number of the next instance is new to the registries
    have hnext : Session.Filled args { s with registry := (s.registry.nextName name).2 }
        { s' with registry := (s.registry.nextName name).2 } := ⟨rfl, hf.graph, hf.slots⟩
    obtain ⟨hanswer, hfilled⟩ := filled_createNamed hnext
      ⟨hs.builtin, hs.sound, hs.below, hs.near⟩ ha name hq.1 locality
      ⟨(s.registry.nextName name).1.text, codename⟩
    refine alike_create ?_ ?_ <;> simp only [Session.create, hf.registry]
    · exact hanswer
    · exact hfilled
  | createNamed name operands locality site =>
    obtain ⟨hanswer, hfilled⟩ := filled_createNamed hf hs ha name hq.1 locality site
    exact alike_createNamed hanswer hfilled
  | evaluate v as =>
    obtain ⟨hbelow, rfl⟩ : v.Below s.graph.nodes.size ∧ as = args := hq
    have hplain : ∀ a ∈ as, a.Plain := fun a hm => (ha a hm).1
    have hv : (s.graph.calling as).value as v v := .inr ⟨rfl, hbelow, .inl rfl⟩
    have hev : ∀ r, _ := fun r => ends_matched he (calling_threaded hs.sound hplain hs.near)
      (r := r) hv (fun a hm => .inl ⟨hplain a hm, rfl⟩) ⟨hs.below, hf.slots⟩
    rw [← hf.graph] at hev
    constructor
    · intro answer t hd
      cases hd with
      | evaluate h =>
        obtain ⟨z, hz, -, hslots⟩ := (hev _).2 _ h
        exact ⟨_, .evaluate hz, hf.registry, hf.graph, hslots⟩
    · intro answer t' hd
      cases hd with
      | evaluate h =>
        obtain ⟨z, hz, -, hslots⟩ := (hev _).1 _ h
        exact ⟨_, .evaluate hz, hf.registry, hf.graph, hslots⟩

/-- The filled in program goes by the graph alone, which evaluations leave as it is. -/
theorem replays_filled {requests : List Session.Request} {s t t' : Session} (ht : t.Callable)
    (hq : s.AdmitsAll args requests) (hr : t.registry = s.registry) (hg : t.graph = s.graph)
    (hf : t.Filled args t') :
    t.Replays ends (Session.Filled args) t' requests (s.fillAll args requests) := by
  induction requests generalizing s t t' with
  | nil => exact replays_nil
  | cons q requests ih =>
    obtain ⟨hq, hrest⟩ := hq
    have hadmits : t.Admits args q := by
      obtain ⟨_, _, w⟩ := t
      cases hr
      cases hg
      cases q <;> exact hq
    have hfill : t.fillRequest args q = s.fillRequest args q := by
      obtain ⟨_, _, w⟩ := t
      cases hr
      cases hg
      cases q <;> rfl
    refine replays_cons (hfill ▸ alike_filled he ha ht hf hadmits) fun answer u u' hd hu => ?_
    obtain ⟨hr', hg'⟩ := does_next hr hg hd
    exact ih (callable_does he ht hadmits hd) hrest hr' hg' hu

theorem replays_ofRegistry (registry : Registry) (requests : List Session.Request)
    (hb : ∀ p ∈ registry.patterns, p.primitive.isBuiltin = true)
    (hq : (Session.ofRegistry registry).AdmitsAll args requests) :
    (Session.ofRegistry registry).Replays ends (Session.Filled args) (.ofRegistry registry) requests
      ((Session.ofRegistry registry).fillAll args requests) := by
  refine replays_filled he ha ⟨hb, sound_empty, fun i h he => ?_, ?_⟩ hq rfl rfl ⟨rfl, ?_, ?_⟩
  · simp [Session.ofRegistry, World.slot, World.empty] at he
  all_goals simp [Session.ofRegistry, Graph.empty, Graph.filled, World.empty]

end Programs

/-- Under arguments that are neither empty nor handles, a program gets the answers that it
gets with the arguments filled in, whether it builds nodes or evaluates operands, and the
slots of the one are those of the other filled in. That is so in the turns of the callers,
and with localities that pools run, it gets any answers under some schedule that it may get
with the arguments filled in, and no others. -/
theorem arguments_filled_in (registry : Registry) (args : List Value)
    (requests : List Session.Request)
    (hb : ∀ p ∈ registry.patterns, p.primitive.isBuiltin = true)
    (ha : ∀ a ∈ args, a.Plain ∧ a.isValid = true)
    (hq : (Session.ofRegistry registry).AdmitsAll args requests) :
    let session := Session.ofRegistry registry
    session.Replays Graph.Evaluates (Session.Filled args) session requests
        (session.fillAll args requests) ∧
      session.Replays Graph.MayEvaluate (Session.Filled args) session requests
        (session.fillAll args requests) :=
  ⟨replays_ofRegistry (.inl rfl) ha registry requests hb hq,
    replays_ofRegistry (.inr rfl) ha registry requests hb hq⟩

/-! ## A variable that holds an argument -/

namespace Session

/-- The program that builds the sample and evaluates its variable. -/
def sampleProgram (locality : Locality) (initial : Value) : List Request :=
  [.createNamed "access_argument" [.int 0] locality ⟨"first", "sample"⟩,
    .createNamed "variable" [initial] .here ⟨"slot", "sample"⟩,
    .evaluate (.node ⟨1, "slot"⟩) [.int 7]]

/-- The session with the first node of the sample. -/
def sampleStart (locality : Locality) : Session where
  registry := Registry.empty.registerNew Pattern.slots
  graph := ⟨#[⟨.argument, [.int 0], ⟨"first", "sample"⟩, locality⟩]⟩
  world := ⟨#[.empty], #[]⟩

theorem createNamed_first (locality : Locality) :
    (ofRegistry (Registry.empty.registerNew Pattern.slots)).createNamed "access_argument" [.int 0]
      locality ⟨"first", "sample"⟩ = (.ok ⟨0, "first"⟩, sampleStart locality) := by
  rw [createNamed_eq (get?_slots (p := Pattern.slots[2]) (by decide)) rfl]
  rfl

theorem get?_variable : (Registry.empty.registerNew Pattern.slots).get? "variable" =
    some Pattern.slots[0] := get?_slots (p := Pattern.slots[0]) (by decide)

theorem createNamed_slot (locality : Locality) {initial : Value} (hv : initial.isValid = true) :
    (sampleStart locality).createNamed "variable" [initial] .here ⟨"slot", "sample"⟩ =
      (.ok ⟨1, "slot"⟩, { sampleStart locality with
        graph := ((sampleStart locality).graph.add
          ⟨.variable, [initial], ⟨"slot", "sample"⟩, .here⟩).2
        world := ⟨#[.empty, initial], #[]⟩ }) := by
  have hc : (sampleStart locality).graph.check .variable [initial] = .ok () :=
    check_eq_ok_iff.2 ⟨rfl, fun _ => by simpa using hv, nofun, nofun⟩
  rw [createNamed_eq get?_variable hc]
  rfl

end Session

theorem sample_arguments_filled_in :
    let session := Session.ofRegistry (Registry.empty.registerNew Pattern.slots)
    let args := [Value.int 7]
    let program := Session.sampleProgram .here (.node ⟨0, "first"⟩)
    (∀ p ∈ session.registry.patterns, p.primitive.isBuiltin = true) ∧
    (∀ a ∈ args, a.Plain ∧ a.isValid = true) ∧ session.AdmitsAll args program ∧
    session.fillAll args program = Session.sampleProgram .here (.int 7) ∧
    session.Replays Graph.Evaluates (Session.Filled args) session program
      (session.fillAll args program) ∧
    session.Replays Graph.MayEvaluate (Session.Filled args) session program
      (session.fillAll args program) := by
  intro session args program
  have hb : ∀ p ∈ session.registry.patterns, p.primitive.isBuiltin = true := by
    intro p hp
    rcases Registry.registerNew_patterns hp with hp | hp
    · simp [Registry.empty] at hp
    · exact (by decide : ∀ p ∈ Pattern.slots, p.primitive.isBuiltin = true) p hp
  have ha : ∀ a ∈ args, a.Plain ∧ a.isValid = true := by
    simp [args, Value.Plain, Value.asHandle?, Value.isValid]
  have hq : session.AdmitsAll args program := by
    refine ⟨⟨by simp [Value.Below], fun _ => near_of_inline rfl⟩, ?_⟩
    simp only [Session.next]
    rw [Session.createNamed_first]
    refine ⟨⟨by simp [Value.Below, Session.sampleStart], fun _ => near_of_inline rfl⟩, ?_⟩
    simp only [Session.next]
    rw [Session.createNamed_slot .here rfl]
    exact ⟨⟨by simp [Value.Below, Graph.add, Session.sampleStart], rfl⟩, trivial⟩
  have hfilled : session.fillAll args program = Session.sampleProgram .here (.int 7) := by
    have hvariable : (Session.sampleStart .here).fillOperands args "variable"
        [.node ⟨0, "first"⟩] = [.int 7] := by
      simp only [Session.fillOperands, Session.givesArguments, Session.sampleStart,
        Session.get?_variable]
      rfl
    have hargument : session.fillOperands args "access_argument" [.int 0] = [.int 0] := by
      unfold Session.fillOperands
      split <;> rfl
    simp only [program, Session.sampleProgram, Session.fillAll, Session.fillRequest, Session.next,
      hargument]
    rw [Session.createNamed_first, hvariable]
  exact ⟨hb, ha, hq, hfilled, arguments_filled_in _ args program hb ha hq⟩

/-! ## Where arguments are not to be filled in -/

namespace Session

/-- The program that stores what an argument node on a pool gives, and a number beside it. -/
def racingProgram (stored : Value) : List Request :=
  [.createNamed "access_argument" [.int 0] ⟨⟨1⟩, .pool 2 "locality"⟩ ⟨"first", "sample"⟩,
    .createNamed "variable" [.int 0] .here ⟨"slot", "sample"⟩,
    .createNamed "store" [.node ⟨1, "slot"⟩, stored] .here ⟨"seven", "sample"⟩,
    .createNamed "store" [.node ⟨1, "slot"⟩, .int 5] .here ⟨"five", "sample"⟩,
    .createNamed "parallel_block" [.node ⟨2, "seven"⟩, .node ⟨3, "five"⟩] .here ⟨"both", "sample"⟩,
    .evaluate (.node ⟨4, "both"⟩) [.int 7], .evaluate (.node ⟨1, "slot"⟩) [.int 7]]

def racingStart : Session :=
  ofRegistry (Registry.empty.registerNew (Pattern.slots ++ Pattern.control))

def racingGraph (stored : Value) : Graph where
  nodes := #[⟨.argument, [.int 0], ⟨"first", "sample"⟩, ⟨⟨1⟩, .pool 2 "locality"⟩⟩,
    ⟨.variable, [.int 0], ⟨"slot", "sample"⟩, .here⟩,
    ⟨.store, [.node ⟨1, "slot"⟩, stored], ⟨"seven", "sample"⟩, .here⟩,
    ⟨.store, [.node ⟨1, "slot"⟩, .int 5], ⟨"five", "sample"⟩, .here⟩,
    ⟨.parallelBlock, [.node ⟨2, "seven"⟩, .node ⟨3, "five"⟩], ⟨"both", "sample"⟩, .here⟩]

def racingWorld (slot : Value) : World := ⟨#[.empty, slot, .empty, .empty, .empty], #[]⟩

/-- What the program gets if the variable is left with this value. -/
def racingAnswers (left : Value) : List Answer :=
  [.created (.ok ⟨0, "first"⟩), .created (.ok ⟨1, "slot"⟩), .created (.ok ⟨2, "seven"⟩),
    .created (.ok ⟨3, "five"⟩), .created (.ok ⟨4, "both"⟩), .evaluated (.ok .empty),
    .evaluated (.ok left)]

theorem get?_racing {p : Pattern} (h : p ∈ Pattern.slots ++ Pattern.control) :
    racingStart.registry.get? p.name = some p := Registry.get?_of_names (by decide) h

theorem racing_gets {ends : Evaluator} {stored left : Value} (hv : stored.isValid = true) :
    racingStart.Gets ends (racingProgram stored) (racingAnswers left) ↔
      ∃ z, ends (racingGraph stored) (.node ⟨4, "both"⟩) [.int 7] (racingWorld (.int 0))
          (.ok .empty) z ∧
        ∃ z', ends (racingGraph stored) (.node ⟨1, "slot"⟩) [.int 7] z (.ok left) z' := by
  have hargument := get?_racing (p := Pattern.slots[2]) (by decide)
  have hvariable := get?_racing (p := Pattern.slots[0]) (by decide)
  have hstore := get?_racing (p := Pattern.slots[1]) (by decide)
  have hblock := get?_racing (p := Pattern.control[4]) (by decide)
  refine (gets_createNamed (createNamed_eq hargument rfl)).trans ?_
  refine (gets_createNamed (createNamed_eq (by exact hvariable) (by rfl))).trans ?_
  refine (gets_createNamed (createNamed_eq (by exact hstore) ?_)).trans ?_
  · refine check_eq_ok_iff.2 ⟨rfl, fun _ => ?_, fun _ v h => ?_, nofun⟩
    · simpa [Value.isValid] using hv
    · cases h
      rfl
  refine (gets_createNamed (createNamed_eq (by exact hstore) (by rfl))).trans ?_
  refine (gets_createNamed (createNamed_eq (by exact hblock) (by rfl))).trans ?_
  refine gets_evaluate.trans (exists_congr fun z => and_congr Iff.rfl ?_)
  exact gets_evaluate.trans (exists_congr fun z' => and_iff_left gets_nil)

/-- The pool may be late with the argument, and the number is stored before it. -/
theorem racing_late : (racingGraph (.node ⟨0, "first"⟩)).MayEvaluate (.node ⟨4, "both"⟩) [.int 7]
    (racingWorld (.int 0)) (.ok .empty) (racingWorld (.int 7)) := by
  refine .next (.turn (acts_step _ _)) (.next (.turn (acts_step _ _)) ?_)
  exact .next (.turn (.joined (.waiting .paused))) (scheduled_of_runs ⟨20, rfl⟩)

/-- With the argument filled in, no pool has a part in what these operands reach. -/
theorem racing_filled {v : Value} (hv : v = .node ⟨1, "slot"⟩ ∨ v = .node ⟨4, "both"⟩)
    {i : Int64} {r r' : Outcome} {z z' : World}
    (h : (racingGraph (.int 7)).MayEvaluate v [.int 7] (racingWorld (.int i)) r z)
    (he : (racingGraph (.int 7)).Evaluates v [.int 7] (racingWorld (.int i)) r' z') :
    r = r' ∧ z = z' := by
  have hnear : ((racingGraph (.int 7)).footprint (racingWorld (.int i)) [v, .int 7]).Near
      (racingGraph (.int 7)) := by
    intro k n hk hn
    have hm : k ∈ [1, 2, 3, 4] := by
      rcases hv with rfl | rfl <;> exact mem_of_reaches rfl rfl hk
    simp only [List.mem_cons, List.not_mem_nil, or_false] at hm
    rcases hm with rfl | rfl | rfl | rfl <;> cases hn <;> exact near_of_inline rfl
  have hruns := schedules_near hnear (closed_footprint (by decide)) within_footprint
    given_footprint h
  exact Job.Runs.unique ((hruns r z).1 (runs_done.2 ⟨rfl, rfl⟩)) he

theorem racing_left {left : Value} (h : racingStart.Gets Graph.MayEvaluate
    (racingProgram (.int 7)) (racingAnswers left)) : left = .int 5 := by
  obtain ⟨z, hz, z', hz'⟩ := (racing_gets rfl).1 h
  obtain ⟨-, rfl⟩ := racing_filled (.inr rfl) hz
    (⟨20, rfl⟩ : (racingGraph (.int 7)).Evaluates _ _ _ (.ok .empty) (racingWorld (.int 5)))
  obtain ⟨he, -⟩ := racing_filled (.inl rfl) hz'
    (⟨20, rfl⟩ : (racingGraph (.int 7)).Evaluates _ _ _ (.ok (.int 5)) (racingWorld (.int 5)))
  exact Except.ok.inj he

end Session

/-- Filled in everywhere, a program may get other answers. A handle is no number of an
argument while the argument may be one. A node on a locality that its pool does not have gives
no argument, and one on a locality that it has may give it late. -/
theorem answers_change_if_all_filled_in :
    let session := Session.ofRegistry (Registry.empty.registerNew Pattern.slots)
    let numbered (index : Value) : List Session.Request :=
      [.createNamed "access_argument" [.int 0] .here ⟨"first", "sample"⟩,
        .createNamed "access_argument" [index] .here ⟨"second", "sample"⟩]
    let elsewhere : Locality := ⟨⟨5⟩, .pool 1 "locality"⟩
    (session.Gets Graph.Evaluates (numbered (.node ⟨0, "first"⟩)) [.created (.ok ⟨0, "first"⟩),
      .created (.error (.raised ⟨"second", "sample"⟩ .notAnIndex))] ∧
    session.Gets Graph.Evaluates (numbered (.int 0))
      [.created (.ok ⟨0, "first"⟩), .created (.ok ⟨1, "second"⟩)]) ∧
    (session.Gets Graph.Evaluates (Session.sampleProgram elsewhere (.node ⟨0, "first"⟩))
      [.created (.ok ⟨0, "first"⟩), .created (.ok ⟨1, "slot"⟩),
        .evaluated (.fail ⟨"first", "sample"⟩ (.notHosted ⟨5⟩ 1))] ∧
    session.Gets Graph.Evaluates (Session.sampleProgram elsewhere (.int 7))
      [.created (.ok ⟨0, "first"⟩), .created (.ok ⟨1, "slot"⟩), .evaluated (.ok (.int 7))]) ∧
    Session.racingStart.Gets Graph.MayEvaluate (Session.racingProgram (.node ⟨0, "first"⟩))
      (Session.racingAnswers (.int 7)) ∧
    ¬ Session.racingStart.Gets Graph.MayEvaluate (Session.racingProgram (.int 7))
      (Session.racingAnswers (.int 7)) := by
  intro session numbered elsewhere
  have hargument : (Session.sampleStart .here).registry.get? "access_argument" =
      some Pattern.slots[2] := Session.get?_slots (p := Pattern.slots[2]) (by decide)
  have hrefused : (Session.sampleStart .here).createNamed "access_argument" [.node ⟨0, "first"⟩]
      .here ⟨"second", "sample"⟩ = (.error (.raised ⟨"second", "sample"⟩ .notAnIndex),
        Session.sampleStart .here) := by
    simp only [Session.createNamed, hargument]
    rfl
  refine ⟨⟨?_, ?_⟩, ⟨?_, ?_⟩, ?_, ?_⟩
  · refine (gets_createNamed (Session.createNamed_first .here)).2 ?_
    exact (gets_createNamed hrefused).2 gets_nil
  · refine (gets_createNamed (Session.createNamed_first .here)).2 ?_
    exact (gets_createNamed (createNamed_eq hargument rfl)).2 gets_nil
  · refine (gets_createNamed (Session.createNamed_first elsewhere)).2 ?_
    refine (gets_createNamed (Session.createNamed_slot elsewhere rfl)).2 ?_
    exact gets_evaluate.2 ⟨_, ⟨9, rfl⟩, gets_nil⟩
  · refine (gets_createNamed (Session.createNamed_first elsewhere)).2 ?_
    refine (gets_createNamed (Session.createNamed_slot elsewhere rfl)).2 ?_
    exact gets_evaluate.2 ⟨_, ⟨9, rfl⟩, gets_nil⟩
  · exact (Session.racing_gets rfl).2
      ⟨_, Session.racing_late, _, schedules_of_evaluates ⟨20, rfl⟩⟩
  · intro h
    cases Session.racing_left h

end ArrayGraph
