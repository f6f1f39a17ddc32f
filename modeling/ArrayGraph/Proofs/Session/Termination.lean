import ArrayGraph.Proofs.Evaluation.Matching
import ArrayGraph.Proofs.Evaluation.Pause
import ArrayGraph.Proofs.Evaluation.Reach
/-!
# Evaluations without loops end

Turns end, as `Graph.Grounded.ready` says of the jobs of all operands, and without loops
a job has one turn only. So a graph without loops has no way to evaluate for ever,
although variables evaluate what their slots hold and nodes evaluate what the caller
hands them. No evaluation panics either, since each node has the operands that it reads.
-/

namespace ArrayGraph

variable {g : Graph}

/-- The scope that allows everything but loops. -/
def Scope.loopless : Scope := ⟨fun _ => True, fun _ => True, False, True⟩

theorem Graph.LoopFree.closed (hl : g.LoopFree) (ht : g.Tame) (w : World) :
    Scope.loopless.Closed g w := by
  intro i n _ hn
  have hm := Array.mem_of_getElem? hn
  refine ⟨⟨ht n hm, fun _ _ _ _ => trivial, fun _ _ _ _ => trivial, fun h => ?_,
    fun _ => trivial⟩, fun _ _ _ => trivial⟩
  rw [hl n hm] at h
  cases h

/-- Without loops the first turn of a job is its last. -/
theorem launch_comesTo {w : World} (hg : g.Grounded w) (hl : g.LoopFree) (v : Value)
    (args : List Value) :
    ∃ r z, (g.launch v args w).1.ComesTo g (g.launch v args w).2 (.finished r) z := by
  have hc : Scope.loopless.Closed g w := hl.closed hg.tame w
  have hk : w.Kept .loopless (g.launch v args w).2 := .of_slots (launch_slots ..)
  have hj : (g.launch v args w).1.Within .loopless :=
    launch_within hc (fun _ _ => trivial) fun _ _ _ _ _ => trivial
  obtain ⟨p, z, hcome, hp⟩ := (hg.ready v args w hg).2 _ (hg.kept hk)
  have hin := (comesTo_within hcome hj (hc.kept hk)).1
  cases p with
  | finished r => exact ⟨r, z, hcome⟩
  | moved j => exact hp.elim
  | suspended j => exact hin.1.elim

theorem evaluates_ne_panic {v : Value} {args : List Value} {w z : World} {r : Outcome}
    (hw : g.Sound w) (hv : v.Below g.nodes.size) (ha : ∀ a ∈ args, a.Below g.nodes.size)
    (h : g.Evaluates v args w r z) : r ≠ .error .panic := by
  have hlawful := self_lawful hw.builtin hw.checked hw.below
  exact (evaluates_allowed hlawful (nodewise_value hv) (fun a hm => nodewise_value (ha a hm))
    ⟨rfl, hw.holds⟩ h trivial).2

/-- In a session that creations and evaluations have led to, and whose graph has no
loops, every evaluation of a node comes to a value or an error, whatever nodes its
arguments are handles to. -/
theorem evaluation_ends {s : Session} {v : Value} {args : List Value} (hs : s.Reachable)
    (hl : s.graph.LoopFree) (hv : v.Below s.graph.nodes.size)
    (ha : ∀ a ∈ args, a.Below s.graph.nodes.size) :
    ∃ limit r s', s.evaluate limit v args = some (r, s') ∧
      ((∃ x, r = .ok x) ∨ ∃ e, r = .error (.error e)) := by
  have hw := (reachable_sound hs).1
  obtain ⟨r, z, hc⟩ := launch_comesTo hw.toGrounded hl v args
  obtain ⟨limit, hrun⟩ := (Job.runs_comesTo hc).2 ⟨rfl, rfl⟩
  have he : s.graph.Evaluates v args s.world r z := ⟨limit, hrun⟩
  refine ⟨limit, r, { s with world := z }, ?_, ?_⟩
  · have he : s.graph.evaluate limit v args s.world = some (r, z) := hrun
    simp only [Session.evaluate, he, Option.map_some]
  · rcases r with (e | -) | x
    · exact .inr ⟨e, rfl⟩
    · exact absurd rfl (evaluates_ne_panic hw hv ha he)
    · exact .inl ⟨x, rfl⟩

/-- A variable that is evaluated with a handle to itself as the argument it holds. -/
theorem sample_ends : Session.sample.Reachable ∧ Session.sample.graph.LoopFree ∧
    ∃ limit r s', Session.sample.evaluate limit (.node ⟨1, "slot"⟩) [.node ⟨1, "slot"⟩] =
        some (r, s') ∧ ((∃ x, r = .ok x) ∨ ∃ e, r = .error (.error e)) := by
  have hl : Session.sample.graph.LoopFree := by decide
  have hv : (Value.node ⟨1, "slot"⟩).Below Session.sample.graph.nodes.size := by
    rintro h ⟨⟩
    decide
  refine ⟨Session.sample_reachable, hl, evaluation_ends Session.sample_reachable hl hv ?_⟩
  exact List.forall_mem_singleton.2 hv

end ArrayGraph
