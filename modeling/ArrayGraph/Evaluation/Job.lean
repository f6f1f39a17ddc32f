import ArrayGraph.Graph
/-!
# Jobs

A job is an evaluation in progress, as data: what is left to do, with everything
that waits for it. `Frame` is what waits for the value of one operand, `Join` what
waits for the values of several. The state that jobs share is a `World`: the content
of every variable's slot, and a log.
-/

namespace ArrayGraph

/-! ## The shared state -/

structure World where
  /-- The content of each node's slot; only variables use theirs. -/
  slots : Array Value
  log : Array String

namespace World

def empty : World := ⟨#[], #[]⟩

/-- The content of the slot of the node at this place in the graph. -/
def slot (w : World) (index : Nat) : Value := w.slots[index]?.getD .empty

def setSlot (w : World) (index : Nat) (v : Value) : World :=
  { w with slots := w.slots.setIfInBounds index v }

def write (w : World) (line : String) : World := { w with log := w.log.push line }

@[simp] theorem slot_write (w : World) (line : String) (i : Nat) :
    (w.write line).slot i = w.slot i := rfl

@[simp] theorem log_setSlot (w : World) (i : Nat) (v : Value) :
    (w.setSlot i v).log = w.log := rfl

theorem slot_setSlot_of_ne (w : World) {i j : Nat} (v : Value) (h : i ≠ j) :
    (w.setSlot i v).slot j = w.slot j := by
  simp [slot, setSlot, h]

theorem slot_setSlot_self (w : World) (i : Nat) (v : Value) (h : i < w.slots.size) :
    (w.setSlot i v).slot i = v := by
  simp [slot, setSlot, h]

end World

/-! ## Outcomes -/

/-- Why a job ended without a value. -/
inductive Halt
  | error (e : Error)
  /-- The job broke off, and so does everything that waits for it on its thread. -/
  | panic
  deriving DecidableEq, Repr

abbrev Outcome := Except Halt Value

namespace Outcome

/-- An error at a site. -/
def fail (site : Site) (cause : Cause) : Outcome := .error (.error (.raised site cause))

/-- The outcome of a kernel that ran at a site. -/
def ofKernel (site : Site) : Except Cause Value → Outcome
  | .ok v => .ok v
  | .error cause => fail site cause

end Outcome

/-! ## What waits -/

/-- A loop: what it tests, what it runs, and what it runs after that. -/
structure Loop where
  site : Site
  args : List Value
  condition : Value
  body : Value
  step : Option Value

/-- What waits for the value of one operand. -/
inductive Frame
  /-- The value names a constant. -/
  | constantName (site : Site)
  /-- The value goes into the slot of a variable. -/
  | store (target : Nat)
  /-- The value decides which operand is evaluated next. -/
  | choice (site : Site) (args : List Value) (yes no : Option Value)
  /-- The value is the result if no operand is left. -/
  | block (args : List Value) (rest : List Value)
  | loopInit (l : Loop)
  | loopCondition (l : Loop) (last : Value)
  | loopBody (l : Loop)
  | loopStep (l : Loop) (last : Value)

/-- What waits for the values of several operands. -/
inductive Join
  | compare (op : CompareOp) (site : Site)
  | arithmetic (op : ArithmeticOp) (site : Site)
  | statistic (s : Statistic) (site : Site)
  /-- The last value is the result. -/
  | last
  /-- The list of all values is the result. -/
  | all

/-- An evaluation in progress. -/
inductive Job
  | done (r : Outcome)
  /-- A node that has not begun to run. `content` is what its slot held when the job
  was made. -/
  | start (node : Node) (content : Value) (args : List Value)
  /-- A loop about to test its condition. -/
  | round (l : Loop) (last : Value)
  /-- A loop that lets the jobs beside it run before its next round. -/
  | rest (l : Loop) (last : Value)
  | waiting (k : Frame) (inner : Job)
  /-- Operands side by side: those that have had their turn (the latest first), the
  one whose turn it is, and those that have yet to get theirs. -/
  | joined (k : Join) (turned : List Job) (current : Job) (coming : List Job)
  /-- A job on a locality of a pool. -/
  | placed (id : LocalityId) (site : Site) (inner : Job)

/-- What one step of a job comes to. -/
inductive Progress
  | finished (r : Outcome)
  | moved (j : Job)
  /-- The job wants the jobs beside it to run first. -/
  | suspended (j : Job)

end ArrayGraph
