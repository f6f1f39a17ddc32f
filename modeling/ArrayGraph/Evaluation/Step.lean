import ArrayGraph.Arithmetic
import ArrayGraph.Comparison
import ArrayGraph.Constant
import ArrayGraph.Evaluation.Job
import ArrayGraph.InstanceName
import ArrayGraph.Statistic.Reduction
/-!
# One step of a job

`Graph.launch` makes the job of an operand. At that moment the transport of the node
learns of it and a variable's slot is read; all else happens when the job is stepped.
`Job.step` does the next thing there is to do. A join launches all of its operands
before any of them runs and gives them turns in operand order: an operand runs until
it is finished or suspended, an error ends the join at once, and when every operand
has had its turn the join finishes or is suspended itself.

A job on a pool has a thread of its own there, which runs while the caller goes on. A step
knows nothing of other threads: it has a placed job take its steps in the turns of the one
that waits for it. That is one schedule of the threads out of many. `Job.Scheduled` has all
of them, but for what jobs do that a failed join has let go of, and `Graph.Schedules` what an
evaluation may come to under any. A graph with no node on a pool has no other schedule than
this one.
-/

namespace ArrayGraph

/-! ## Launching -/

/-- Hands the job of a node to the transport of its locality. -/
def Locality.dispatch (l : Locality) (site : Site) (j : Job) (w : World) : Job × World :=
  match l.transport with
  | .inline => (j, w)
  | .recorder line => (j, w.write (line l.id site))
  | .pool size _ =>
    if l.id.index.toNat < size then (.placed l.id site j, w)
    else (.done (.fail site (.notHosted l.id size)), w)

/-- The job of an operand under these arguments. A handle to no node panics. -/
def Graph.launch (g : Graph) (v : Value) (args : List Value) (w : World) : Job × World :=
  match v with
  | .node h =>
    match g.node? h with
    | some n => n.locality.dispatch n.site (.start n (w.slot h.index) args) w
    | none => (.done (.error .panic), w)
  | v => (.done (.ok v), w)

/-- The jobs of operands, made in operand order. -/
def Graph.launchAll (g : Graph) (args : List Value) : List Value → World → List Job × World
  | [], w => ([], w)
  | v :: vs, w =>
    let (j, w) := g.launch v args w
    let (js, w) := g.launchAll args vs w
    (j :: js, w)

/-- The job of an operand, with what waits for its value. -/
def Graph.await (g : Graph) (k : Frame) (v : Value) (args : List Value) (w : World) :
    Job × World :=
  let (j, w) := g.launch v args w
  (.waiting k j, w)

/-! ## Resuming what waits -/

/-- The constant of this name. -/
def constantNamed (site : Site) (name : String) : Outcome :=
  match constant? name with
  | some x => .ok (.float x)
  | none => .fail site (.unknownConstant name)

/-- What to do with the value that a frame has waited for. -/
def Frame.resume (g : Graph) (k : Frame) (v : Value) (w : World) : Job × World :=
  match k with
  | .constantName site =>
    match v with
    | .str name => (.done (constantNamed site name), w)
    | v => (.done (.fail site (.notText v.kind)), w)
  | .store target => (.done (.ok .empty), w.setSlot target v)
  | .choice site args yes no =>
    match v.truthy? with
    | none => (.done (.fail site (.notCondition v.kind)), w)
    | some b =>
      match if b then yes else no with
      | some branch => g.launch branch args w
      | none => (.done (.ok .empty), w)
  | .block args rest =>
    match rest with
    | [] => (.done (.ok v), w)
    | next :: rest => g.await (.block args rest) next args w
  | .loopInit l => (.round l .empty, w)
  | .loopCondition l last =>
    match v.truthy? with
    | none => (.done (.fail l.site (.notCondition v.kind)), w)
    | some true => g.await (.loopBody l) l.body l.args w
    | some false => (.done (.ok last), w)
  | .loopBody l =>
    match l.step with
    | some step => g.await (.loopStep l v) step l.args w
    | none => (.rest l v, w)
  | .loopStep l last => (.rest l last, w)

/-- The axis that a statistic was given, if it was given one. -/
def axisOperand (values : List Value) : Except Cause (Option Int64) :=
  match values with
  | [] => .ok none
  | v :: _ =>
    match v.asInt? with
    | some axis => .ok (some axis)
    | none => .error (.axisNotInteger v.kind)

/-- What to do with the values that a join has waited for. -/
def Join.finish (k : Join) (values : List Value) : Outcome :=
  match k with
  | .compare op site =>
    match values with
    | a :: b :: _ => .ofKernel site (a.compare op b)
    | _ => .error .panic
  | .arithmetic op site =>
    match values with
    | a :: b :: _ => .ofKernel site (a.combine op b)
    | _ => .error .panic
  | .statistic s site =>
    match values with
    | v :: rest => .ofKernel site ((axisOperand rest).bind (v.reduce s))
    | [] => .error .panic
  | .last => .ok (values.getLast?.getD .empty)
  | .all => .ok (.list values)

/-! ## Running a node -/

/-- All operands side by side. -/
def Graph.join (g : Graph) (k : Join) (operands args : List Value) (w : World) : Job × World :=
  let (jobs, w) := g.launchAll args operands w
  match jobs with
  | [] => (.done (k.finish []), w)
  | j :: js => (.joined k [] j js, w)

/-- A join of the bound operands, if there are as many as asked for. -/
def Node.joinBound (n : Node) (g : Graph) (k : Join) (ok : Nat → Bool) (args : List Value)
    (w : World) : Job × World :=
  let (operands, args) := n.bind args
  if ok operands.length then g.join k operands args w
  else (.done (.fail n.site (.wrongCount n.primitive)), w)

/-- What a node does first when its job runs. Operands that the check of the graph
asks for are not missing; a node without them panics. -/
def Node.run (n : Node) (g : Graph) (content : Value) (args : List Value) (w : World) :
    Job × World :=
  match n.primitive with
  | .constant =>
    let (operands, args) := n.bind args
    match operands with
    | [] => (.done (constantNamed n.site (bareName n.site.name)), w)
    | [v] => g.await (.constantName n.site) v args w
    | _ => (.done (.fail n.site (.wrongCount n.primitive)), w)
  | .variable => g.launch content args w
  | .store =>
    match n.operands with
    | .node target :: v :: _ => g.await (.store target.index) v args w
    | _ => (.done (.error .panic), w)
  | .argument =>
    match n.operands.head?.bind (·.asInt?) with
    | some i =>
      let index := i.toInt.toNat
      match args[index]? with
      | some a => g.launch a [] w
      | none => (.done (.fail n.site (.missingArgument index args.length)), w)
    | none => (.done (.error .panic), w)
  | .compare op => n.joinBound g (.compare op n.site) (· == 2) args w
  | .arithmetic op => n.joinBound g (.arithmetic op n.site) (· == 2) args w
  | .statistic s => n.joinBound g (.statistic s n.site) (fun k => k == 1 || k == 2) args w
  | .forLoop =>
    match n.operands with
    | init :: condition :: step :: body :: _ =>
      g.await (.loopInit ⟨n.site, args, condition, body, some step⟩) init args w
    | _ => (.done (.error .panic), w)
  | .whileLoop =>
    match n.operands with
    | condition :: body :: _ => (.round ⟨n.site, args, condition, body, none⟩ .empty, w)
    | _ => (.done (.error .panic), w)
  | .choice =>
    match n.operands with
    | condition :: branches =>
      g.await (.choice n.site args branches[0]? branches[1]?) condition args w
    | [] => (.done (.error .panic), w)
  | .block =>
    match n.operands with
    | v :: rest => g.await (.block args rest) v args w
    | [] => (.done (.ok .empty), w)
  | .parallelBlock => g.join .last n.operands args w
  | .trace =>
    match n.operands with
    | tag :: v :: _ => g.launch v args (w.write (tag.asText?.getD "?"))
    | _ => (.done (.error .panic), w)
  | .echo => (.done (.ok ((n.bind args).1.head?.getD .empty)), w)
  | .explode => (.done (.error .panic), w)
  | .threadName => (.done (.ok (.str n.locality.threadName)), w)

/-! ## Stepping -/

/-- The value of a job that is done. -/
def Job.value? : Job → Option Value
  | .done (.ok v) => some v
  | _ => none

/-- A join whose current operand has had its turn and was left as the head of
`turned`. -/
def Join.turn (k : Join) (turned coming : List Job) : Progress :=
  match coming with
  | j :: coming => .moved (.joined k turned j coming)
  | [] =>
    let jobs := turned.reverse
    match jobs.mapM Job.value?, jobs with
    | some values, _ => .finished (k.finish values)
    | none, j :: js => .suspended (.joined k [] j js)
    | none, [] => .finished (k.finish [])

/-- The next thing that a job does. A placed job is stepped in the turns of the job that waits
for it, as if its pool never ran it at any other time. -/
def Job.step (g : Graph) : Job → World → Progress × World
  | .done r, w => (.finished r, w)
  | .start n content args, w =>
    let (j, w) := n.run g content args w
    (.moved j, w)
  | .round l last, w =>
    let (j, w) := g.await (.loopCondition l last) l.condition l.args w
    (.moved j, w)
  | .rest l last, w => (.suspended (.round l last), w)
  | .waiting k inner, w =>
    match inner.step g w with
    | (.finished (.ok v), w) =>
      let (j, w) := k.resume g v w
      (.moved j, w)
    | (.finished (.error h), w) => (.finished (.error h), w)
    | (.moved j, w) => (.moved (.waiting k j), w)
    | (.suspended j, w) => (.suspended (.waiting k j), w)
  | .joined k turned current coming, w =>
    match current.step g w with
    | (.finished (.ok v), w) => (k.turn (.done (.ok v) :: turned) coming, w)
    | (.finished (.error h), w) => (.finished (.error h), w)
    | (.moved j, w) => (.moved (.joined k turned j coming), w)
    | (.suspended j, w) => (k.turn (j :: turned) coming, w)
  | .placed id site inner, w =>
    match inner.step g w with
    | (.finished (.error .panic), w) => (.finished (.fail site (.incomplete id)), w)
    | (.finished r, w) => (.finished r, w)
    | (.moved j, w) => (.moved (.placed id site j), w)
    | (.suspended j, w) => (.suspended (.placed id site j), w)

/-! ## Running to the end -/

/-- Steps a job until it is finished, in its caller's turns; a job that is suspended has no
other beside it and goes on at once. Nothing if the job needs more than `limit` steps. -/
def Job.run (g : Graph) : Nat → Job → World → Option (Outcome × World)
  | 0, _, _ => none
  | limit + 1, j, w =>
    match j.step g w with
    | (.finished r, w) => some (r, w)
    | (.moved j, w) => j.run g limit w
    | (.suspended j, w) => j.run g limit w

/-- Evaluates an operand under arguments, in at most `limit` steps of its caller's turns. Of
the schedules that nodes on a pool may have, this takes one. -/
def Graph.evaluate (g : Graph) (limit : Nat) (v : Value) (args : List Value) (w : World) :
    Option (Outcome × World) :=
  let (j, w) := g.launch v args w
  j.run g limit w

end ArrayGraph
