import ArrayGraph.InstanceName
/-!
# Localities

A locality is a place where the nodes of a graph run, known by a 32-bit number. The
greatest number stands for no place at all.
-/

namespace ArrayGraph

/-- The number of a locality. -/
structure LocalityId where
  index : UInt32
  deriving DecidableEq, Repr, Inhabited

namespace LocalityId

/-- The place of the caller. -/
def here : LocalityId := ⟨0⟩

/-- The number that stands for no place. -/
def invalid : LocalityId := ⟨4294967295⟩

def isValid (id : LocalityId) : Bool := id != invalid

def text (id : LocalityId) : String :=
  if id = invalid then "LocalityId(INVALID)"
  else "LocalityId(" ++ toString id.index.toNat ++ ")"

end LocalityId

/-- How a job gets to the locality of its node. -/
inductive Transport
  /-- The caller runs it where it stands. -/
  | inline
  /-- The caller runs it where it stands, and a line about the call goes to the log. -/
  | recorder (line : LocalityId → Site → String)
  /-- A pool of `size` localities runs it, on a thread named after the locality. -/
  | pool (size : Nat) (threadName : String)

/-- The recorder whose lines say which locality and which node a call was for. -/
def Transport.recording : Transport :=
  .recorder fun id site => "@" ++ toString id.index.toNat ++ " " ++ site.name

/-- Where a node runs. -/
structure Locality where
  id : LocalityId
  transport : Transport

namespace Locality

/-- The caller's own place. -/
def here : Locality := ⟨.here, .inline⟩

def isInline (l : Locality) : Bool :=
  match l.transport with
  | .inline => true
  | _ => false

/-- The name of the thread that runs a job there. -/
def threadName (l : Locality) : String :=
  match l.transport with
  | .pool _ name => name ++ "-" ++ toString l.id.index.toNat
  | _ => "main"

def text (l : Locality) : String :=
  "Locality \x7b id: " ++ l.id.text ++ ", inline: "
    ++ (if l.isInline then "true" else "false") ++ " \x7d"

end Locality

/-! ## Pools -/

/-- Localities numbered from zero, each with threads named after it. -/
structure Pool where
  size : Nat
  threadName : String
  deriving DecidableEq, Repr

namespace Pool

/-- The number of localities, or of threads of one, that memory can't hold. -/
def sizeLimit : Nat := 1152921504606846976

/-- Why a pool of so many localities with so many threads each can't start, if that is
so. -/
def fault? (p : Pool) (workers : Nat) : Option String :=
  if sizeLimit ≤ p.size then some "capacity overflow"
  else if p.size = 0 then none
  else if sizeLimit ≤ workers then some "capacity overflow"
  else if p.threadName.toList.contains '\x00' then
    some "thread name may not contain interior null bytes"
  else none

/-- Whether the pool has the locality. -/
def hosts (p : Pool) (id : LocalityId) : Bool := id.index.toNat < p.size

/-- The place of a locality in the pool. -/
def place (p : Pool) (id : LocalityId) : Locality := ⟨id, .pool p.size p.threadName⟩

/-- The place of a locality, if the pool has it. -/
def locality? (p : Pool) (id : LocalityId) : Option Locality :=
  if p.hosts id then some (p.place id) else none

/-- The places of all localities. -/
def localities (p : Pool) : List Locality :=
  (List.range p.size).filterMap fun i => p.locality? ⟨UInt32.ofNat i⟩

def text (p : Pool) : String := "LocalityPool \x7b localities: " ++ toString p.size ++ " \x7d"

end Pool

/-! ## Localities that run their jobs -/

/-- The caller itself runs the jobs of the locality. -/
def Locality.Near (l : Locality) : Prop := ∀ size name, l.transport ≠ .pool size name

/-- The transport reaches the locality. -/
def Locality.Served (l : Locality) : Prop :=
  ∀ size name, l.transport = .pool size name → l.id.index.toNat < size

theorem Locality.Near.served {l : Locality} (h : l.Near) : l.Served :=
  fun size name ht => absurd ht (h size name)

theorem near_of_inline {l : Locality} (h : l.isInline = true) : l.Near := by
  intro size name ht
  simp [Locality.isInline, ht] at h

theorem served_of_inline {l : Locality} (h : l.isInline = true) : l.Served :=
  (near_of_inline h).served

/-- A pool gives out no localities but those that it has. -/
theorem served_of_pool {p : Pool} {id : LocalityId} {l : Locality} (h : p.locality? id = some l) :
    l.Served := by
  unfold Pool.locality? at h
  split at h
  · rename_i hid
    cases h
    intro size name ht
    cases ht
    exact decide_eq_true_iff.1 hid
  · cases h

end ArrayGraph
