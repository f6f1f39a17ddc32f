import ArrayGraph.Document.Basic
/-!
# Tables under construction

A configuration text builds its tables piece by piece: a header opens a table, a
dotted key reaches into one. What may still be added depends on how a table came to
be, so each keeps its `Origin` until the text is at its end.
-/

namespace ArrayGraph

namespace Toml

/-- How a table came to be. -/
inductive Origin
  /-- By a header of its own. -/
  | header
  /-- On the way to a table that has a header. -/
  | implied
  /-- On the way of a dotted key. -/
  | dotted
  deriving DecidableEq, Repr

inductive Entry
  /-- A value that is complete. -/
  | value (d : Document)
  | table (origin : Origin) (members : List (String × Entry))
  /-- A list of tables, each opened by a header. -/
  | tables (items : List (List (String × Entry)))

/-- What a table holds so far, in the order in which it was given. -/
abbrev Members := List (String × Entry)

namespace Members

/-- The table with an entry put in the place of another, or at the end. -/
def put (ms : Members) (key : String) (e : Entry) : Members :=
  if ms.any (·.1 == key) then ms.map fun m => if m.1 == key then (key, e) else m
  else ms ++ [(key, e)]

/-- The table with a value under a key that may be dotted. A table on the way must
not have a header of its own, and the last one must have come to be by dotted keys. -/
def insert? (ms : Members) : List String → Document → Option Members
  | [], _ => none
  | [key], d => if ms.any (·.1 == key) then none else some (ms ++ [(key, .value d)])
  | key :: next :: keys, d =>
    match ms.lookup key with
    | none => (insert? [] (next :: keys) d).map fun inner => ms.put key (.table .dotted inner)
    | some (.table origin inner) =>
      if origin = .header ∨ (keys = [] ∧ origin ≠ .dotted) then none
      else (insert? inner (next :: keys) d).map fun inner => ms.put key (.table origin inner)
    | some (.tables items) =>
      match keys, items.getLast? with
      | _ :: _, some last =>
        (insert? last (next :: keys) d).map fun last =>
          ms.put key (.tables (items.dropLast ++ [last]))
      | _, _ => none
    | some (.value _) => none

/-- The table with a change made to the table at the end of a path. What is missing
on the way is implied, and of a list of tables the last is meant. -/
def change? (ms : Members) (path : List String) (f : Members → Option Members) :
    Option Members :=
  match path with
  | [] => f ms
  | key :: path =>
    match ms.lookup key with
    | none => (change? [] path f).map fun inner => ms.put key (.table .implied inner)
    | some (.table origin inner) =>
      (change? inner path f).map fun inner => ms.put key (.table origin inner)
    | some (.tables items) =>
      match items.getLast? with
      | some last =>
        (change? last path f).map fun last => ms.put key (.tables (items.dropLast ++ [last]))
      | none => none
    | some (.value _) => none

/-- The table with a table opened in it by a header. -/
def open? (key : String) (ms : Members) : Option Members :=
  match ms.lookup key with
  | none => some (ms.put key (.table .header []))
  | some (.table .implied inner) => some (ms.put key (.table .header inner))
  | some _ => none

/-- The table with one more table in a list of tables. -/
def append? (key : String) (ms : Members) : Option Members :=
  match ms.lookup key with
  | none => some (ms.put key (.tables [[]]))
  | some (.tables items) => some (ms.put key (.tables (items ++ [[]])))
  | some _ => none

end Members

/-! ## The finished document -/

mutual

def Entry.toDocument : Entry → Document
  | .value d => d
  | .table _ members => .table (documents members)
  | .tables items => .list (tableDocuments items)

def documents : List (String × Entry) → List (String × Document)
  | [] => []
  | (key, e) :: rest => (key, e.toDocument) :: documents rest

def tableDocuments : List (List (String × Entry)) → List Document
  | [] => []
  | members :: rest => .table (documents members) :: tableDocuments rest

end

end Toml

end ArrayGraph
