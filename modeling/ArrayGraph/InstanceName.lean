import ArrayGraph.Text.Digits
/-!
# Instance names

Every node of a graph has an instance name: a fixed lead, the name of what it
computes, then optionally its number in the order of creation, then optionally where
it was written (a compile unit, a line and a column). `InstanceName.text` writes such
a name and `InstanceName.parse?` reads one. A node that computes a constant finds out
which one from its instance name, by `bareName`. A `Site` is an instance name with the
text that the node comes from.
-/

namespace ArrayGraph

structure InstanceName where
  primitive : String
  sequence : Option UInt64 := none
  compileId : Option UInt64 := none
  line : Option UInt32 := none
  column : Option UInt32 := none
  deriving DecidableEq, Repr

namespace InstanceName

/-- What every instance name starts with. -/
def lead : String := "/arrayflow/"

/-- The name of the instance made as number `sequence`. -/
def numbered (primitive : String) (sequence : UInt64) : InstanceName :=
  { primitive, sequence := some sequence }

/-- The name with the place where the node was written. -/
def located (n : InstanceName) (compileId : UInt64) (line column : UInt32) : InstanceName :=
  { n with compileId := some compileId, line := some line, column := some column }

/-! ## Writing -/

/-- The characters of a name. The place is written only if all of it is known. -/
def chars (n : InstanceName) : List Char :=
  lead.toList ++ n.primitive.toList
    ++ (match n.sequence with
      | some k => '$' :: digits k.toNat
      | none => [])
    ++ (match n.compileId, n.line, n.column with
      | some id, some line, some column =>
        '/' :: digits id.toNat ++ '$' :: digits line.toNat ++ '$' :: digits column.toNat
      | _, _, _ => [])

def text (n : InstanceName) : String := String.ofList n.chars

/-! ## Reading -/

/-- What comes before the first `c`, and what comes after it if there is one. -/
def cut (c : Char) (cs : List Char) : List Char × Option (List Char) :=
  (cs.takeWhile (· != c), (cs.dropWhile (· != c)).tail?)

/-- A number below `limit`: an optional plus sign and one or more decimal digits. -/
def number? (limit : Nat) (cs : List Char) : Option Nat :=
  let ds := if cs.head? = some '+' then cs.tail else cs
  if ds ≠ [] ∧ ds.all Char.isDigit ∧ ofDigits ds < limit then some (ofDigits ds) else none

def number64? (cs : List Char) : Option UInt64 := (number? UInt64.size cs).map UInt64.ofNat

def number32? (cs : List Char) : Option UInt32 := (number? UInt32.size cs).map UInt32.ofNat

/-- The name of what is computed and the number of the instance. -/
def parseHead? (cs : List Char) : Option InstanceName :=
  match cut '$' cs with
  | ([], _) => none
  | (p, none) => some { primitive := String.ofList p }
  | (p, some k) => (number64? k).map (numbered (String.ofList p))

/-- The place where the node was written. -/
def parsePlace? (n : InstanceName) (cs : List Char) : Option InstanceName :=
  match cut '$' cs with
  | (id, some rest) =>
    match cut '$' rest with
    | (line, some column) => do
      return n.located (← number64? id) (← number32? line) (← number32? column)
    | (_, none) => none
  | (_, none) => none

def parseChars? (cs : List Char) : Option InstanceName :=
  if lead.toList.isPrefixOf cs then
    match cut '/' (cs.drop lead.toList.length) with
    | (head, none) => parseHead? head
    | (head, some []) => parseHead? head
    | (head, some place) => (parseHead? head).bind (parsePlace? · place)
  else none

/-- The name that a text spells, if it spells one. A slash with nothing after it may
stand for the place. -/
def parse? (s : String) : Option InstanceName := parseChars? s.toList

end InstanceName

/-- The name of what an instance computes: read from its instance name, or the text
itself if it is no instance name. -/
def bareName (s : String) : String :=
  match InstanceName.parse? s with
  | some n => n.primitive
  | none => s

/-! ## Sites -/

/-- The instance name of a node and the codename of the text that it was written in. -/
structure Site where
  name : String
  codename : String
  deriving DecidableEq, Repr

def Site.text (s : Site) : String :=
  let name := if s.name = "" then "<unnamed>" else s.name
  if s.codename = "" then name else name ++ " (" ++ s.codename ++ ")"

end ArrayGraph
