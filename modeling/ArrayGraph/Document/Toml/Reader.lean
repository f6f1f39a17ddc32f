import ArrayGraph.Document.Toml.Quoting
import ArrayGraph.Document.Toml.Scalar
import ArrayGraph.Document.Toml.Table
/-!
# Reading configuration texts

A configuration text is a sequence of lines: a header that opens a table, a key with
a value for the table that is open, or neither. `Toml.parse?` reads one to a
document. Values nest, and keys are dotted, to a bounded depth.
-/

namespace ArrayGraph

namespace Toml

/-- Keys have fewer parts than this, and values are nested less deep. -/
def depthLimit : Nat := 80

def skipBlanks (cs : List Char) : List Char := cs.dropWhile isBlank

/-- What follows a comment, if one is here. -/
def skipComment : List Char → List Char
  | '#' :: rest => rest.dropWhile isAllowed
  | cs => cs

/-- What follows the end of a line: blanks, perhaps a comment, and a line break or
the end of the text. -/
def endLine? (cs : List Char) : Option (List Char) :=
  match skipComment (skipBlanks cs) with
  | [] => some []
  | cs => pastBreak? cs

/-- What is left without blanks, line breaks and comments in front. -/
def skipLines : Nat → List Char → List Char
  | 0, cs => cs
  | fuel + 1, cs =>
    match skipBlanks cs with
    | '#' :: rest =>
      match pastBreak? (rest.dropWhile isAllowed) with
      | some rest => skipLines fuel rest
      | none => '#' :: rest
    | cs =>
      match pastBreak? cs with
      | some rest => skipLines fuel rest
      | none => cs

/-! ## Keys -/

def isBare (c : Char) : Bool := c.isAlphanum || c == '_' || c == '-'

/-- One part of a key. -/
def simpleKey? (cs : List Char) : Option (String × List Char) :=
  match cs with
  | '"' :: rest =>
    (basic? (rest.length + 1) rest).map fun (s, rest) => (String.ofList s, rest)
  | '\'' :: rest => (literal? rest).map fun (s, rest) => (String.ofList s, rest)
  | cs =>
    let s := cs.takeWhile isBare
    if s.isEmpty then none else some (String.ofList s, cs.dropWhile isBare)

/-- A key of at most so many parts, with blanks around each. -/
def keyParts? : Nat → List Char → Option (List String × List Char)
  | 0, _ => none
  | limit + 1, cs =>
    match simpleKey? (skipBlanks cs) with
    | none => none
    | some (part, rest) =>
      match skipBlanks rest with
      | '.' :: rest => (keyParts? limit rest).map fun (parts, rest) => (part :: parts, rest)
      | rest => some ([part], rest)

/-- A key, and what follows it. -/
def key? (cs : List Char) : Option (List String × List Char) := keyParts? (depthLimit - 1) cs

/-! ## Values -/

/-- The table of members that stand on one line. -/
def tableOf? (members : List (List String × Document)) : Option Document :=
  (members.foldlM (fun ms (path, d) => Members.insert? ms path d) []).map fun ms =>
    .table (documents ms)

mutual

/-- A value inside `depth` brackets or braces, and what follows it. -/
def value? : Nat → Nat → List Char → Option (Document × List Char)
  | 0, _, _ => none
  | fuel + 1, depth, cs =>
    match cs with
    | '[' :: rest =>
      if depth + 1 < depthLimit then
        match skipLines (rest.length + 1) rest with
        | ']' :: rest => some (.list [], rest)
        | rest => (items? fuel (depth + 1) rest).map fun (ds, rest) => (.list ds, rest)
      else none
    | '\x7b' :: rest =>
      if depth + 1 < depthLimit then
        match skipBlanks rest with
        | '\x7d' :: rest => some (.table [], rest)
        | rest =>
          match members? fuel (depth + 1) rest with
          | some (members, rest) => (tableOf? members).map (·, rest)
          | none => none
      else none
    | '"' :: _ | '\'' :: _ =>
      (string? cs).map fun (s, rest) => (.text (String.ofList s), rest)
    | cs => plain? cs

/-- The items of a list, of which there is one at least, and what follows it. A comma
may stand after the last. -/
def items? : Nat → Nat → List Char → Option (List Document × List Char)
  | 0, _, _ => none
  | fuel + 1, depth, cs =>
    match value? fuel depth cs with
    | none => none
    | some (d, rest) =>
      match skipLines (rest.length + 1) rest with
      | ']' :: rest => some ([d], rest)
      | ',' :: rest =>
        match skipLines (rest.length + 1) rest with
        | ']' :: rest => some ([d], rest)
        | rest => (items? fuel depth rest).map fun (ds, rest) => (d :: ds, rest)
      | _ => none

/-- The members of a table on one line, of which there is one at least, and what
follows it. -/
def members? : Nat → Nat → List Char → Option (List (List String × Document) × List Char)
  | 0, _, _ => none
  | fuel + 1, depth, cs =>
    match key? cs with
    | some (path, '=' :: rest) =>
      match value? fuel depth (skipBlanks rest) with
      | none => none
      | some (d, rest) =>
        match skipBlanks rest with
        | '\x7d' :: rest => some ([(path, d)], rest)
        | ',' :: rest => (members? fuel depth rest).map fun (ms, rest) => ((path, d) :: ms, rest)
        | _ => none
    | _ => none

end

/-! ## Lines -/

/-- The tables built so far, and the path of the one that is open. -/
structure Progress where
  root : Members
  current : List String

/-- A header opens a table, or one more table of a list. -/
def header? (p : Progress) (cs : List Char) : Option (Progress × List Char) :=
  let (twice, cs) := match cs with
    | '[' :: rest => (true, rest)
    | cs => (false, cs)
  match key? cs with
  | none => none
  | some (path, rest) =>
    match path.getLast? with
    | none => none
    | some last =>
      let open? := if twice then Members.append? last else Members.open? last
      let rest? := if twice then (past? ']' rest).bind (past? ']') else past? ']' rest
      match Members.change? p.root path.dropLast open?, rest?.bind endLine? with
      | some root, some rest => some (⟨root, path⟩, rest)
      | _, _ => none

/-- A key and its value go into the open table. -/
def assignment? (p : Progress) (cs : List Char) : Option (Progress × List Char) :=
  match key? cs with
  | some (path, '=' :: rest) =>
    match value? (2 * rest.length + 2) 0 (skipBlanks rest) with
    | none => none
    | some (d, rest) =>
      match Members.change? p.root p.current (Members.insert? · path d), endLine? rest with
      | some root, some rest => some ({ p with root }, rest)
      | _, _ => none
  | _ => none

/-- The tables that lines build. -/
def lines? : Nat → Progress → List Char → Option Members
  | 0, _, _ => none
  | fuel + 1, p, cs =>
    match skipBlanks cs with
    | [] => some p.root
    | '[' :: rest =>
      match header? p rest with
      | some (p, rest) => lines? fuel p rest
      | none => none
    | cs =>
      if cs.head? = some '#' ∨ (pastBreak? cs).isSome then
        match endLine? cs with
        | some rest => lines? fuel p rest
        | none => none
      else
        match assignment? p cs with
        | some (p, rest) => lines? fuel p rest
        | none => none

/-- A mark of byte order may stand in front of the text. -/
def skipByteOrderMark : List Char → List Char
  | '\ufeff' :: rest => rest
  | cs => cs

/-- What a configuration text says. -/
def parse? (s : String) : Option Document :=
  let cs := skipByteOrderMark s.toList
  (lines? (cs.length + 1) ⟨[], []⟩ cs).map fun root => .table (documents root)

end Toml

end ArrayGraph
