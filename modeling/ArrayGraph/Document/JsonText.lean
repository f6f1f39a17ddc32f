import ArrayGraph.Document.Basic
import ArrayGraph.Text.Digits
/-!
# JSON texts

`JsonText.parse?` reads a JSON text. A string may escape UTF-16 units that do not
pair up; such a string is grammatical but spells nothing. `JsonText.print` writes an
outline as an object, two spaces of indent for each brace that is open.
-/

namespace ArrayGraph

namespace JsonText

/-! ## Reading -/

def isBlank (c : Char) : Bool := c == ' ' || c == '\n' || c == '\t' || c == '\r'

def skip (cs : List Char) : List Char := cs.dropWhile isBlank

/-- What follows a word. -/
def after? (word cs : List Char) : Option (List Char) :=
  if word.isPrefixOf cs then some (cs.drop word.length) else none

def hexValue? (c : Char) : Option Nat :=
  if '0' ≤ c ∧ c ≤ '9' then some (c.toNat - '0'.toNat)
  else if 'a' ≤ c ∧ c ≤ 'f' then some (c.toNat - 'a'.toNat + 10)
  else if 'A' ≤ c ∧ c ≤ 'F' then some (c.toNat - 'A'.toNat + 10)
  else none

/-- The number that hexadecimal digits write. -/
def hexNumber? (cs : List Char) : Option Nat :=
  cs.foldlM (fun n c => (hexValue? c).map (16 * n + ·)) 0

/-- The character that a letter stands for after a backslash. -/
def escaped? : Char → Option Char
  | '"' => some '"'
  | '\\' => some '\\'
  | '/' => some '/'
  | 'b' => some '\x08'
  | 'f' => some '\x0c'
  | 'n' => some '\n'
  | 'r' => some '\r'
  | 't' => some '\t'
  | _ => none

/-- The units of a string up to its closing quote: code points of characters that
stand for themselves, UTF-16 units of those that are escaped as numbers. -/
def units? : List Char → Option (List Nat × List Char)
  | [] => none
  | '"' :: rest => some ([], rest)
  | '\\' :: 'u' :: a :: b :: c :: d :: rest =>
    match hexNumber? [a, b, c, d], units? rest with
    | some n, some (ns, rest) => some (n :: ns, rest)
    | _, _ => none
  | '\\' :: c :: rest =>
    match escaped? c, units? rest with
    | some e, some (ns, rest) => some (e.toNat :: ns, rest)
    | _, _ => none
  | c :: rest =>
    if c.toNat < 0x20 || c == '\\' then none
    else (units? rest).map fun (ns, rest) => (c.toNat :: ns, rest)

def isHighSurrogate (n : Nat) : Bool := 0xd800 ≤ n && n ≤ 0xdbff

def isLowSurrogate (n : Nat) : Bool := 0xdc00 ≤ n && n ≤ 0xdfff

/-- The characters that units spell, if every surrogate has its other half. -/
def spell? : List Nat → Option (List Char)
  | [] => some []
  | n :: rest =>
    if isHighSurrogate n then
      match rest with
      | m :: rest =>
        if isLowSurrogate m then
          (spell? rest).map
            (Char.ofNat (0x10000 + (n - 0xd800) * 0x400 + (m - 0xdc00)) :: ·)
        else none
      | [] => none
    else if isLowSurrogate n then none
    else (spell? rest).map (Char.ofNat n :: ·)

/-- A string after its opening quote; its text is missing if it spells none. -/
def string? (cs : List Char) : Option (Option String × List Char) :=
  (units? cs).map fun (ns, rest) => ((spell? ns).map String.ofList, rest)

/-- Digits in front, and what follows them; there must be one. -/
def digits? (cs : List Char) : Option (List Char × List Char) :=
  let ds := cs.takeWhile Char.isDigit
  if ds.isEmpty then none else some (ds, cs.dropWhile Char.isDigit)

def fraction? : List Char → Option (Bool × List Char)
  | '.' :: rest => (digits? rest).map fun (_, rest) => (true, rest)
  | cs => some (false, cs)

def exponent? : List Char → Option (Bool × List Char)
  | c :: rest =>
    if c == 'e' || c == 'E' then
      let rest := match rest with
        | '+' :: r => r
        | '-' :: r => r
        | r => r
      (digits? rest).map fun (_, rest) => (true, rest)
    else some (false, c :: rest)
  | [] => some (false, [])

/-- A number without its sign. A negative zero is no integer. -/
def unsigned? (negative : Bool) (cs : List Char) : Option (Document × List Char) := do
  let (ds, rest) ← digits? cs
  if ds.head? = some '0' ∧ ds.length ≠ 1 then none
  else
    let (hasFraction, rest) ← fraction? rest
    let (hasExponent, rest) ← exponent? rest
    let n := ofDigits ds
    if hasFraction || hasExponent || (negative && n == 0) then some (.number, rest)
    else some (.integer (if negative then -(n : Int) else n), rest)

def number? : List Char → Option (Document × List Char)
  | '-' :: rest => unsigned? true rest
  | cs => unsigned? false cs

/-- The table of members, if all keys spell something. -/
def tableOf (members : List (Option String × Document)) : Document :=
  match members.mapM fun (k, d) => k.map (·, d) with
  | some members => .table members
  | none => .unspelled

mutual

/-- A value and what follows it. -/
def value? : Nat → List Char → Option (Document × List Char)
  | 0, _ => none
  | fuel + 1, cs =>
    match skip cs with
    | '\x7b' :: rest =>
      match skip rest with
      | '\x7d' :: rest => some (.table [], rest)
      | rest => (members? fuel rest).map fun (ms, rest) => (tableOf ms, rest)
    | '[' :: rest =>
      match skip rest with
      | ']' :: rest => some (.list [], rest)
      | rest => (items? fuel rest).map fun (ds, rest) => (.list ds, rest)
    | '"' :: rest =>
      (string? rest).map fun (s, rest) => ((s.map .text).getD .unspelled, rest)
    | 't' :: rest => (after? ['r', 'u', 'e'] rest).map (.boolean true, ·)
    | 'f' :: rest => (after? ['a', 'l', 's', 'e'] rest).map (.boolean false, ·)
    | 'n' :: rest => (after? ['u', 'l', 'l'] rest).map (.null, ·)
    | rest => number? rest

/-- The items of a list, of which there is one at least, and what follows it. -/
def items? : Nat → List Char → Option (List Document × List Char)
  | 0, _ => none
  | fuel + 1, cs =>
    match value? fuel cs with
    | none => none
    | some (d, rest) =>
      match skip rest with
      | ']' :: rest => some ([d], rest)
      | ',' :: rest => (items? fuel rest).map fun (ds, rest) => (d :: ds, rest)
      | _ => none

/-- The members of a table, of which there is one at least, and what follows it. -/
def members? : Nat → List Char → Option (List (Option String × Document) × List Char)
  | 0, _ => none
  | fuel + 1, cs =>
    match skip cs with
    | '"' :: rest =>
      match string? rest with
      | none => none
      | some (key, rest) =>
        match skip rest with
        | ':' :: rest =>
          match value? fuel rest with
          | none => none
          | some (d, rest) =>
            match skip rest with
            | '\x7d' :: rest => some ([(key, d)], rest)
            | ',' :: rest => (members? fuel rest).map fun (ms, rest) => ((key, d) :: ms, rest)
            | _ => none
        | _ => none
    | _ => none

end

/-- What a text says, if it is one value with nothing but blanks around it. -/
def parse? (s : String) : Option Document :=
  let cs := s.toList
  match value? (2 * cs.length + 2) cs with
  | some (d, rest) => if skip rest = [] then some d else none
  | none => none

/-! ## Writing -/

/-- A character as it stands between the quotes. -/
def escape (c : Char) : List Char :=
  match c with
  | '"' => ['\\', '"']
  | '\\' => ['\\', '\\']
  | '\x08' => ['\\', 'b']
  | '\x0c' => ['\\', 'f']
  | '\n' => ['\\', 'n']
  | '\r' => ['\\', 'r']
  | '\t' => ['\\', 't']
  | c =>
    if c.toNat < 0x20 then
      ['\\', 'u', '0', '0', Nat.digitChar (c.toNat / 16), Nat.digitChar (c.toNat % 16)]
    else [c]

def printText (s : String) : List Char := '"' :: s.toList.flatMap escape ++ ['"']

def printField : OutlineField → List Char
  | .count n => digits n
  | .text s => printText s
  | .absent => ['n', 'u', 'l', 'l']

/-- An object whose members are written already, inside `depth` open braces. -/
def printObject (depth : Nat) (members : List (String × List Char)) : List Char :=
  if members.isEmpty then ['\x7b', '\x7d']
  else
    let line (indent : Nat) := '\n' :: List.replicate (2 * indent) ' '
    let written := members.map fun (key, value) =>
      line (depth + 1) ++ printText key ++ [':', ' '] ++ value
    '\x7b' :: List.intercalate [','] written ++ line depth ++ ['\x7d']

def printFields (depth : Nat) (fields : List (String × OutlineField)) : List Char :=
  printObject depth (fields.map fun (key, f) => (key, printField f))

/-- The text of an outline. -/
def print (o : Outline) : String :=
  String.ofList (printObject 0 (o.fields.map (fun (key, f) => (key, printField f))
    ++ o.sections.map fun (key, fields) => (key, printFields 1 fields)))

end JsonText

end ArrayGraph
