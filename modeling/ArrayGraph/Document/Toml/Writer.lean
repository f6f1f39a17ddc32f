import ArrayGraph.Document.Toml.Scalar
import ArrayGraph.Text.Digits
/-!
# Writing configuration texts

`Toml.print` writes an outline: its fields, then a headed table for each section.
Fields that are absent are left out, and a count must fit 64 bits with its sign. A
text is quoted in the first of five ways that can hold it.
-/

namespace ArrayGraph

namespace Toml

/-! ## Ways of quoting -/

/-- What a text must have none of to be quoted in some way. -/
structure Traits where
  /-- A control character other than the tab and the line break. -/
  control : Bool
  newline : Bool
  backslash : Bool
  /-- The greatest number of double quotes in a row, and of single quotes. -/
  doubleRun : Nat
  singleRun : Nat

/-- The greatest number of `c` in a row. -/
def longestRun (c : Char) (cs : List Char) : Nat :=
  (cs.foldl (fun (best, run) x =>
    let run := if x = c then run + 1 else 0
    (max best run, run)) ((0, 0) : Nat × Nat)).1

def isControl (c : Char) : Bool :=
  (c.toNat < 0x20 && c != '\t' && c != '\n') || c.toNat == 0x7f

def Traits.of (cs : List Char) : Traits where
  control := cs.any isControl
  newline := cs.contains '\n'
  backslash := cs.contains '\\'
  doubleRun := longestRun '"' cs
  singleRun := longestRun '\'' cs

/-- The ways in which a text may be quoted. -/
inductive Quoting
  | basic | literal | multilineBasic | multilineLiteral
  deriving DecidableEq, Repr

/-- The first way that can hold the text, those without escapes before the others. -/
def Quoting.choose (t : Traits) : Quoting :=
  if !t.control && !t.backslash && t.doubleRun == 0 && !t.newline then .basic
  else if !t.control && t.singleRun == 0 && !t.newline then .literal
  else if !t.control && !t.backslash && t.doubleRun < 3 then .multilineBasic
  else if !t.control && t.singleRun < 3 then .multilineLiteral
  else if t.newline then .multilineBasic
  else .basic

/-! ## Writing -/

def hexDigitUpper (n : Nat) : Char := (Nat.digitChar n).toUpper

/-- A character between double quotes. -/
def escape (c : Char) : List Char :=
  match c with
  | '\x08' => ['\\', 'b']
  | '\t' => ['\\', 't']
  | '\n' => ['\\', 'n']
  | '\x0c' => ['\\', 'f']
  | '\r' => ['\\', 'r']
  | '"' => ['\\', '"']
  | '\\' => ['\\', '\\']
  | c =>
    if c.toNat < 0x20 || c.toNat == 0x7f then
      ['\\', 'u', '0', '0', hexDigitUpper (c.toNat / 16), hexDigitUpper (c.toNat % 16)]
    else [c]

/-- Characters between double quotes on several lines, after `run` double quotes in a
row: a line break stands for itself, and of three quotes in a row the third is
escaped. -/
def escapeLines : Nat → List Char → List Char
  | _, [] => []
  | run, '"' :: rest =>
    if run = 2 then '\\' :: '"' :: escapeLines 0 rest else '"' :: escapeLines (run + 1) rest
  | _, '\n' :: rest => '\n' :: escapeLines 0 rest
  | _, c :: rest => escape c ++ escapeLines 0 rest

/-- A text on several lines starts on a line of its own if it has a line break. -/
def firstBreak (t : Traits) : List Char := if t.newline then ['\n'] else []

def printText (s : String) : List Char :=
  let cs := s.toList
  let t := Traits.of cs
  match Quoting.choose t with
  | .basic => '"' :: cs.flatMap escape ++ ['"']
  | .literal => '\'' :: cs ++ ['\'']
  | .multilineBasic => ['"', '"', '"'] ++ firstBreak t ++ escapeLines 0 cs ++ ['"', '"', '"']
  | .multilineLiteral => ['\'', '\'', '\''] ++ firstBreak t ++ cs ++ ['\'', '\'', '\'']

/-- The line of a field. -/
def printField? : String × OutlineField → Option (List Char)
  | (key, .count n) =>
    if n < integerBound then some (key.toList ++ [' ', '=', ' '] ++ digits n ++ ['\n'])
    else none
  | (key, .text s) => some (key.toList ++ [' ', '=', ' '] ++ printText s ++ ['\n'])
  | (_, .absent) => some []

def printFields? (fields : List (String × OutlineField)) : Option (List Char) :=
  (fields.mapM printField?).map List.flatten

/-- A section after what is written already, with an empty line between. -/
def printSection? (before : List Char) (name : String)
    (fields : List (String × OutlineField)) : Option (List Char) :=
  (printFields? fields).map fun body =>
    before ++ (if before.isEmpty then [] else ['\n']) ++ '[' :: name.toList ++ [']', '\n'] ++ body

/-- The text of an outline, if its counts fit. -/
def print? (o : Outline) : Option String := do
  let top ← printFields? o.fields
  let all ← o.sections.foldlM (fun before (name, fields) => printSection? before name fields) top
  return String.ofList all

end Toml

end ArrayGraph
