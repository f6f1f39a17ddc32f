import ArrayGraph.Document.JsonText
/-!
# Quoted strings of configuration texts

There are four kinds: with escapes or literal, each on one line or on several. A
string on several lines starts after the line break that follows its opening quotes,
if one does, and may hold up to two quotes in a row, at its end too.
-/

namespace ArrayGraph

namespace Toml

/-- Whether a string may hold the character as it stands. Line breaks, and what
closes or escapes, are ruled elsewhere. -/
def isAllowed (c : Char) : Bool := c == '\t' || (0x20 ≤ c.toNat && c.toNat != 0x7f)

def isBlank (c : Char) : Bool := c == ' ' || c == '\t'

/-- What follows a line break. -/
def pastBreak? : List Char → Option (List Char)
  | '\n' :: rest => some rest
  | '\r' :: '\n' :: rest => some rest
  | _ => none

/-- What is left without blanks and line breaks in front. -/
def skipBreaks : List Char → List Char
  | '\r' :: '\n' :: rest => skipBreaks rest
  | c :: rest => if isBlank c || c == '\n' then skipBreaks rest else c :: rest
  | [] => []

/-- The character with a code point, if there is one. -/
def character? (n : Nat) : Option Char := if n.isValidChar then some (Char.ofNat n) else none

/-- The character that a letter stands for after a backslash. -/
def escaped? : Char → Option Char
  | '"' => some '"'
  | '\\' => some '\\'
  | 'b' => some '\x08'
  | 'f' => some '\x0c'
  | 'n' => some '\n'
  | 'r' => some '\r'
  | 't' => some '\t'
  | _ => none

/-- The character that is escaped after a backslash, and what follows. -/
def escape? : List Char → Option (Char × List Char)
  | 'u' :: a :: b :: c :: d :: rest =>
    ((JsonText.hexNumber? [a, b, c, d]).bind character?).map (·, rest)
  | 'U' :: a :: b :: c :: d :: e :: f :: g :: h :: rest =>
    ((JsonText.hexNumber? [a, b, c, d, e, f, g, h]).bind character?).map (·, rest)
  | c :: rest => (escaped? c).map (·, rest)
  | [] => none

/-- A string on one line with escapes, after its opening quote. -/
def basic? : Nat → List Char → Option (List Char × List Char)
  | 0, _ => none
  | fuel + 1, cs =>
    match cs with
    | '"' :: rest => some ([], rest)
    | '\\' :: rest =>
      match escape? rest with
      | some (c, rest) => (basic? fuel rest).map fun (s, rest) => (c :: s, rest)
      | none => none
    | c :: rest =>
      if isAllowed c then (basic? fuel rest).map fun (s, rest) => (c :: s, rest) else none
    | [] => none

/-- A literal string on one line, after its opening quote. -/
def literal? : List Char → Option (List Char × List Char)
  | '\'' :: rest => some ([], rest)
  | c :: rest =>
    if isAllowed c then (literal? rest).map fun (s, rest) => (c :: s, rest) else none
  | [] => none

/-- A string on several lines with escapes, after its opening quotes. A backslash at
the end of a line joins it to the next text. -/
def multilineBasic? : Nat → List Char → Option (List Char × List Char)
  | 0, _ => none
  | fuel + 1, cs =>
    match cs with
    | '"' :: '"' :: '"' :: '"' :: '"' :: rest => some (['"', '"'], rest)
    | '"' :: '"' :: '"' :: '"' :: rest => some (['"'], rest)
    | '"' :: '"' :: '"' :: rest => some ([], rest)
    | '\\' :: rest =>
      match pastBreak? (rest.dropWhile isBlank) with
      | some rest => multilineBasic? fuel (skipBreaks rest)
      | none =>
        match escape? rest with
        | some (c, rest) => (multilineBasic? fuel rest).map fun (s, rest) => (c :: s, rest)
        | none => none
    | c :: rest =>
      match pastBreak? cs with
      | some rest => (multilineBasic? fuel rest).map fun (s, rest) => ('\n' :: s, rest)
      | none =>
        if isAllowed c then (multilineBasic? fuel rest).map fun (s, rest) => (c :: s, rest)
        else none
    | [] => none

/-- A literal string on several lines, after its opening quotes. -/
def multilineLiteral? : List Char → Option (List Char × List Char)
  | '\'' :: '\'' :: '\'' :: '\'' :: '\'' :: rest => some (['\'', '\''], rest)
  | '\'' :: '\'' :: '\'' :: '\'' :: rest => some (['\''], rest)
  | '\'' :: '\'' :: '\'' :: rest => some ([], rest)
  | '\r' :: '\n' :: rest => (multilineLiteral? rest).map fun (s, rest) => ('\n' :: s, rest)
  | c :: rest =>
    if isAllowed c || c == '\n' then
      (multilineLiteral? rest).map fun (s, rest) => (c :: s, rest)
    else none
  | [] => none

/-- A string on several lines begins after a line break in front. -/
def pastFirstBreak (cs : List Char) : List Char := (pastBreak? cs).getD cs

/-- A quoted string of any kind, and what follows it. -/
def string? (cs : List Char) : Option (List Char × List Char) :=
  match cs with
  | '"' :: '"' :: '"' :: rest => multilineBasic? (rest.length + 1) (pastFirstBreak rest)
  | '"' :: rest => basic? (rest.length + 1) rest
  | '\'' :: '\'' :: '\'' :: rest => multilineLiteral? (pastFirstBreak rest)
  | '\'' :: rest => literal? rest
  | _ => none

end Toml

end ArrayGraph
