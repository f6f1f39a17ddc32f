import ArrayGraph.Text.Hidden
/-!
# Quoted text

A text in double quotes that can be read off a terminal: a quote or a backslash
follows a backslash, the common controls have a letter, and every other character
that does not show is written as its code point in hexadecimal.
-/

namespace ArrayGraph

namespace Quoted

/-- A character as it stands between the quotes. -/
def escape (c : Char) : List Char :=
  match c with
  | '\x00' => ['\\', '0']
  | '\t' => ['\\', 't']
  | '\n' => ['\\', 'n']
  | '\r' => ['\\', 'r']
  | '"' => ['\\', '"']
  | '\\' => ['\\', '\\']
  | c =>
    if isHidden c then '\\' :: 'u' :: '\x7b' :: Nat.toDigits 16 c.toNat ++ ['\x7d']
    else [c]

end Quoted

/-- The text in quotes. -/
def quoted (s : String) : String :=
  String.ofList ('"' :: s.toList.flatMap Quoted.escape ++ ['"'])

/-- A list of texts in quotes. -/
def quotedList (xs : List String) : String :=
  "[" ++ String.intercalate ", " (xs.map quoted) ++ "]"

end ArrayGraph
