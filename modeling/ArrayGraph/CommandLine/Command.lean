import ArrayGraph.Text.Terminal
/-!
# Commands

What the words of a command line ask for. The words are read from left to right and
the first fault ends the reading. The value of an option may stand in the next word;
it is settled when the next known option comes, or at the end, so an unknown word
after it is reported first.
-/

namespace ArrayGraph.CommandLine

/-- The options that are known. -/
inductive Switch
  | settings | patterns | help
  deriving DecidableEq, Repr

/-- An option as faults show it. -/
def Switch.text : Switch → String
  | settings => "--config <CONFIG>"
  | patterns => "--patterns"
  | help => "--help"

def Switch.ofLong? : String → Option Switch
  | "config" => some settings
  | "patterns" => some patterns
  | "help" => some help
  | _ => none

/-- What is wrong with a command line. -/
inductive Fault
  | unexpectedWord (word : String)
  | unexpectedValue (value : String) (switch : Switch)
  | missingValue (switch : Switch)
  | repeated (switch : Switch)
  deriving DecidableEq, Repr

/-- A fault in words. What it quotes of the command line must not steer a terminal. -/
def Fault.message : Fault → String
  | unexpectedWord word => "unexpected argument '" ++ Terminal.plain word ++ "' found"
  | unexpectedValue value switch =>
    "unexpected value '" ++ Terminal.plain value ++ "' for '" ++ switch.text
      ++ "' found; no more were expected"
  | missingValue switch =>
    "a value is required for '" ++ switch.text ++ "' but none was supplied"
  | repeated switch => "the argument '" ++ switch.text ++ "' cannot be used multiple times"

/-! ## Words -/

/-- The form of a word. -/
inductive Word
  /-- Two dashes: no options follow. -/
  | separator
  /-- Two dashes and a name, which a value may follow after an equals sign. -/
  | long (name : String) (value : Option String)
  /-- A dash and the letter of an option. -/
  | short (letter : Char)
  | plain (text : String)
  deriving DecidableEq, Repr

def Word.ofText (text : String) : Word :=
  match text.toList with
  | ['-', '-'] => separator
  | '-' :: '-' :: rest =>
    let value := match rest.dropWhile (· != '=') with
      | _ :: value => some (String.ofList value)
      | [] => none
    long (String.ofList (rest.takeWhile (· != '='))) value
  | '-' :: letter :: _ => short letter
  | _ => plain text

/-! ## Reading -/

/-- What a command line asks for. -/
inductive Command
  | help
  /-- To run with the settings in a file, and to list the patterns or not. -/
  | run (settings : Option String) (listing : Bool)
  deriving DecidableEq, Repr

/-- How far a value that may be in the next word has come. -/
inductive Pending
  | nothing
  | value
  | settled (value : String)
  deriving DecidableEq, Repr

/-- What the words so far ask for. -/
structure Reading where
  settings : Option String := none
  listing : Bool := false
  pending : Pending := .nothing
  deriving DecidableEq, Repr

namespace Reading

/-- Takes the value of the settings option. -/
def take (r : Reading) (value : String) : Except Fault Reading :=
  if r.settings.isSome then .error (.repeated .settings)
  else if value = "" then .error (.missingValue .settings)
  else .ok { r with settings := some value, pending := .nothing }

/-- Takes the value that is pending, if any. -/
def settle (r : Reading) : Except Fault Reading :=
  match r.pending with
  | .nothing => .ok r
  | .value => .error (.missingValue .settings)
  | .settled value => r.take value

def list (r : Reading) : Except Fault Reading :=
  if r.listing then .error (.repeated .patterns) else .ok { r with listing := true }

def finish (r : Reading) : Except Fault Command := do
  let r ← r.settle
  return .run r.settings r.listing

/-- Reads on. -/
def read (r : Reading) : List String → Except Fault Command
  | [] => r.finish
  | text :: rest =>
    match Word.ofText text with
    | .separator =>
      match rest with
      | [] => r.finish
      | next :: _ => .error (.unexpectedWord next)
    | .long name value =>
      match Switch.ofLong? name, value with
      | none, _ => .error (.unexpectedWord ("--" ++ name))
      | some .settings, some value => do
        let r ← (← r.settle).take value
        r.read rest
      | some .settings, none => do
        let r ← r.settle
        read { r with pending := .value } rest
      | some switch, some value => .error (.unexpectedValue value switch)
      | some .patterns, none => do
        let r ← (← r.settle).list
        r.read rest
      | some .help, none => do
        let _ ← r.settle
        return .help
    | .short letter =>
      if letter = 'h' then do
        let _ ← r.settle
        return .help
      else .error (.unexpectedWord (String.ofList ['-', letter]))
    | .plain text =>
      match r.pending with
      | .value => read { r with pending := .settled text } rest
      | _ => .error (.unexpectedWord text)

end Reading

/-- What the words of a command line ask for. -/
def Command.ofWords (words : List String) : Except Fault Command := Reading.read {} words

end ArrayGraph.CommandLine
