/-!
# Texts for a terminal

A terminal takes some characters of a text for itself: controls, and the sequences
that steer it. `Terminal.plain` leaves them out. What it keeps is what a terminal
would show, and white space.
-/

namespace ArrayGraph

namespace Terminal

/-- Where a reader of a text stands. -/
inductive State
  /-- Outside of sequences. -/
  | ground
  /-- After the character that starts a sequence. -/
  | escape
  /-- In a sequence that has characters of its own before the last. -/
  | intermediate
  /-- In a sequence with numbers. -/
  | command
  /-- At the start, in the numbers and after the numbers of a sequence for a device. -/
  | deviceStart | deviceNumbers | deviceIntermediate
  /-- In a string that only its own end can close. -/
  | string
  /-- In a string that a bell can close, too. -/
  | title
  deriving DecidableEq, Repr

/-- Whether the code point is one of these. -/
def between (first last : Nat) (c : Char) : Bool := first ≤ c.toNat && c.toNat ≤ last

/-- Whether a byte of the character closes a string. -/
def closes (c : Char) : Bool := (String.singleton c).toUTF8.toList.contains 0x9c

/-- Where a character that is no control leads. -/
def State.next (s : State) (c : Char) : State :=
  match s with
  | ground => ground
  | escape =>
    if between 0x20 0x2f c then intermediate
    else if c = '[' then command
    else if c = ']' then title
    else if c = 'P' then deviceStart
    else if c = 'X' ∨ c = '^' ∨ c = '_' then string
    else ground
  | intermediate => if between 0x20 0x2f c then intermediate else ground
  | command => if between 0x20 0x3f c then command else ground
  | deviceStart =>
    if between 0x20 0x2f c then deviceIntermediate
    else if between 0x30 0x3f c then deviceNumbers
    else string
  | deviceNumbers =>
    if between 0x20 0x2f c then deviceIntermediate
    else if between 0x30 0x3b c then deviceNumbers
    else string
  | deviceIntermediate => if between 0x20 0x2f c then deviceIntermediate else string
  | string => string
  | title => title

/-- Whether white space shows inside a sequence. -/
def State.showsBreaks : State → Bool
  | ground | escape | intermediate | command => true
  | _ => false

def isBreak (c : Char) : Bool := c == '\t' || c == '\n' || c == '\x0c' || c == '\r'

/-- Where a character leads, and whether it shows. -/
def State.step (s : State) (c : Char) : State × Bool :=
  if c = '\x18' ∨ c = '\x1a' then (ground, false)
  else if c = '\x1b' then (escape, false)
  else if c.toNat < 0x20 then
    if s = title ∧ c = '\x07' then (ground, false) else (s, s.showsBreaks && isBreak c)
  else if c = '\x7f' then (s, false)
  else if c.toNat < 0x80 then (s.next c, s == ground)
  else if s = ground then (ground, true)
  else if s = string ∧ closes c then (ground, false)
  else (s, false)

/-- The characters that show. In a run of characters that show, which white space may
start inside a sequence, all is read as if it stood outside; the sequence goes on
after the run. -/
def shown (s : State) (inRun : Bool) : List Char → List Char
  | [] => []
  | c :: cs =>
    if inRun && (State.ground.step c).2 then
      c :: shown (if c.toNat < 0x80 then s else .ground) true cs
    else
      let (s, shows) := s.step c
      if shows then c :: shown s true cs else shown s false cs

/-- The text without what a terminal would take for itself. -/
def plain (s : String) : String := String.ofList (shown .ground false s.toList)

end Terminal

end ArrayGraph
