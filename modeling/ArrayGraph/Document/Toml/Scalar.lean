import ArrayGraph.Document.Basic
/-!
# Plain scalars of configuration texts

Numbers, truth values, dates and times are written without quotes, as a run of
letters, digits and a few signs. `Toml.scalar?` reads such a run.
-/

namespace ArrayGraph

namespace Toml

/-- Whether the character may be part of a plain scalar. -/
def isPlain (c : Char) : Bool :=
  c.isAlphanum || c == '+' || c == '-' || c == '_' || c == '.' || c == ':'

/-! ## Digits -/

/-- Digits in which single underscores may stand between two of them: the digits
alone. -/
def grouped? (isDigit : Char → Bool) : List Char → Option (List Char)
  | [] => none
  | [c] => if isDigit c then some [c] else none
  | c :: '_' :: rest => if isDigit c then (grouped? isDigit rest).map (c :: ·) else none
  | c :: rest => if isDigit c then (grouped? isDigit rest).map (c :: ·) else none

def digitValue (c : Char) : Nat :=
  if c.isDigit then c.toNat - '0'.toNat else c.toLower.toNat - 'a'.toNat + 10

/-- The number that digits write in a base. -/
def numberIn (base : Nat) (ds : List Char) : Nat :=
  ds.foldl (fun n c => base * n + digitValue c) 0

def isHexDigit (c : Char) : Bool :=
  c.isDigit || ('a' ≤ c && c ≤ 'f') || ('A' ≤ c && c ≤ 'F')

def isOctalDigit (c : Char) : Bool := '0' ≤ c && c ≤ '7'

def isBinaryDigit (c : Char) : Bool := c == '0' || c == '1'

/-- A sign in front, and what follows it. -/
def sign : List Char → Bool × List Char
  | '-' :: rest => (true, rest)
  | '+' :: rest => (false, rest)
  | cs => (false, cs)

/-- Digits of a decimal integer: no zero in front of others. -/
def decimal? (cs : List Char) : Option (List Char) :=
  match cs with
  | '0' :: _ :: _ => none
  | cs => grouped? Char.isDigit cs

/-! ## Integers -/

/-- The end of the range of integers, `2 ^ 63`: they fit 64 bits with their sign. -/
def integerBound : Nat := 9223372036854775808

/-- An integer in the range. -/
def integer? (cs : List Char) : Option Int :=
  let n? : Option Int :=
    match cs with
    | '0' :: 'x' :: ds => (grouped? isHexDigit ds).map fun ds => (numberIn 16 ds : Int)
    | '0' :: 'o' :: ds => (grouped? isOctalDigit ds).map fun ds => (numberIn 8 ds : Int)
    | '0' :: 'b' :: ds => (grouped? isBinaryDigit ds).map fun ds => (numberIn 2 ds : Int)
    | cs =>
      let (negative, ds) := sign cs
      (decimal? ds).map fun ds =>
        let n : Int := numberIn 10 ds
        if negative then -n else n
  n?.filter fun n => -(integerBound : Int) ≤ n ∧ n < integerBound

/-! ## Other numbers -/

/-- What comes before the first character that passes, and from there on. -/
def cutAt (p : Char → Bool) (cs : List Char) : List Char × List Char :=
  (cs.takeWhile (!p ·), cs.dropWhile (!p ·))

def isExponentMark (c : Char) : Bool := c == 'e' || c == 'E'

/-- The least power of ten to be sure of that is beyond every number of the format. -/
def beyond : Int := 400

/-- Whether `digits * 10 ^ exponent` rounds to infinity: it is at least halfway from
the greatest finite number to the next power of two. -/
def overflows (digits : Nat) (exponent : Int) : Bool :=
  if digits = 0 then false
  else
    let size := ((Nat.toDigits 10 digits).length : Int) + exponent
    if size > beyond then true
    else if size < 0 then false
    else Nat.pow 2 1024 - Nat.pow 2 970
      ≤ digits * Nat.pow 10 exponent.toNat / Nat.pow 10 (-exponent).toNat

/-- A number with a fraction or an exponent; it must not be too great. Infinity and
what is no number have names. -/
def isReal (cs : List Char) : Bool :=
  let (negative, ds) := sign cs
  if ds == ['i', 'n', 'f'] || ds == ['n', 'a', 'n'] then true
  else
    let (mantissa, exponentPart) := cutAt isExponentMark ds
    let (whole, fractionPart) := cutAt (· == '.') mantissa
    let fraction? := match fractionPart with
      | [] => some []
      | _ :: ds => grouped? Char.isDigit ds
    let exponent? : Option Int := match exponentPart with
      | [] => some 0
      | _ :: cs =>
        let (negative, ds) := sign cs
        (grouped? Char.isDigit ds).map fun ds =>
          let n : Int := numberIn 10 ds
          if negative then -n else n
    match decimal? whole, fraction?, exponent? with
    | some whole, some fraction, some exponent =>
      (fractionPart != [] || exponentPart != [])
        && (negative || !overflows (numberIn 10 (whole ++ fraction)) (exponent - fraction.length))
    | _, _, _ => false

/-! ## Dates and times -/

/-- The number that exactly this many digits in front write, and what follows. -/
def fixed? (count : Nat) (cs : List Char) : Option (Nat × List Char) :=
  let ds := cs.take count
  if ds.length = count ∧ ds.all Char.isDigit then some (numberIn 10 ds, cs.drop count) else none

/-- What follows a character. -/
def past? (c : Char) : List Char → Option (List Char)
  | x :: rest => if x = c then some rest else none
  | [] => none

def daysIn (year month : Nat) : Nat :=
  if month = 2 then if year % 4 = 0 ∧ (year % 100 ≠ 0 ∨ year % 400 = 0) then 29 else 28
  else if month = 4 ∨ month = 6 ∨ month = 9 ∨ month = 11 then 30
  else 31

/-- A date of the calendar, and what follows it. -/
def date? (cs : List Char) : Option (List Char) := do
  let (year, cs) ← fixed? 4 cs
  let cs ← past? '-' cs
  let (month, cs) ← fixed? 2 cs
  let cs ← past? '-' cs
  let (day, cs) ← fixed? 2 cs
  if 1 ≤ month ∧ month ≤ 12 ∧ 1 ≤ day ∧ day ≤ daysIn year month then some cs else none

/-- A fraction of a second may follow. -/
def secondFraction? : List Char → Option (List Char)
  | '.' :: rest =>
    if (rest.takeWhile Char.isDigit).isEmpty then none else some (rest.dropWhile Char.isDigit)
  | cs => some cs

/-- A time of day, and what follows it. -/
def time? (cs : List Char) : Option (List Char) := do
  let (hour, cs) ← fixed? 2 cs
  let cs ← past? ':' cs
  let (minute, cs) ← fixed? 2 cs
  let cs ← past? ':' cs
  let (second, cs) ← fixed? 2 cs
  if hour ≤ 23 ∧ minute ≤ 59 ∧ second ≤ 60 then secondFraction? cs else none

/-- Whether this is a distance from universal time, or nothing. -/
def isOffset (cs : List Char) : Bool :=
  match cs with
  | [] | ['Z'] | ['z'] => true
  | c :: rest =>
    (c == '+' || c == '-') &&
      match fixed? 2 rest with
      | some (hour, ':' :: rest) =>
        match fixed? 2 rest with
        | some (minute, []) => hour ≤ 23 && minute ≤ 59
        | _ => false
      | _ => false

/-- Whether this is a time of day and perhaps its distance from universal time. -/
def isZonedTime (cs : List Char) : Bool := (time? cs).any isOffset

/-- Whether this is a date, a date with a time, or a time of day alone. -/
def isDateTime (cs : List Char) : Bool :=
  time? cs == some [] ||
    match date? cs with
    | some [] => true
    | some (c :: rest) => (c == 'T' || c == 't') && isZonedTime rest
    | none => false

/-- No setting is a date or a time: one reads as a table without members. -/
def dateTime : Document := .table []

/-! ## All of them -/

/-- The scalar that a run of plain characters writes. -/
def scalar? (cs : List Char) : Option Document :=
  if cs = ['t', 'r', 'u', 'e'] then some (.boolean true)
  else if cs = ['f', 'a', 'l', 's', 'e'] then some (.boolean false)
  else if isDateTime cs then some dateTime
  else
    match integer? cs with
    | some n => some (.integer n)
    | none => if isReal cs then some .number else none

/-- A scalar in front, and what follows it. One blank may stand between a date and a
time of day. -/
def plain? (cs : List Char) : Option (Document × List Char) :=
  let word := cs.takeWhile isPlain
  let rest := cs.dropWhile isPlain
  match date? word, rest with
  | some [], ' ' :: more =>
    let second := more.takeWhile isPlain
    if isZonedTime second then
      some (dateTime, more.dropWhile isPlain)
    else some (dateTime, rest)
  | _, _ => (scalar? word).map (·, rest)

end Toml

end ArrayGraph
