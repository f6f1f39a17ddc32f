/-!
# Decimal text of binary64 numbers

A finite number is written with the fewest digits that read back to it, and of
those decimals the one nearest to it. The text never has an exponent: zeros fill
the places up to the point. Arithmetic is exact, on naturals.

`Decimal.shortest` finds the digits and `Decimal.positional` lays them out.
-/

namespace ArrayGraph

/-- A positive number `mantissa * 2 ^ exponent` of the binary64 format. -/
structure Binary where
  mantissa : Nat
  exponent : Int
  /-- The number is the least of its binade, so the gap below it is half as wide. -/
  narrowBelow : Bool

namespace Binary

/-- The leading bit of a mantissa, which is not stored: `2 ^ 52`. -/
def hiddenBit : Nat := 4503599627370496

/-- The finite nonzero number with these bits, without its sign. -/
def ofBits (bits : UInt64) : Binary :=
  let field : Nat := (bits.toNat >>> 52) % 2048
  let fraction : Nat := bits.toNat % hiddenBit
  if field = 0 then ⟨fraction, -1074, false⟩
  else ⟨fraction + hiddenBit, (field : Int) - 1075, fraction == 0 && field > 1⟩

end Binary

/-- The number `digits * 10 ^ exponent`. -/
structure Decimal where
  digits : Nat
  exponent : Int
  deriving DecidableEq, Repr

namespace Decimal

/-- A positive number, and the ends of the interval of reals that round to it, over
one denominator. -/
structure Window where
  low : Nat
  mid : Nat
  high : Nat
  den : Nat
  /-- The ends themselves round to the number. -/
  closed : Bool

/-- Half a gap on each side, in quarters of the gap above. -/
def Window.ofBinary (b : Binary) : Window :=
  let up := Nat.pow 2 (b.exponent - 2).toNat
  let mid := 4 * b.mantissa
  { low := (mid - if b.narrowBelow then 1 else 2) * up
    mid := mid * up
    high := (mid + 2) * up
    den := Nat.pow 2 (2 - b.exponent).toNat
    closed := b.mantissa % 2 == 0 }

/-- The window measured in units of `10 ^ exponent`. -/
def Window.inUnits (w : Window) (exponent : Int) : Window :=
  let up := Nat.pow 10 (-exponent).toNat
  { w with
    low := w.low * up
    mid := w.mid * up
    high := w.high * up
    den := w.den * Nat.pow 10 exponent.toNat }

/-- Whether the whole number `n` lies in the window. -/
def Window.holds (w : Window) (n : Nat) : Bool :=
  let x := n * w.den
  if w.closed then w.low ≤ x && x ≤ w.high else w.low < x && x < w.high

/-- The whole number of the window nearest to its middle; of two at the same
distance, the upper one. -/
def Window.nearest? (w : Window) : Option Nat :=
  let n := w.mid / w.den
  match w.holds n, w.holds (n + 1) with
  | true, true => some (if 2 * (w.mid - n * w.den) < w.den then n else n + 1)
  | true, false => some n
  | false, true => some (n + 1)
  | false, false => none

/-- The number of decimal digits; zero has none. -/
def digitCount (n : Nat) : Nat := if n = 0 then 0 else (Nat.toDigits 10 n).length

/-- The exponent of the leading digit of a positive number. -/
def Window.magnitude (w : Window) : Int :=
  if w.den ≤ w.mid then (digitCount (w.mid / w.den) : Int) - 1
  else
    let k := digitCount (w.den / w.mid)
    if w.den ≤ w.mid * Nat.pow 10 (k - 1) then 1 - (k : Int) else -(k : Int)

/-- The window's decimal on the grids of `count`, `count + 1`, … digits, whichever
has one first. Seventeen digits always do. -/
def Window.search (w : Window) (top : Int) : Nat → Nat → Decimal
  | _, 0 => ⟨0, 0⟩
  | count, tries + 1 =>
    let exponent := top - count + 1
    match (w.inUnits exponent).nearest? with
    | some n => ⟨n, exponent⟩
    | none => w.search top (count + 1) tries

/-- Moves the zeros at the end of the digits into the exponent. -/
def trim : Nat → Decimal → Decimal
  | 0, d => d
  | n + 1, d => if d.digits % 10 = 0 then trim n ⟨d.digits / 10, d.exponent + 1⟩ else d

/-- The decimal of fewest digits that reads back to the number. -/
def shortest (b : Binary) : Decimal :=
  let w := Window.ofBinary b
  trim 17 (w.search w.magnitude 1 17)

/-- The digits with the point in its place and zeros where digits are missing. -/
def positional (d : Decimal) : String :=
  let digits := Nat.toDigits 10 d.digits
  if 0 ≤ d.exponent then String.ofList (digits ++ List.replicate d.exponent.toNat '0')
  else
    let places := (-d.exponent).toNat
    let padded := List.replicate (places + 1 - digits.length) '0' ++ digits
    let whole := padded.length - places
    String.ofList (padded.take whole ++ '.' :: padded.drop whole)

end Decimal

/-- The text of a number: fewest digits, no exponent, a sign on negative zero. -/
def decimalText (x : Float) : String :=
  if x.isNaN then "NaN"
  else
    let sign := if x.toBits >>> 63 == 1 then "-" else ""
    if x.isInf then sign ++ "inf"
    else if x == 0 then sign ++ "0"
    else sign ++ (Decimal.shortest (Binary.ofBits x.toBits)).positional

end ArrayGraph
