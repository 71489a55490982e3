import TextGrammar.Decimal.Binary64
set_option autoImplicit false

/-!
# The shortest decimal that reads back

Among the decimals that round to a given float, those with the fewest digits are candidates, and of these the
nearest one is taken. All comparisons are made in whole numbers.
-/
namespace TextGrammar.Decimal
open Binary64

inductive Tie where
  | toEven
  | up
deriving DecidableEq, Repr

/-- The number `0.d₁d₂… * 10 ^ point`. -/
structure Expansion where
  digits : List Char
  point : Int
deriving DecidableEq, Repr

/-- A positive float as the fraction `middle / unit`, with the ends of the interval of reals that
round to it on the same unit. -/
structure Interval where
  low : Nat
  middle : Nat
  high : Nat
  unit : Nat
  closed : Bool

def interval (mantissa : Nat) (exponent : Int) : Interval :=
  let below := if mantissa = hiddenBit ∧ leastExponent < exponent then 1 else 2
  let scale := Nat.pow 2 (exponent - 2).toNat
  { low := (4 * mantissa - below) * scale
    middle := 4 * mantissa * scale
    high := (4 * mantissa + 2) * scale
    unit := Nat.pow 2 (2 - exponent).toNat
    closed := mantissa % 2 = 0 }

def digitsOf (n : Nat) : List Char := (toString n).toList

def digitCount (n : Nat) : Nat := (digitsOf n).length

/-- The `p` with `10 ^ (p - 1) ≤ middle / unit < 10 ^ p`. -/
def Interval.point (i : Interval) : Int :=
  if i.unit ≤ i.middle then digitCount (i.middle / i.unit)
  else
    let n := digitCount (i.unit / i.middle)
    if i.unit ≤ i.middle * Nat.pow 10 (n - 1) then 2 - n else 1 - n

/-- The sides of a comparison of `c * 10 ^ k` with a point of the interval: `c` on one scale, and the factor
that brings the points of the interval to it. -/
def Interval.scaled (i : Interval) (c : Nat) (k : Int) : Nat × Nat :=
  (c * Nat.pow 10 k.toNat * i.unit, Nat.pow 10 (-k).toNat)

def Interval.contains (i : Interval) (c : Nat) (k : Int) : Bool :=
  let (x, s) := i.scaled c k
  if i.closed then i.low * s ≤ x && x ≤ i.high * s else i.low * s < x && x < i.high * s

/-- The greatest `c` for which `c * 10 ^ k` does not pass the middle. -/
def Interval.floorAt (i : Interval) (k : Int) : Nat :=
  let (x, s) := i.scaled 1 k
  i.middle * s / x

def Interval.nearer (i : Interval) (tie : Tie) (c : Nat) (k : Int) : Nat :=
  let (x, s) := i.scaled (2 * c + 1) k
  match compare (2 * i.middle * s) x with
  | .lt => c
  | .gt => c + 1
  | .eq => match tie with
    | .toEven => if c % 2 = 0 then c else c + 1
    | .up => c + 1

def Interval.onGrid (i : Interval) (tie : Tie) (k : Int) : Option Nat :=
  let c := i.floorAt k
  match i.contains c k, i.contains (c + 1) k with
  | true, true => some (i.nearer tie c k)
  | true, false => some c
  | false, true => some (c + 1)
  | false, false => none

/-- Tries `fuel` grids, the coarsest first. Seventeen digits always suffice. -/
def Interval.search (i : Interval) (tie : Tie) (k : Int) : Nat → Nat × Int
  | 0 => (i.floorAt k, k)
  | fuel + 1 => match i.onGrid tie k with
    | some c => (c, k)
    | none => i.search tie (k - 1) fuel

def dropTrailingZeros (digits : List Char) : List Char :=
  (digits.reverse.dropWhile (· == '0')).reverse

def shortest (tie : Tie) (mantissa : Nat) (exponent : Int) : Expansion :=
  let i := interval mantissa exponent
  let (c, k) := i.search tie (i.point - 1) 17
  let digits := digitsOf c
  ⟨dropTrailingZeros digits, digits.length + k⟩

end TextGrammar.Decimal
