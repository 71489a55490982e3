import TextGrammar.Decimal.Binary64
set_option autoImplicit false

namespace TextGrammar.Decimal
open Binary64

def isDigit (c : Char) : Bool := '0' ≤ c && c ≤ '9'

def digitValue (c : Char) : Nat := c.toNat - '0'.toNat

def natOfDigits (cs : List Char) : Nat := cs.foldl (fun n c => 10 * n + digitValue c) 0

def int64? (n : Int) : Option Int64 :=
  if Int64.minValue.toInt ≤ n ∧ n ≤ Int64.maxValue.toInt then some (Int64.ofInt n) else none

def uint32? (n : Nat) : Option UInt32 :=
  if n < UInt32.size then some (UInt32.ofNat n) else none

def signed (negative : Bool) (n : Nat) : Int := if negative then -(n : Int) else n

/-- The parts of a written decimal: `whole.fraction * 10 ^ exponent`. -/
structure Numeral where
  negative : Bool
  whole : List Char
  fraction : List Char
  exponent : Int

/-- Past this power of ten every decimal is infinite, and below its opposite every one is zero. -/
def farthestPoint : Int := 400

/-- The nearest float. Decimals far out of range are cut off before any power of ten is formed. -/
def Numeral.toFloat (n : Numeral) : Float :=
  let m := natOfDigits (n.whole ++ n.fraction)
  let e := n.exponent - n.fraction.length
  let point := (toString m).length + e
  let x :=
    if m = 0 then 0.0
    else if farthestPoint < point then infinity
    else if point < -farthestPoint then 0.0
    else Float.ofScientific m (e < 0) e.natAbs
  if n.negative then -x else x

def splitSign : List Char → Bool × List Char
  | '-' :: cs => (true, cs)
  | '+' :: cs => (false, cs)
  | cs => (false, cs)

def readInt64 (cs : List Char) : Option Int64 :=
  let (negative, ds) := splitSign cs
  if ds.isEmpty || !ds.all isDigit then none else int64? (signed negative (natOfDigits ds))

def readExponent (cs : List Char) : Option Int :=
  let (negative, ds) := splitSign cs
  if ds.isEmpty || !ds.all isDigit then none else some (signed negative (natOfDigits ds))

def readFraction : List Char → List Char × List Char
  | '.' :: cs => cs.span isDigit
  | cs => ([], cs)

def readNumeral (negative : Bool) (cs : List Char) : Option Numeral :=
  let (whole, cs) := cs.span isDigit
  let (fraction, cs) := readFraction cs
  if whole.isEmpty && fraction.isEmpty then none
  else match cs with
    | [] => some ⟨negative, whole, fraction, 0⟩
    | c :: cs => if c == 'e' || c == 'E' then
        (readExponent cs).map fun e => ⟨negative, whole, fraction, e⟩
      else none

def lowerAscii (c : Char) : Char := if 'A' ≤ c ∧ c ≤ 'Z' then Char.ofNat (c.toNat + 32) else c

def readFloat (cs : List Char) : Option Float :=
  let (negative, rest) := splitSign cs
  let name := String.ofList (rest.map lowerAscii)
  if name = "inf" ∨ name = "infinity" then some (if negative then -infinity else infinity)
  else if name = "nan" then some notANumber
  else (readNumeral negative rest).map Numeral.toFloat

end TextGrammar.Decimal
