set_option autoImplicit false

namespace TextGrammar.Binary64

structure Dyadic where
  negative : Bool
  mantissa : Nat
  exponent : Int
deriving DecidableEq, Repr

inductive Kind where
  | nan
  | infinite (negative : Bool)
  | finite (value : Dyadic)

def leastExponent : Int := -1074

def hiddenBit : Nat := Nat.pow 2 52

def kind (x : Float) : Kind :=
  let bits := x.toBits.toNat
  let negative : Bool := bits / Nat.pow 2 63 = 1
  let field : Nat := bits / Nat.pow 2 52 % Nat.pow 2 11
  let fraction : Nat := bits % Nat.pow 2 52
  if field = 2047 then
    if fraction = 0 then .infinite negative else .nan
  else if field = 0 then .finite ⟨negative, fraction, leastExponent⟩
  else .finite ⟨negative, hiddenBit + fraction, field - 1075⟩

def Dyadic.toFloat (d : Dyadic) : Float :=
  let x := (Float.ofNat d.mantissa).scaleB d.exponent
  if d.negative then -x else x

def ofInt64 (n : Int64) : Float := Float.ofInt n.toInt

def notANumber : Float := 0.0 / 0.0

def infinity : Float := 1.0 / 0.0

/-- The remainder of `x` by `y` with the sign of `x`, on the grid of the finer of the two. It has no more
bits than the divisor or the dividend, so nothing is rounded. -/
def Dyadic.remainder (x y : Dyadic) : Dyadic :=
  let e := min x.exponent y.exponent
  let m : Nat := x.mantissa * Nat.pow 2 (x.exponent - e).toNat % (y.mantissa * Nat.pow 2 (y.exponent - e).toNat)
  ⟨x.negative, m, e⟩

def remainder (x y : Float) : Float :=
  match kind x, kind y with
  | .nan, _ | _, .nan | .infinite _, _ => notANumber
  | .finite _, .infinite _ => x
  | .finite a, .finite b => if b.mantissa = 0 then notANumber else (a.remainder b).toFloat

end TextGrammar.Binary64
