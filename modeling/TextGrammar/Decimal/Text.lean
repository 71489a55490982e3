import TextGrammar.Decimal.Shortest
set_option autoImplicit false

namespace TextGrammar.Decimal
open Binary64

def zeros (n : Nat) : List Char := List.replicate n '0'

def Expansion.positional (e : Expansion) : List Char :=
  let n := e.digits.length
  if e.point ≤ 0 then '0' :: '.' :: zeros (-e.point).toNat ++ e.digits
  else if n ≤ e.point then e.digits ++ zeros (e.point - n).toNat
  else e.digits.take e.point.toNat ++ '.' :: e.digits.drop e.point.toNat

def Expansion.scientific (e : Expansion) : List Char :=
  let power := 'e' :: (toString (e.point - 1)).toList
  match e.digits with
  | [] => '0' :: power
  | [d] => d :: power
  | d :: ds => d :: '.' :: ds ++ power

def withSign (negative : Bool) (cs : List Char) : List Char := if negative then '-' :: cs else cs

/-- Always positional, and whole numbers bare: `1`, `0.25`, `0.0000001`. -/
def plainText (x : Float) : String :=
  match kind x with
  | .nan => "NaN"
  | .infinite negative => String.ofList (withSign negative ['i', 'n', 'f'])
  | .finite d =>
    String.ofList (withSign d.negative
      (if d.mantissa = 0 then ['0'] else (shortest .up d.mantissa d.exponent).positional))

/-- How floats are written where both notations occur. Notation is positional while the point stands behind the place
`first` and not behind the place `last`. -/
structure Style where
  tie : Tie
  first : Int
  last : Int

def Style.text (s : Style) (x : Float) : String :=
  match kind x with
  | .nan => "NaN"
  | .infinite negative => String.ofList (withSign negative ['i', 'n', 'f'])
  | .finite d =>
    String.ofList (withSign d.negative
      (if d.mantissa = 0 then ['0', '.', '0']
      else
        let e := shortest s.tie d.mantissa d.exponent
        if e.point ≤ s.first ∨ s.last < e.point then e.scientific
        else if e.digits.length ≤ e.point then e.positional ++ ['.', '0']
        else e.positional))

def outputStyle : Style := ⟨.toEven, -5, 16⟩

def boundStyle : Style := ⟨.up, -4, 16⟩

def valueText (x : Float) : String := outputStyle.text x

def boundText (x : Float) : String := boundStyle.text x

def integerText (n : Int64) : String := toString n.toInt

end TextGrammar.Decimal
