import TextGrammar.Text.Utf8
set_option autoImplicit false

namespace TextGrammar

abbrev Entropy := Bytes

namespace Entropy

def littleEndian : Bytes → Nat
  | [] => 0
  | b :: bs => b.toNat + 256 * littleEndian bs

def bigEndian (bs : Bytes) : Nat := bs.foldl (fun n b => 256 * n + b.toNat) 0

def word (e : Entropy) : Nat × Entropy := (littleEndian (e.take 4), e.drop 4)

def coin (e : Entropy) : Bool × Entropy := (littleEndian (e.take 1) % 2 = 1, e.drop 1)

/-- Number of bytes that it takes to write `n`, at most eight. -/
def byteWidth (n : Nat) : Nat := (List.range 8).countP fun k => 0 < n / Nat.pow 256 k

/-- An integer from `low` to `high`. As many bytes are taken as the distance of the two has. -/
def integer (low high : Int64) (e : Entropy) : Int64 × Entropy :=
  let distance := (high.toInt - low.toInt).toNat
  let width := byteWidth distance
  (Int64.ofInt (low.toInt + (bigEndian (e.take width) % (distance + 1) : Nat)), e.drop width)

def unit (e : Entropy) : Float × Entropy :=
  let (n, e) := e.word
  (Float.ofNat n / 4294967296.0, e)

def float (low high : Float) (e : Entropy) : Float × Entropy :=
  let (t, e) := e.unit
  (low * (1.0 - t) + high * t, e)

end Entropy
end TextGrammar
