import TextGrammar.Entropy
set_option autoImplicit false

namespace TextGrammar

structure Pool (τ : Type) where
  items : List (Float × τ)
  total : Float

namespace Pool

variable {τ : Type}

def ofList (items : List (Float × τ)) : Pool τ := ⟨items, items.foldl (fun sum i => sum + i.1) 0.0⟩

def size (p : Pool τ) : Nat := p.items.length

/-- Index of the first item whose partial sum passes the target. The last item is taken where rounding leaves the
target past all sums. -/
def scan (target : Float) (sum : Float) : List (Float × τ) → Nat
  | [] | [_] => 0
  | i :: is => if target < sum + i.1 then 0 else scan target (sum + i.1) is + 1

def takeAt (p : Pool τ) (index : Nat) : Option (τ × Pool τ) :=
  p.items[index]?.map fun i => (i.2, ⟨p.items.eraseIdx index, p.total - i.1⟩)

/-- A candidate and the pool without it, unless the pool is empty. The last item costs no entropy. -/
def draw (p : Pool τ) (e : Entropy) : Option (τ × Pool τ) × Entropy :=
  match p.items with
  | [] => (none, e)
  | [i] => (some (i.2, ⟨[], p.total⟩), e)
  | items =>
    let (t, e) := e.unit
    (p.takeAt (scan (t * p.total) 0.0 items), e)

end Pool
end TextGrammar
