import TextGrammar.Text.Location
set_option autoImplicit false

namespace TextGrammar.Parsing

structure Furthest where
  pos : Nat
  /-- What would have been accepted there, each once. -/
  expected : List String
deriving Repr

namespace Furthest

def nothing : Furthest := ⟨0, []⟩

def unite (xs ys : List String) : List String := xs ++ ys.filter fun y => !xs.contains y

def join (a b : Furthest) : Furthest :=
  if a.pos < b.pos then b
  else if b.pos < a.pos then a
  else ⟨a.pos, unite a.expected b.expected⟩

def orderedInsert (x : String) : List String → List String
  | [] => [x]
  | y :: ys => if x < y then x :: y :: ys else y :: orderedInsert x ys

def sorted (xs : List String) : List String := xs.foldr orderedInsert []

def text (f : Furthest) : String :=
  match sorted f.expected with
  | [] => "<unreported>"
  | [x] => x
  | xs => "one of " ++ ", ".intercalate xs

def location (f : Furthest) (source : List Char) : Location := Location.ofOffset source f.pos

end Furthest
end TextGrammar.Parsing
