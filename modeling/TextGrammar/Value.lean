import TextGrammar.Decimal.Text
set_option autoImplicit false

namespace TextGrammar

inductive Value where
  | nil
  | bool (b : Bool)
  | int (n : Int64)
  | float (x : Float)
  | str (s : String)

namespace Value

/-- Only `nil` and `false` do not count as true. -/
def isTruthy : Value → Bool
  | .nil | .bool false => false
  | _ => true

def isText : Value → Bool
  | .str _ => true
  | _ => false

def text : Value → String
  | .nil => ""
  | .bool b => if b then "true" else "false"
  | .int n => Decimal.integerText n
  | .float x => Decimal.valueText x
  | .str s => s

inductive Kind where
  | nil | bool | int | float | str
deriving DecidableEq, Repr

def kind : Value → Kind
  | .nil => .nil
  | .bool _ => .bool
  | .int _ => .int
  | .float _ => .float
  | .str _ => .str

def Kind.name : Kind → String
  | .nil => "nil"
  | .bool => "bool"
  | .int => "int"
  | .float => "float"
  | .str => "string"

end Value

abbrev Bindings := List (String × Value)

namespace Bindings

def get? (b : Bindings) (name : String) : Option Value := b.lookup name

/-- A new value keeps the place of the old one. -/
def set : Bindings → String → Value → Bindings
  | [], name, v => [(name, v)]
  | (n, w) :: b, name, v => if n = name then (n, v) :: b else (n, w) :: Bindings.set b name v

theorem get?_set_self (b : Bindings) (name : String) (v : Value) : (b.set name v).get? name = some v := by
  induction b with
  | nil => simp [set, get?]
  | cons p b ih =>
    obtain ⟨n, w⟩ := p
    by_cases h : n = name
    · simp [set, get?, h]
    · have h' : (name == n) = false := by simpa using fun e => h e.symm
      simpa [set, get?, h, List.lookup_cons, h'] using ih

theorem get?_set_of_ne (b : Bindings) (name other : String) (v : Value) (h : other ≠ name) :
    (b.set name v).get? other = b.get? other := by
  induction b with
  | nil =>
    have ho : (other == name) = false := by simpa using h
    simp [set, get?, List.lookup_cons, ho]
  | cons p b ih =>
    obtain ⟨n, w⟩ := p
    by_cases hn : n = name
    · subst hn
      have ho : (other == n) = false := by simpa using h
      simp [set, get?, List.lookup_cons, ho]
    · simp only [set, get?, hn, if_false, List.lookup_cons] at ih ⊢
      split <;> simp_all

end Bindings
end TextGrammar
