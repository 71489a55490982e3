import TextGrammar.Decimal.Text
set_option autoImplicit false

namespace TextGrammar.Grammar

inductive Number where
  | int (n : Int64)
  | float (x : Float)

namespace Number

def toFloat : Number → Float
  | .int n => Binary64.ofInt64 n
  | .float x => x

def text : Number → String
  | .int n => Decimal.integerText n
  | .float x => Decimal.valueText x

end Number

inductive Probability where
  | automatic
  | explicit (p : Float)

structure Alternative (β : Type) where
  probability : Probability
  body : β

inductive Expr where
  | literal (text : String)
  | range (low high : Number) (pos : Nat)
  | reference (name : String) (pos : Nat)
  /-- Without a greatest number there is no bound. -/
  | repetition (body : Expr) (least : UInt32) (most : Option UInt32) (pos : Nat)
  | sequence (items : List Expr)
  | choice (alternatives : List (Alternative Expr)) (pos : Nat)
  /-- A block whose value is written. -/
  | generate (code : String)
  /-- A block whose value decides whether to go on. -/
  | check (code : String)
  /-- A block that is run for its assignments. -/
  | action (code : String)
  /-- Binds a name to what the body wrote, and takes it back if it is to be discarded. -/
  | capture (body : Expr) (name : String) (discard : Bool)

namespace Expr

def items : Expr → List Expr
  | .sequence es => es
  | e => [e]

/-- One expression after the other, without sequences directly inside a sequence. -/
def ofItems : List Expr → Expr
  | [e] => e
  | es => .sequence (es.flatMap items)

end Expr

structure Rule where
  name : String
  body : Expr
  pos : Nat

inductive Item where
  | rule (rule : Rule)
  | expr (expr : Expr)

def Item.rule? : Item → Option Rule
  | .rule r => some r
  | .expr _ => none

def Item.expr? : Item → Option Expr
  | .rule _ => none
  | .expr e => some e

end Grammar

/-- Rules in the order of their definitions, and the bare expressions in their order. -/
structure Grammar where
  rules : List Grammar.Rule
  entry : List Grammar.Expr

def Grammar.ofItems (items : List Grammar.Item) : Grammar :=
  ⟨items.filterMap Grammar.Item.rule?, items.filterMap Grammar.Item.expr?⟩

end TextGrammar
