import TextGrammar.Script.Term
import TextGrammar.Evaluator
import TextGrammar.Decimal.Reading
set_option autoImplicit false

namespace TextGrammar.Script

def toFloat? : Value → Option Float
  | .int n => some (Binary64.ofInt64 n)
  | .float x => some x
  | _ => none

def equal : Value → Value → Bool
  | .nil, .nil => true
  | .bool a, .bool b => a == b
  | .int a, .int b => a == b
  | .float a, .float b => a == b
  | .str a, .str b => a == b
  | .int a, .float b => Binary64.ofInt64 a == b
  | .float a, .int b => a == Binary64.ofInt64 b
  | _, _ => false

def orderFloats (a b : Float) : Option Ordering :=
  if a < b then some .lt else if b < a then some .gt else if a == b then some .eq else none

def order? : Value → Value → Option Ordering
  | .int a, .int b => some (compare a.toInt b.toInt)
  | .str a, .str b => some (if a < b then .lt else if a = b then .eq else .gt)
  | x, y => match toFloat? x, toFloat? y with
    | some a, some b => orderFloats a b
    | _, _ => none

def order (x y : Value) : Except EvalFault Ordering :=
  match order? x y with
  | some o => .ok o
  | none => .error (.cannotCompare x.kind y.kind)

def exactly (n : Int) : Except EvalFault Value :=
  match Decimal.int64? n with
  | some w => .ok (.int w)
  | none => .error .integerOverflow

/-- Quotients are truncated toward zero. A remainder also fails where its quotient does not fit. -/
def onIntegers (op : Operation) (a b : Int) : Except EvalFault Value :=
  match op with
  | .add => exactly (a + b)
  | .sub => exactly (a - b)
  | .mul => exactly (a * b)
  | .div => if b = 0 then .error .divisionByZero else exactly (a.tdiv b)
  | .rem =>
    if b = 0 then .error .divisionByZero
    else if (Decimal.int64? (a.tdiv b)).isNone then .error .integerOverflow
    else exactly (a.tmod b)

def onFloats (op : Operation) (a b : Float) : Float :=
  match op with
  | .add => a + b
  | .sub => a - b
  | .mul => a * b
  | .div => a / b
  | .rem => Binary64.remainder a b

def onNumbers (op : Operation) (x y : Value) : Except EvalFault Value :=
  match x, y with
  | .int a, .int b => onIntegers op a.toInt b.toInt
  | x, y => match toFloat? x, toFloat? y with
    | some a, some b => .ok (.float (onFloats op a b))
    | _, _ => .error (.unsupportedOperands x.kind y.kind)

def operate (op : Operation) (x y : Value) : Except EvalFault Value :=
  if op = .add ∧ (x.isText || y.isText) then .ok (.str (x.text ++ y.text)) else onNumbers op x y

def relate (r : Relation) (x y : Value) : Except EvalFault Bool :=
  match r with
  | .eq => .ok (equal x y)
  | .ne => .ok (!equal x y)
  | .lt => (order x y).map (· == .lt)
  | .le => (order x y).map (· != .gt)
  | .gt => (order x y).map (· == .gt)
  | .ge => (order x y).map (· != .lt)

def negate : Value → Except EvalFault Value
  | .int n => exactly (-n.toInt)
  | .float x => .ok (.float (-x))
  | v => .error (.cannotNegate v.kind)

end TextGrammar.Script
