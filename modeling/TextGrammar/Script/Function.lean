import TextGrammar.Evaluator
import TextGrammar.Decimal.Reading
import TextGrammar.Text.Blank
import TextGrammar.Text.Case
set_option autoImplicit false

namespace TextGrammar.Script

inductive Function where
  | len
  /-- A number or a numeric text as an integer. -/
  | int
  /-- A number or a numeric text as a float. -/
  | float
  | str
  | upcase
  | downcase
deriving DecidableEq, Repr

namespace Function

def all : List Function := [.len, .int, .float, .str, .upcase, .downcase]

def name : Function → String
  | .len => "len"
  | .int => "int"
  | .float => "float"
  | .str => "str"
  | .upcase => "upcase"
  | .downcase => "downcase"

def ofName? (s : String) : Option Function := all.find? (·.name == s)

def apply : Function → Value → Except EvalFault Value
  | .len, .str s => .ok (.int (Int64.ofNat s.length))
  | .int, .int n => .ok (.int n)
  | .int, .float x => .ok (.int x.toInt64)
  | .int, .str s => match Decimal.readInt64 (Blank.trimChars s.toList) with
    | some n => .ok (.int n)
    | none => .error (.notAnInteger s)
  | .float, .int n => .ok (.float (Binary64.ofInt64 n))
  | .float, .float x => .ok (.float x)
  | .float, .str s => match Decimal.readFloat (Blank.trimChars s.toList) with
    | some x => .ok (.float x)
    | none => .error (.notANumber s)
  | .str, v => .ok (.str v.text)
  | .upcase, .str s => .ok (.str (Case.upper s))
  | .downcase, .str s => .ok (.str (Case.lower s))
  | f, v => .error (.rejectedArgument f.name v.kind)

def call (f : Function) : List Value → Except EvalFault Value
  | [v] => f.apply v
  | vs => .error (.argumentCount f.name vs.length)

end Function

def keywords : List String := ["true", "false", "nil"]

def isReserved (name : String) : Bool := keywords.contains name || (Function.ofName? name).isSome

end TextGrammar.Script
