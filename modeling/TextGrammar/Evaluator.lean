import TextGrammar.Value
import TextGrammar.Text.Location
set_option autoImplicit false

namespace TextGrammar

inductive EvalFault where
  | syntaxError (location : Location) (expected : String)
  | undefinedVariable (name : String)
  | unknownFunction (name : String)
  | integerOverflow
  | divisionByZero
  | cannotNegate (kind : Value.Kind)
  | cannotCompare (left right : Value.Kind)
  | unsupportedOperands (left right : Value.Kind)
  | argumentCount (function : String) (given : Nat)
  | rejectedArgument (function : String) (kind : Value.Kind)
  | notAnInteger (text : String)
  | notANumber (text : String)
  | reservedName (name : String)
  /-- A fault of an evaluator other than the built-in one. -/
  | reported (text : String)
deriving DecidableEq, Repr

def EvalFault.message : EvalFault → String
  | .syntaxError location expected => s!"syntax error at {location.text}: expected {expected}"
  | .undefinedVariable name => s!"undefined variable `{name}`"
  | .unknownFunction name => s!"unknown function `{name}`"
  | .integerOverflow => "integer overflow"
  | .divisionByZero => "division by zero"
  | .cannotNegate kind => s!"can not negate a {kind.name}"
  | .cannotCompare left right => s!"can not compare {left.name} with {right.name}"
  | .unsupportedOperands left right => s!"unsupported operand types {left.name} and {right.name}"
  | .argumentCount function given => s!"{function}() takes 1 argument but {given} were given"
  | .rejectedArgument function kind => s!"{function}() does not accept a {kind.name}"
  | .notAnInteger text => s!"int(): `{text}` is not an integer"
  | .notANumber text => s!"float(): `{text}` is not a number"
  | .reservedName name => s!"can not assign to reserved name `{name}`"
  | .reported text => text

structure Evaluation (ε : Type) where
  result : Except EvalFault Value
  bindings : Bindings
  evaluator : ε

class Evaluator (ε : Type) where
  evaluate : ε → String → Bindings → Evaluation ε

end TextGrammar
