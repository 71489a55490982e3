import TextGrammar.Evaluator
import TextGrammar.Output.Sink
set_option autoImplicit false

namespace TextGrammar

/-- What a program found instead of what it relies on. -/
inductive Violation where
  | programCounter
  | decrement
  | loop
  | condition
  | returnAddress
  | emptyStack
  | writeCell
  | candidates
  | captureOffset
  | readBack
  | textIndex
deriving DecidableEq, Repr

def Violation.message : Violation → String
  | .programCounter => "program counter out of range"
  | .decrement => "decrement without a counter"
  | .loop => "loop without a counter"
  | .condition => "condition is not a value"
  | .returnAddress => "return without an address"
  | .emptyStack => "pop from an empty stack"
  | .writeCell => "write of a non-value cell"
  | .candidates => "choice without candidates"
  | .captureOffset => "capture without an offset"
  | .readBack => "sink can not read back output"
  | .textIndex => "text index out of range"

inductive RunFault where
  | eval (source : String) (fault : EvalFault)
  | sink (fault : OutputFault)
  | invariant (violation : Violation)
deriving DecidableEq, Repr

namespace RunFault

def message : RunFault → String
  | .eval source fault => s!"in `{source}`: {fault.message}"
  | .sink fault => s!"output error: {fault.message}"
  | .invariant violation => s!"internal error: {violation.message}"

def cause : RunFault → Option String
  | .eval _ fault => some fault.message
  | .sink fault => some fault.message
  | .invariant _ => none

end RunFault
end TextGrammar
