import TextGrammar.Pool
import TextGrammar.RunFault
set_option autoImplicit false

namespace TextGrammar.Machine

/-- Where to go on after a failure, and what to put back first. -/
structure RescuePoint where
  resume : Nat
  position : Nat
  bindings : Bindings

inductive Cell where
  /-- A number to be written, or a loop counter. -/
  | int (n : Int64)
  | float (x : Float)
  | literal (text : String)
  | value (v : Value)
  | address (a : Nat)
  | candidates (pool : Pool Nat)
  | rescue (point : RescuePoint)
  /-- Where the output of a capture starts. -/
  | offset (position : Nat)
  /-- Stands for the rescue point of a choice that has no candidate left. -/
  | placeholder

structure State (σ ε : Type) where
  pc : Nat
  /-- The top comes first. -/
  stack : List Cell
  bindings : Bindings
  sink : σ
  evaluator : ε
  entropy : Entropy

inductive StepResult (σ ε : Type) where
  | running (state : State σ ε)
  | halted (succeeded : Bool) (state : State σ ε)
  | faulted (fault : RunFault) (state : State σ ε)

end TextGrammar.Machine
