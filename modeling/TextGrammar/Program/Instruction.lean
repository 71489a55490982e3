import TextGrammar.Grammar.Checking
set_option autoImplicit false

namespace TextGrammar

structure Candidate where
  weight : Float
  target : Nat

inductive Instruction where
  | pushLiteral (index : Nat)
  | pushInteger (low high : Int64)
  | pushFloat (low high : Float)
  | pushCount (n : UInt32)
  | pushCandidates (candidates : List Candidate)
  | pop
  | dec
  /-- Jumps if the counter on top of the stack is zero. The counter stays. -/
  | jumpIfZero (target : Nat)
  /-- Pops a value and jumps if it counts as true. -/
  | jumpIf (target : Nat)
  /-- Flips a fair coin, and jumps on tails. -/
  | flip (target : Nat)
  | jump (target : Nat)
  | call (target : Nat)
  | ret
  | write
  | eval (index : Nat)
  | choose
  /-- Saves the output position and the bindings together with the address to resume at. -/
  | pushRescuePoint (resume : Nat)
  | rescue
  | pushOffset
  /-- Binds a name to the output since the position on top of the stack. -/
  | capture (name : String) (discard : Bool)
  | halt

namespace Instruction

/-- Whether running this can roll output back or read it back. -/
def restoresOutput : Instruction → Bool
  | .choose | .pushRescuePoint _ | .rescue | .pushOffset | .capture _ _ => true
  | _ => false

def candidateText (c : Candidate) : String := s!"{Decimal.plainText c.weight}@{c.target}"

def text : Instruction → String
  | .pushLiteral i => s!"push_literal {i}"
  | .pushInteger low high => s!"push_random {Decimal.integerText low}...{Decimal.integerText high}"
  | .pushFloat low high => s!"push_random {Decimal.boundText low}...{Decimal.boundText high}"
  | .pushCount n => s!"push_count {n.toNat}"
  | .pushCandidates cs =>
    if cs.isEmpty then "push_candidates"
    else "push_candidates " ++ ", ".intercalate (cs.map candidateText)
  | .pop => "pop"
  | .dec => "dec"
  | .jumpIfZero a => s!"jump_if_zero {a}"
  | .jumpIf a => s!"jump_if {a}"
  | .flip a => s!"flip {a}"
  | .jump a => s!"jump {a}"
  | .call a => s!"call {a}"
  | .ret => "return"
  | .write => "write"
  | .eval i => s!"eval {i}"
  | .choose => "choose"
  | .pushRescuePoint a => s!"push_rescue_point {a}"
  | .rescue => "rescue"
  | .pushOffset => "push_offset"
  | .capture name discard => (if discard then "capture! " else "capture ") ++ name
  | .halt => "halt"

end Instruction
end TextGrammar
