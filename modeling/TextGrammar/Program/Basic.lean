import TextGrammar.Program.Instruction
set_option autoImplicit false

namespace TextGrammar

structure Program where
  code : Array Instruction
  literals : Array String
  scripts : Array String
  rules : List (String × Nat)
  haltAt : Nat

namespace Program

def rule? (p : Program) (name : String) : Option Nat := p.rules.lookup name

def size (p : Program) : Nat := p.code.size

def isEmpty (p : Program) : Bool := p.code.isEmpty

def mayRestoreOutput (p : Program) : Bool := p.code.any Instruction.restoresOutput

end Program
end TextGrammar
