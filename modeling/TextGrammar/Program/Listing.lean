import TextGrammar.Program.Basic
import TextGrammar.Text.Quoted
set_option autoImplicit false

namespace TextGrammar.Program

def addressWidth : Nat := 6

def alignRight (width : Nat) (s : String) : String := "".pushn ' ' (width - s.length) ++ s

def comment (p : Program) : Instruction → String
  | .pushLiteral i => "  ; " ++ Quoted.text (p.literals.getD i "")
  | .eval i => "  ; \x7b" ++ p.scripts.getD i "" ++ "\x7d"
  | _ => ""

def ruleLines (p : Program) (address : Nat) : List String :=
  (p.rules.filter fun r => r.2 == address).map fun r => r.1 ++ ":\n"

def line (p : Program) (address : Nat) (i : Instruction) : String :=
  String.join (p.ruleLines address) ++ alignRight addressWidth (toString address) ++ "  " ++ i.text ++ p.comment i ++ "\n"

def linesFrom (p : Program) (address : Nat) : List Instruction → List String
  | [] => []
  | i :: is => p.line address i :: p.linesFrom (address + 1) is

def listing (p : Program) : String := String.join (p.linesFrom 0 p.code.toList)

end TextGrammar.Program
