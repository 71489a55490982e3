import TextGrammar.Program.Emission
import TextGrammar.Grammar.Reading
set_option autoImplicit false

namespace TextGrammar

namespace Grammar

def read (source : List Char) : Except CompileError Grammar :=
  match parse source with
  | .ok items => .ok (.ofItems items)
  | .error seen => .error (.ofOffset (.syntaxError seen.text) source seen.pos)

end Grammar

namespace Program

def compileChars (source : List Char) : Except CompileError Program := do
  let g ← Grammar.read source
  match g.fault? (Parsing.Parser.byteLength source) with
  | some (fault, offset) => throw (.ofOffset fault source offset)
  | none => return ofGrammar g

def compile (source : String) : Except CompileError Program := compileChars source.toList

end Program

end TextGrammar
