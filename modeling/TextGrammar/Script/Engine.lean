import TextGrammar.Script.Reading
import TextGrammar.Script.Evaluation
set_option autoImplicit false

namespace TextGrammar.Script

structure Engine where
  known : List (String × Block)

namespace Engine

def empty : Engine := ⟨[]⟩

/-- The block that a source text spells, and the engine that knows it from then on. -/
def block (e : Engine) (source : String) : Except EvalFault Block × Engine :=
  match e.known.lookup source with
  | some block => (.ok block, e)
  | none => match parse source.toList with
    | .ok block => (.ok block, ⟨(source, block) :: e.known⟩)
    | .error seen => (.error (.syntaxError (seen.location source.toList) seen.text), e)

def evaluate (e : Engine) (source : String) (b : Bindings) : Evaluation Engine :=
  match e.block source with
  | (.error f, e) => ⟨.error f, b, e⟩
  | (.ok block, e) => let (result, b) := run block b; ⟨result, b, e⟩

instance : Evaluator Engine := ⟨evaluate⟩

end Engine
end TextGrammar.Script
