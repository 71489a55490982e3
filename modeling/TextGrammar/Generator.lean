import TextGrammar.Machine.Step
import TextGrammar.CompileError
import TextGrammar.Output.Memory
import TextGrammar.Output.Writer
set_option autoImplicit false

namespace TextGrammar

structure Generator (ε : Type) where
  program : Program
  evaluator : ε
  start : Option Nat

structure Attempt (α σ ε : Type) where
  result : Except RunFault α
  sink : σ
  evaluator : ε
  entropy : Entropy

namespace Generator

variable {σ ε ω : Type} [Sink σ] [Evaluator ε] [Writer ω]

def new (p : Program) (evaluator : ε) : Generator ε := ⟨p, evaluator, none⟩

def startAt (g : Generator ε) (rule : String) : Except CompileError (Generator ε) :=
  match g.program.rule? rule with
  | some a => .ok { g with start := some a }
  | none => .error (.unlocated (.undefinedRule rule))

/-- Writes a text to a sink. The answer is false if the grammar failed; the sink is then put back to where it
was. -/
def generate (g : Generator ε) (steps : Nat) (sink : σ) (entropy : Entropy) : Option (Attempt Bool σ ε) :=
  match Machine.run g.program steps (Machine.initial g.program g.start sink g.evaluator entropy) with
  | none => none
  | some ⟨.ok false, s⟩ => match Sink.restore s.sink (Sink.position sink) with
    | (.ok (), sink) => some ⟨.ok false, sink, s.evaluator, s.entropy⟩
    | (.error fault, sink) => some ⟨.error (.sink fault), sink, s.evaluator, s.entropy⟩
  | some ⟨result, s⟩ => some ⟨result, s.sink, s.evaluator, s.entropy⟩

def expression [Inhabited σ] (g : Generator ε) (steps : Nat) (entropy : Entropy) :
    Option (Attempt (Option σ) σ ε) :=
  (g.generate steps (default : σ) entropy).map fun a =>
    ⟨a.result.map fun succeeded => if succeeded then some a.sink else none, a.sink, a.evaluator, a.entropy⟩

/-- Writes a text to a sink and closes it. After a fault the sink is put back if it can be. A fault of closing stands
for whatever the attempt came to. -/
def generateClosing (g : Generator ε) (steps : Nat) (sink : σ) (entropy : Entropy) :
    Option (Attempt Bool σ ε) :=
  (g.generate steps sink entropy).map fun a =>
    let output := match a.result with
      | .ok _ => a.sink
      | .error _ => (Sink.restore a.sink (Sink.position sink)).2
    match Sink.close output with
    | (.ok (), output) => ⟨a.result, output, a.evaluator, a.entropy⟩
    | (.error fault, output) => ⟨.error (.sink fault), output, a.evaluator, a.entropy⟩

/-- Writes a text to a writer: at once if the program never goes back, and otherwise when the attempt has
succeeded. -/
def generateTo (g : Generator ε) (steps : Nat) (writer : ω) (entropy : Entropy) : Option (Attempt Bool ω ε) :=
  if g.program.mayRestoreOutput then
    (g.generateClosing steps (Buffered.new writer) entropy).map fun a =>
      ⟨a.result, a.sink.inner, a.evaluator, a.entropy⟩
  else
    (g.generateClosing steps (Direct.new writer) entropy).map fun a =>
      ⟨a.result, a.sink.inner, a.evaluator, a.entropy⟩

end Generator
end TextGrammar
