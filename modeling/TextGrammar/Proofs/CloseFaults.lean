import TextGrammar.Proofs.Delivery
set_option autoImplicit false

/-!
# Faults of closing

Output is closed after every attempt, also after one that was given up. If the writer then fails, that is what the attempt
comes to, and a fault of the run itself is not seen any more.
-/
namespace TextGrammar
open Machine

variable {σ ε ω : Type} [Sink σ] [Evaluator ε] [Writer ω]

namespace Generator

/-- What an attempt comes to when its output has been closed. -/
def settled (before : σ) (a : Attempt Bool σ ε) : Except RunFault Bool :=
  match (Sink.close (leftover before a)).1 with
  | .ok () => a.result
  | .error fault => .error (.sink fault)

omit [Evaluator ε] in
/-- A fault of the run is seen only if the output can be closed. -/
theorem settled_eq_error_iff {before : σ} {a : Attempt Bool σ ε} {fault : RunFault} :
    settled before a = .error fault ↔
      (Sink.close (leftover before a)).1 = .ok () ∧ a.result = .error fault ∨
      ∃ closing, (Sink.close (leftover before a)).1 = .error closing ∧ fault = .sink closing := by
  unfold settled
  cases (Sink.close (leftover before a)).1 with
  | ok done => simp
  | error closing => simp [eq_comm]

theorem generateClosing_result (g : Generator ε) (steps : Nat) (sink : σ) (entropy : Entropy) :
    (g.generateClosing steps sink entropy).map Attempt.result = (g.generate steps sink entropy).map (settled sink) := by
  rw [generateClosing_eq, Option.map_map]
  congr 1
  funext a
  simp only [Function.comp, settled]
  rcases Sink.close (leftover sink a) with ⟨_ | _, _⟩ <;> rfl

/-- What a writer is left with: the result of the run if the output can be closed, and why it cannot be otherwise. -/
theorem generateTo_result (g : Generator ε) (steps : Nat) (writer : ω) (entropy : Entropy) :
    (g.generateTo steps writer entropy).map Attempt.result =
      if g.program.mayRestoreOutput then
        (g.generate steps (Buffered.new writer) entropy).map (settled (Buffered.new writer))
      else (g.generate steps (Direct.new writer) entropy).map (settled (Direct.new writer)) := by
  rw [← generateClosing_result, ← generateClosing_result, generateTo]
  split <;> rw [Option.map_map] <;> rfl

end Generator

structure Stuck where
  taken : Bytes

instance : Writer Stuck where
  write w bytes := (.ok bytes.length, ⟨w.taken ++ bytes⟩)
  flush w := (.error (.reported "flush failed"), w)

/-- A division by zero is not seen if the writer cannot be flushed afterwards. -/
theorem generateTo_hides : ∃ p a,
    Program.compile "r = ('a' | 'b') 'partial' \x7b= 1 / 0\x7d ;" = .ok p ∧
    (Generator.new p Script.Engine.empty).generate 40 (Buffered.new (⟨[]⟩ : Stuck)) [] = some a ∧
    a.result = .error (.eval " 1 / 0" .divisionByZero) ∧
    ((Generator.new p Script.Engine.empty).generateTo 40 (⟨[]⟩ : Stuck) []).map Attempt.result =
      some (.error (.sink (.reported "flush failed"))) := by
  have run : (Program.compile "r = ('a' | 'b') 'partial' \x7b= 1 / 0\x7d ;").toOption.bind (fun p =>
      ((Generator.new p Script.Engine.empty).generate 40 (Buffered.new (⟨[]⟩ : Stuck)) []).map Attempt.result) =
      some (.error (.eval " 1 / 0" .divisionByZero)) := by decide +kernel
  have handed : (Program.compile "r = ('a' | 'b') 'partial' \x7b= 1 / 0\x7d ;").toOption.bind (fun p =>
      ((Generator.new p Script.Engine.empty).generateTo 40 (⟨[]⟩ : Stuck) []).map Attempt.result) =
      some (.error (.sink (.reported "flush failed"))) := by decide +kernel
  cases hp : Program.compile "r = ('a' | 'b') 'partial' \x7b= 1 / 0\x7d ;" with
  | error fault => rw [hp] at run; cases run
  | ok p =>
    rw [hp] at run handed
    obtain ⟨a, attempt, result⟩ := Option.map_eq_some_iff.1 run
    exact ⟨p, a, rfl, attempt, result, handed⟩

end TextGrammar
