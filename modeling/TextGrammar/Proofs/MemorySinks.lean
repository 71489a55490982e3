import TextGrammar.Proofs.Delivery
set_option autoImplicit false

namespace TextGrammar
open Machine TransactionalSink

variable {σ τ ε ω : Type} [Sink σ] [Evaluator ε]

namespace Machine

variable {p : Program} {s t u : State σ ε} {fault : OutputFault}

/-- A sink has refused a text, or to go back to the position of a cell. -/
def Refuses (s : State σ ε) (fault : OutputFault) : Prop :=
  (∃ text, (Sink.write s.sink (Utf8.ofString text)).1 = .error fault) ∨
    ∃ cell ∈ s.stack, ∃ position, cell.position? = some position ∧ (Sink.restore s.sink position).1 = .error fault

/-- A sink is at fault only if it has refused something. -/
theorem step_refuses (last : step p s = .faulted (.sink fault) t) : Refuses s fault := by
  cases hi : p.code[s.pc]? with
  | none =>
    simp only [step, hi] at last
    cases last
  | some i =>
    have effect := step_effect hi
    rw [last] at effect
    cases effect with
    | unwritten refused => exact .inl ⟨_, congrArg Prod.fst refused⟩
    | unrestored _ held marked refused => exact .inr ⟨_, held, _, marked, congrArg Prod.fst refused⟩

theorem steady_run [SteadySink σ] {start : Option Nat} {sink : σ} {evaluator : ε} {entropy : Entropy}
    (hs : Reachable p (initial p start sink evaluator entropy) s) : ¬ Refuses s fault := by
  rintro (⟨text, refused⟩ | ⟨cell, hc, position, held, refused⟩)
  · obtain ⟨n, u, taken⟩ := SteadySink.write_ok s.sink text
    rw [taken] at refused
    cases refused
  · obtain ⟨u, back, -⟩ := (history_of_reachable hs).restores hc held
    rw [back] at refused
    cases refused

end Machine

namespace Generator

/-- An attempt is never at odds with a sink that takes every text. -/
theorem steady_generate [SteadySink σ] {g : Generator ε} {steps : Nat} {sink : σ} {entropy : Entropy}
    {a : Attempt Bool σ ε} {fault : OutputFault} (h : g.generate steps sink entropy = some a) :
    a.result ≠ .error (.sink fault) := by
  obtain ⟨⟨result, v⟩, hx, attempted⟩ := exists_attempted h
  obtain ⟨text, appended⟩ := extends_of_run hx
  obtain ⟨back, hr, -⟩ := restore_eq appended
  cases attempted with
  | undone _ _ => nofun
  | unrestored _ refused =>
    rw [hr] at refused
    cases refused
  | kept _ =>
    intro faulted
    cases faulted
    obtain ⟨u, hu, last⟩ := faulted_of_run hx
    exact steady_run hu (step_refuses last)

/-- The same result with the same output, evaluator and entropy as on bytes. -/
structure SameAsBytes [Sink τ] [TransactionalSink τ] (a : Attempt Bool Bytes ε) (b : Attempt Bool τ ε) : Prop where
  result : b.result = a.result
  content : content b.sink = a.sink
  evaluator : b.evaluator = a.evaluator
  entropy : b.entropy = a.entropy

theorem same_as_bytes [Sink τ] [SteadySink τ] (g : Generator ε) (steps : Nat) (empty : τ) (h : content empty = [])
    (entropy : Entropy) :
    Option.Rel SameAsBytes (g.generate steps ([] : Bytes) entropy) (g.generate steps empty entropy) ∧
      g.calls steps empty entropy = g.calls steps ([] : Bytes) entropy := by
  refine ⟨?_, g.calls_appending steps empty ([] : Bytes) entropy⟩
  have same := g.generate_appending steps ([] : Bytes) empty entropy
  generalize g.generate steps ([] : Bytes) entropy = x at same ⊢
  generalize g.generate steps empty entropy = y at same ⊢
  cases same with
  | none => exact .none
  | some both =>
    obtain ⟨text, written, appended⟩ := both.sink
    rw [h] at appended
    exact .some ⟨(both.result fun _ _ told => told).symm, appended.trans written.symm, both.evaluator.symm,
      both.entropy.symm⟩

end Generator

/-- Bytes, a text and a buffer that start empty are interchangeable. An attempt comes to the same on any of them after the
same steps, leaves the same output and the same entropy, and evaluates the same blocks in the same bindings. A text refuses
nothing that a run asks of it. -/
theorem memory_interchangeable [Writer ω] (g : Generator ε) (steps : Nat) (writer : ω) (entropy : Entropy) :
    Option.Rel Generator.SameAsBytes (g.generate steps ([] : Bytes) entropy)
      (g.generate steps (default : TextSink) entropy) ∧
    Option.Rel Generator.SameAsBytes (g.generate steps ([] : Bytes) entropy)
      (g.generate steps (Buffered.new writer) entropy) ∧
    g.calls steps (default : TextSink) entropy = g.calls steps ([] : Bytes) entropy ∧
    g.calls steps (Buffered.new writer) entropy = g.calls steps ([] : Bytes) entropy ∧
    (∀ s fault, Reachable g.program (initial g.program g.start (default : TextSink) g.evaluator entropy) s →
      ¬ Refuses s fault) ∧
    ∀ a fault, g.generate steps (default : TextSink) entropy = some a → a.result ≠ .error (.sink fault) := by
  obtain ⟨text, text_calls⟩ := g.same_as_bytes steps (default : TextSink) rfl entropy
  obtain ⟨buffer, buffer_calls⟩ := g.same_as_bytes steps (Buffered.new writer) rfl entropy
  exact ⟨text, buffer, text_calls, buffer_calls, fun s fault hs => steady_run hs, fun a fault => g.steady_generate⟩

/-- An attempt that goes back once to the end of a character. -/
theorem memory_interchangeable_undone : ∃ p a b c,
    Program.compile "'é' \x7bcapture x\x7d ('b' \x7b?nil\x7d)? \x7b=x\x7d" = .ok p ∧
    (Generator.new p Script.Engine.empty).generate 40 ([] : Bytes) [1] = some a ∧ a.result = .ok true ∧
    a.sink = [195, 169, 195, 169] ∧
    (Generator.new p Script.Engine.empty).generate 40 (default : TextSink) [1] = some b ∧
    Generator.SameAsBytes a b ∧ (∀ fault, b.result ≠ .error (.sink fault)) ∧
    (∀ fault, ¬ Refuses (initial p none (default : TextSink) Script.Engine.empty [1]) fault) ∧
    (Generator.new p Script.Engine.empty).generate 40 (Buffered.new (⟨[], 0⟩ : Trickle)) [1] = some c ∧
    Generator.SameAsBytes a c := by
  obtain ⟨p, s, hp, hrun, hs⟩ := @Program.exists_run Bytes Script.Engine _ _
    "'é' \x7bcapture x\x7d ('b' \x7b?nil\x7d)? \x7b=x\x7d" 40 [] [195, 169, 195, 169] .empty [1] true
    (by decide +kernel)
  have ends : (Generator.new p Script.Engine.empty).generate 40 ([] : Bytes) [1] =
      some ⟨.ok true, s.sink, s.evaluator, s.entropy⟩ := by
    simp only [Generator.generate, Generator.new, hrun]
  obtain ⟨text, buffer, -, -, steady, accepted⟩ :=
    memory_interchangeable (Generator.new p Script.Engine.empty) 40 (⟨[], 0⟩ : Trickle) [1]
  rw [ends] at text buffer
  generalize hb : (Generator.new p Script.Engine.empty).generate 40 (default : TextSink) [1] = y at text accepted
  generalize hc : (Generator.new p Script.Engine.empty).generate 40 (Buffered.new (⟨[], 0⟩ : Trickle)) [1] = z at buffer
  cases text with
  | @some _ b same =>
    cases buffer with
    | @some _ c same' =>
      exact ⟨p, _, b, c, hp, ends, rfl, hs, hb, same, fun fault => accepted b fault rfl,
        fun fault => steady _ fault (.refl _), hc, same'⟩

end TextGrammar
