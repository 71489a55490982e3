import TextGrammar.Proofs.Refinement
import TextGrammar.Proofs.ComputingEvaluators
set_option autoImplicit false

namespace TextGrammar
open Grammar Machine Meaning Emission TransactionalSink

variable {σ ε : Type} [Sink σ] [TransactionalSink σ] [Evaluator ε]

theorem Meaning.computes_obeys (f : String → Bindings → Except EvalFault Value × Bindings) :
    Obeys (Evaluator.Computes f : ε → Prop) fun code b v c => f code b = (.ok v, c) := by
  intro ev code b h
  obtain ⟨result, bindings⟩ := h [] code b
  refine ⟨h.evaluate code b, fun v hv => ?_⟩
  exact Prod.ext (result.symm.trans hv) bindings.symm

/-- What a run appends to a sink if it succeeds is a text of the grammar, derived without any failure. -/
theorem derives_of_run {source : String} {p : Program} {start : Option String} {address : Option Nat} {sink : σ}
    {evaluator : ε} {entropy : Entropy} {f : String → Bindings → Except EvalFault Value × Bindings} {steps : Nat}
    {s : State σ ε} (hp : Program.compile source = .ok p) (ha : p.start? start = some address)
    (hf : Evaluator.Computes f evaluator)
    (hrun : Machine.run p steps (initial p address sink evaluator entropy) = some ⟨.ok true, s⟩) :
    ∃ g e text, Grammar.read source.toList = .ok g ∧ g.start? start = some e ∧
      Derives g (fun code b v c => f code b = (.ok v, c)) e [] text s.bindings ∧
      content s.sink = content sink ++ Utf8.ofString text := by
  obtain ⟨g, hg, sound, rfl⟩ := Program.compile_eq_ok hp
  obtain ⟨e, he, leads⟩ := leads_initial sound ha sink evaluator entropy
  obtain ⟨fuel, o, ho, same⟩ := (run_iff_of_leads leads (halt_codeAt g) (.ok true) s.world).1 ⟨steps, s, hrun, rfl⟩
  have account := explained_run (computes_obeys f) sound.rule fuel e (sound.start he) ⟨[], sink, evaluator, entropy⟩ hf
  rw [ho] at account
  match o, same with
  | .done w, same =>
    cases same
    obtain ⟨-, text, derived, written⟩ := account
    exact ⟨g, e, text, hg, he, derived, written⟩
  | .failed w, same => cases same
  | .faulted fault w, same => cases same

/-- What was written in an attempt that is undone has no part in the derivation. -/
theorem derives_of_run_undone : ∃ p s g e text,
    Program.compile "'a' \x7bcapture x\x7d ('b' \x7b?nil\x7d)? \x7b=x\x7d" = .ok p ∧
    Machine.run p 40 (initial p none ([] : Bytes) Script.Engine.empty [1]) = some ⟨.ok true, s⟩ ∧
    Grammar.read "'a' \x7bcapture x\x7d ('b' \x7b?nil\x7d)? \x7b=x\x7d".toList = .ok g ∧ g.start? none = some e ∧
    Derives g (fun code b v c => Script.compute code b = (.ok v, c)) e [] text s.bindings ∧
    Utf8.ofString text = [97, 97] := by
  obtain ⟨p, s, hp, hrun, hs⟩ := @Program.exists_run Bytes Script.Engine _ _
    "'a' \x7bcapture x\x7d ('b' \x7b?nil\x7d)? \x7b=x\x7d" 40 [] [97, 97] .empty [1] true (by decide +kernel)
  obtain ⟨g, e, text, hg, he, derived, written⟩ := @derives_of_run Bytes Script.Engine _ _ _ _ p none none [] .empty [1]
    Script.compute 40 s hp rfl (Script.Engine.computes Script.Engine.empty_faithful) hrun
  rw [hs] at written
  exact ⟨p, s, g, e, text, hp, hrun, hg, he, derived, written.symm⟩

end TextGrammar
