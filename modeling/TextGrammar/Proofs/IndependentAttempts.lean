import TextGrammar.Output.Memory
import TextGrammar.Proofs.ComputingEvaluators
import TextGrammar.Proofs.Compiled
import TextGrammar.Proofs.RelatedAttempts
set_option autoImplicit false

namespace TextGrammar
open Machine Script

variable {σ τ ω : Type} [Sink σ] [Writer ω]

def knowing : Ties σ σ Engine Engine :=
  ⟨(· = ·), (· = ·), fun e e' => e.Faithful ∧ e'.Faithful, (· = ·), (· = ·), fun _ => rfl⟩

namespace Script.Engine

/-- Evaluators that know only what they would read again cannot be told apart. -/
theorem evaluate_alike {e e' : Engine} (h : e.Faithful) (h' : e'.Faithful) (code : String) (b : Bindings) :
    (e.evaluate code b).result = (e'.evaluate code b).result ∧
    (e.evaluate code b).bindings = (e'.evaluate code b).bindings ∧
    (e.evaluate code b).evaluator.Faithful ∧ (e'.evaluate code b).evaluator.Faithful := by
  obtain ⟨faithful, result, bindings⟩ := faithful_evaluate h code b
  obtain ⟨faithful', result', bindings'⟩ := faithful_evaluate h' code b
  exact ⟨result.trans result'.symm, bindings.trans bindings'.symm, faithful, faithful'⟩

end Script.Engine

namespace Machine

theorem knowing_answers {p : Program} {s t : State σ Engine} (h : s.Related knowing t) : Answers knowing p s t := by
  obtain ⟨-, rfl, ⟨faithful, faithful'⟩, rfl⟩ := h
  refine ⟨fun text _ => Ties.agree_self rfl, fun _ _ _ => ?_, fun code b _ => ?_, rfl, rfl⟩
  · exact .of_sink_eq rfl (fun _ => rfl) (fun _ => rfl) fun _ _ near => near
  · exact Engine.evaluate_alike faithful faithful' code b

theorem together_knowing {p : Program} {s t : State σ Engine} (h : s.Related knowing t) (n : Nat) :
    Together knowing p n s t :=
  together h fun _ _ _ _ _ _ related => knowing_answers related

end Machine

omit [Sink σ] in
theorem Attempt.Related.same {a b : Attempt Bool σ Engine} (h : a.Related knowing b) :
    b.result = a.result ∧ b.sink = a.sink ∧ b.entropy = a.entropy :=
  ⟨Eq.symm (h.result fun _ _ blame => blame), Eq.symm h.sink, Eq.symm h.entropy⟩

namespace Generator

variable {p : Program} {start : Option Nat} {e e' : Engine} {steps : Nat} {entropy : Entropy}

theorem generate_knowing (h : e.Faithful) (h' : e'.Faithful) (p : Program) (start : Option Nat) (steps : Nat) (sink : σ)
    (entropy : Entropy) :
    Option.Rel (Attempt.Related knowing) (generate ⟨p, e, start⟩ steps sink entropy)
      (generate ⟨p, e', start⟩ steps sink entropy) ∧
    calls ⟨p, e, start⟩ steps sink entropy = calls ⟨p, e', start⟩ steps sink entropy := by
  have runs : Together knowing p steps (initial p start sink e entropy) (initial p start sink e' entropy) :=
    together_knowing (initial_related p start rfl ⟨h, h'⟩ rfl) steps
  constructor
  · refine generate_related runs fun x y _ _ related _ => ?_
    rw [show x.state.sink = y.state.sink from related.state.sink]
    exact Ties.agree_self rfl
  · exact runs.calls

theorem faithful_generate {g : Generator Engine} (h : g.evaluator.Faithful) {sink : σ} {a : Attempt Bool σ Engine}
    (ha : g.generate steps sink entropy = some a) : a.evaluator.Faithful := by
  obtain ⟨p, e, start⟩ := g
  have both := (generate_knowing h h p start steps sink entropy).1
  rw [ha] at both
  cases both with
  | some related => exact related.evaluator.1

theorem faithful_generateClosing {g : Generator Engine} (h : g.evaluator.Faithful) {sink : σ} {a : Attempt Bool σ Engine}
    (ha : g.generateClosing steps sink entropy = some a) : a.evaluator.Faithful := by
  unfold generateClosing at ha
  obtain ⟨inner, attempt, rfl⟩ := Option.map_eq_some_iff.1 ha
  have faithful := faithful_generate h attempt
  simp only
  split <;> exact faithful

theorem faithful_generateTo {g : Generator Engine} (h : g.evaluator.Faithful) {writer : ω} {a : Attempt Bool ω Engine}
    (ha : g.generateTo steps writer entropy = some a) : a.evaluator.Faithful := by
  unfold generateTo at ha
  split at ha
  · obtain ⟨inner, attempt, rfl⟩ := Option.map_eq_some_iff.1 ha
    have faithful := faithful_generateClosing h attempt
    exact faithful
  · obtain ⟨inner, attempt, rfl⟩ := Option.map_eq_some_iff.1 ha
    have faithful := faithful_generateClosing h attempt
    exact faithful

/-- A generator for a program that has been used in any way, as long as every use came to an end. -/
inductive Used (p : Program) : Generator Engine → Prop where
  | new : Used p (new p .empty)
  | startAt {g g' : Generator Engine} {rule : String} (before : Used p g) (h : g.startAt rule = .ok g') : Used p g'
  | generate {σ : Type} [Sink σ] {g : Generator Engine} {steps : Nat} {sink : σ} {entropy : Entropy}
      {a : Attempt Bool σ Engine} (before : Used p g) (h : g.generate steps sink entropy = some a) :
      Used p { g with evaluator := a.evaluator }
  | expression {σ : Type} [Sink σ] [Inhabited σ] {g : Generator Engine} {steps : Nat} {entropy : Entropy}
      {a : Attempt (Option σ) σ Engine} (before : Used p g) (h : g.expression steps entropy = some a) :
      Used p { g with evaluator := a.evaluator }
  | generateTo {ω : Type} [Writer ω] {g : Generator Engine} {steps : Nat} {writer : ω} {entropy : Entropy}
      {a : Attempt Bool ω Engine} (before : Used p g) (h : g.generateTo steps writer entropy = some a) :
      Used p { g with evaluator := a.evaluator }
  | evaluate {g : Generator Engine} (before : Used p g) (code : String) (b : Bindings) :
      Used p { g with evaluator := (Evaluator.evaluate g.evaluator code b).evaluator }

/-- Use leaves the program as it is, and nothing behind that would not be read again. -/
theorem Used.kept {g : Generator Engine} (h : Used p g) : g.program = p ∧ g.evaluator.Faithful := by
  induction h with
  | new => exact ⟨rfl, Engine.empty_faithful⟩
  | @startAt g g' rule _ h ih =>
    unfold Generator.startAt at h
    split at h
    · cases h
      exact ih
    · cases h
  | generate _ h ih => exact ⟨ih.1, faithful_generate ih.2 h⟩
  | expression _ h ih =>
    obtain ⟨inner, attempt, rfl⟩ := Option.map_eq_some_iff.1 h
    exact ⟨ih.1, faithful_generate ih.2 attempt⟩
  | generateTo _ h ih => exact ⟨ih.1, faithful_generateTo ih.2 h⟩
  | evaluate _ code b ih => exact ⟨ih.1, (Engine.faithful_evaluate ih.2 code b).1⟩

end Generator

/-- Whatever a generator has been used for, an attempt comes to the same as on a new one: it has the same result or the
same fault, leaves the same in the sink and the same entropy, and evaluates the same blocks in the same bindings. The
built-in evaluator gives every block the value or the fault and the bindings that a new one gives, whatever it has
evaluated before. -/
theorem used_generate {p : Program} {g : Generator Engine} (h : Generator.Used p g) :
    (∀ (σ : Type) [Sink σ] (steps : Nat) (sink : σ) (entropy : Entropy),
      Option.Rel (fun a b : Attempt Bool σ Engine => b.result = a.result ∧ b.sink = a.sink ∧ b.entropy = a.entropy)
        (Generator.generate ⟨p, Engine.empty, g.start⟩ steps sink entropy)
        (g.generate steps sink entropy) ∧
      g.calls steps sink entropy = Generator.calls ⟨p, Engine.empty, g.start⟩ steps sink entropy) ∧
    (∀ code b, (Evaluator.evaluate g.evaluator code b).result = (Evaluator.evaluate Engine.empty code b).result ∧
      (Evaluator.evaluate g.evaluator code b).bindings = (Evaluator.evaluate Engine.empty code b).bindings) ∧
    ∀ earlier code b, (Evaluator.evaluate (Evaluator.after Engine.empty earlier) code b).result =
        (Evaluator.evaluate Engine.empty code b).result ∧
      (Evaluator.evaluate (Evaluator.after Engine.empty earlier) code b).bindings =
        (Evaluator.evaluate Engine.empty code b).bindings := by
  obtain ⟨rfl, faithful⟩ := h.kept
  obtain ⟨p, e, start⟩ := g
  refine ⟨?_, ?_, ?_⟩
  · intro σ _ steps sink entropy
    obtain ⟨attempts, calls⟩ := Generator.generate_knowing Engine.empty_faithful faithful p start steps sink entropy
    refine ⟨?_, calls.symm⟩
    change Option.Rel _ (Generator.generate ⟨p, Engine.empty, start⟩ steps sink entropy) _
    generalize Generator.generate ⟨p, Engine.empty, start⟩ steps sink entropy = x at attempts ⊢
    generalize Generator.generate ⟨p, e, start⟩ steps sink entropy = y at attempts ⊢
    cases attempts with
    | none => exact .none
    | some related => exact .some related.same
  · intro code b
    obtain ⟨result, bindings, -⟩ := Engine.evaluate_alike faithful Engine.empty_faithful code b
    exact ⟨result, bindings⟩
  · intro earlier code b
    have known := Engine.faithful_after Engine.empty_faithful earlier
    obtain ⟨result, bindings, -⟩ := Engine.evaluate_alike known Engine.empty_faithful code b
    exact ⟨result, bindings⟩

/-- An attempt after one that was given up, a block that cannot be read, and one that sets the variable that is missing. -/
theorem used_generate_faulted : ∃ p a g b,
    Program.compile "'a' \x7bn = n + 1\x7d \x7b=n\x7d" = .ok p ∧
    (Generator.new p Engine.empty).generate 40 ([] : Bytes) [] = some a ∧ a.sink = [97] ∧
    a.result = .error (.eval "n = n + 1" (.undefinedVariable "n")) ∧ Generator.Used p g ∧
    g.evaluator = (Evaluator.evaluate (Evaluator.evaluate a.evaluator "1 +" []).evaluator "n = 5" []).evaluator ∧
    g.generate 40 ([] : Bytes) [] = some b ∧ b.result = a.result ∧ b.sink = a.sink := by
  obtain ⟨p, a, hp, ha, result, sink, -⟩ := @Program.exists_attempt Bytes Engine _ _
    "'a' \x7bn = n + 1\x7d \x7b=n\x7d" 40 [] [97] .empty [] [] (.error (.eval "n = n + 1" (.undefinedVariable "n")))
    (by decide +kernel)
  let known := (Evaluator.evaluate (Evaluator.evaluate a.evaluator "1 +" []).evaluator "n = 5" []).evaluator
  have used : Generator.Used p ⟨p, known, none⟩ := ((Generator.Used.new.generate ha).evaluate "1 +" []).evaluate "n = 5" []
  obtain ⟨attempts, -, -⟩ := used_generate used
  obtain ⟨same, -⟩ := attempts Bytes 40 [] []
  change Option.Rel _ ((Generator.new p Engine.empty).generate 40 ([] : Bytes) []) _ at same
  rw [ha] at same
  generalize hb : Generator.generate ⟨p, known, none⟩ 40 ([] : Bytes) [] = y at same
  cases same with
  | some equal => exact ⟨p, a, _, _, hp, ha, sink, result, used, rfl, hb, equal.1, equal.2.1⟩

end TextGrammar
