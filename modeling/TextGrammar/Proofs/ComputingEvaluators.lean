import TextGrammar.Script.Engine
set_option autoImplicit false

namespace TextGrammar

namespace Evaluator

variable {ε : Type} [Evaluator ε]

def after (ev : ε) : List (String × Bindings) → ε
  | [] => ev
  | (code, b) :: calls => after (evaluate ev code b).evaluator calls

/-- Whatever has been evaluated before, a block gives what a function of its text and of the bindings says. -/
def Computes (f : String → Bindings → Except EvalFault Value × Bindings) (ev : ε) : Prop :=
  ∀ calls code b, (evaluate (after ev calls) code b).result = (f code b).1 ∧
    (evaluate (after ev calls) code b).bindings = (f code b).2

theorem Computes.evaluate {f : String → Bindings → Except EvalFault Value × Bindings} {ev : ε} (h : Computes f ev)
    (code : String) (b : Bindings) : Computes f (evaluate ev code b).evaluator :=
  fun calls => h ((code, b) :: calls)

end Evaluator

namespace Script

def compute (code : String) (b : Bindings) : Except EvalFault Value × Bindings :=
  match parse code.toList with
  | .ok block => run block b
  | .error seen => (.error (.syntaxError (seen.location code.toList) seen.text), b)

namespace Engine

def Faithful (e : Engine) : Prop := ∀ code block, e.known.lookup code = some block → parse code.toList = .ok block

theorem empty_faithful : empty.Faithful := fun _ _ h => by cases h

theorem faithful_evaluate {e : Engine} (h : e.Faithful) (code : String) (b : Bindings) :
    (e.evaluate code b).evaluator.Faithful ∧ (e.evaluate code b).result = (compute code b).1 ∧
      (e.evaluate code b).bindings = (compute code b).2 := by
  unfold evaluate compute block
  cases hk : e.known.lookup code with
  | some block =>
    rw [h code block hk]
    exact ⟨h, rfl, rfl⟩
  | none =>
    cases hp : parse code.toList with
    | error seen => exact ⟨h, rfl, rfl⟩
    | ok block =>
      refine ⟨fun other block' h' => ?_, rfl, rfl⟩
      rw [List.lookup_cons] at h'
      split at h'
      · rename_i same
        cases h'
        rw [eq_of_beq same, hp]
      · exact h other block' h'

theorem faithful_after {e : Engine} (h : e.Faithful) (calls : List (String × Bindings)) :
    (Evaluator.after e calls).Faithful := by
  induction calls generalizing e with
  | nil => exact h
  | cons call calls ih => exact ih (faithful_evaluate h call.1 call.2).1

theorem computes {e : Engine} (h : e.Faithful) : Evaluator.Computes compute e :=
  fun calls code b => (faithful_evaluate (faithful_after h calls) code b).2

end Engine
end Script
end TextGrammar
