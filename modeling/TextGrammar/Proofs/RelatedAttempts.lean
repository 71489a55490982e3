import TextGrammar.Generator
import TextGrammar.Proofs.RelatedRuns
set_option autoImplicit false

namespace TextGrammar
namespace Machine

variable {σ ε : Type} [Sink σ]

/-- What an attempt comes to at the end of its run. If the grammar failed, the sink goes back to where it was. -/
def Ending.attempt (before : Nat) (x : Ending σ ε) : Attempt Bool σ ε :=
  match x.result with
  | .ok false => match Sink.restore x.state.sink before with
    | (.ok (), sink) => ⟨.ok false, sink, x.state.evaluator, x.state.entropy⟩
    | (.error fault, sink) => ⟨.error (.sink fault), sink, x.state.evaluator, x.state.entropy⟩
  | result => ⟨result, x.state.sink, x.state.evaluator, x.state.entropy⟩

inductive Ending.Attempted (before : Nat) (x : Ending σ ε) : Attempt Bool σ ε → Prop where
  | kept (other : x.result ≠ .ok false) :
      Attempted before x ⟨x.result, x.state.sink, x.state.evaluator, x.state.entropy⟩
  | undone {sink : σ} (failed : x.result = .ok false) (restored : Sink.restore x.state.sink before = (.ok (), sink)) :
      Attempted before x ⟨.ok false, sink, x.state.evaluator, x.state.entropy⟩
  | unrestored {fault : OutputFault} {sink : σ} (failed : x.result = .ok false)
      (refused : Sink.restore x.state.sink before = (.error fault, sink)) :
      Attempted before x ⟨.error (.sink fault), sink, x.state.evaluator, x.state.entropy⟩

theorem Ending.attempt_spec (before : Nat) (x : Ending σ ε) : x.Attempted before (x.attempt before) := by
  unfold Ending.attempt
  split
  · rename_i failed
    split
    · rename_i restored
      exact .undone failed restored
    · rename_i refused
      exact .unrestored failed refused
  · rename_i other
    exact .kept other

theorem Ending.Attempted.entropy {before : Nat} {x : Ending σ ε} {a : Attempt Bool σ ε} (h : x.Attempted before a) :
    a.entropy = x.state.entropy := by
  cases h <;> rfl

end Machine

inductive Attempt.Related {σ τ ε δ : Type} (ties : Machine.Ties σ τ ε δ) :
    Attempt Bool σ ε → Attempt Bool τ δ → Prop where
  | ok {u : σ} {v : τ} {evaluator : ε} {evaluator' : δ} {entropy entropy' : Entropy} (succeeded : Bool)
      (out : ties.sink u v) (eval : ties.evaluator evaluator evaluator') (supply : ties.entropy entropy entropy') :
      Related ties ⟨.ok succeeded, u, evaluator, entropy⟩ ⟨.ok succeeded, v, evaluator', entropy'⟩
  | error {u : σ} {v : τ} {evaluator : ε} {evaluator' : δ} {entropy entropy' : Entropy} {f g : RunFault}
      (blame : ties.fault f g) (out : ties.sink u v) (eval : ties.evaluator evaluator evaluator')
      (supply : ties.entropy entropy entropy') :
      Related ties ⟨.error f, u, evaluator, entropy⟩ ⟨.error g, v, evaluator', entropy'⟩

section
variable {σ τ ε δ : Type} {ties : Machine.Ties σ τ ε δ} {a : Attempt Bool σ ε} {b : Attempt Bool τ δ}

theorem Attempt.Related.sink (h : a.Related ties b) : ties.sink a.sink b.sink := by
  cases h <;> assumption

theorem Attempt.Related.evaluator (h : a.Related ties b) : ties.evaluator a.evaluator b.evaluator := by
  cases h <;> assumption

theorem Attempt.Related.entropy (h : a.Related ties b) : ties.entropy a.entropy b.entropy := by
  cases h <;> assumption

theorem Attempt.Related.result (h : a.Related ties b) (told : ∀ f g, ties.fault f g → f = g) : a.result = b.result := by
  cases h with
  | ok succeeded _ _ _ => rfl
  | error blame _ _ _ => exact congrArg Except.error (told _ _ blame)

end

variable {σ τ ε δ : Type} [Sink σ] [Sink τ] [Evaluator ε] [Evaluator δ] {ties : Machine.Ties σ τ ε δ}

omit [Evaluator ε] [Evaluator δ] in
theorem Machine.attempt_related {x : Ending σ ε} {y : Ending τ δ} {before before' : Nat} (h : x.Related ties y)
    (back : x.result = .ok false →
      ties.Agree (Sink.restore x.state.sink before) (Sink.restore y.state.sink before')) :
    (x.attempt before).Related ties (y.attempt before') := by
  cases h with
  | ok succeeded last =>
    obtain @⟨_, _, _, _, sink, sink', _, _, _, _, -, out, eval, supply⟩ := last
    cases succeeded with
    | true => exact .ok true out eval supply
    | false =>
      have back := back rfl
      simp only at back
      rcases hr : Sink.restore sink before with ⟨result, u⟩
      rcases hr' : Sink.restore sink' before' with ⟨result', v⟩
      rw [hr, hr'] at back
      simp only [Ending.attempt, hr, hr']
      cases back with
      | done out => exact .ok false out eval supply
      | refused blame out => exact .error blame out eval supply
  | error blame last =>
    obtain ⟨-, out, eval, supply⟩ := last
    exact .error blame out eval supply

namespace Generator
open Machine

def calls (g : Generator ε) (steps : Nat) (sink : σ) (entropy : Entropy) : List (String × Bindings) :=
  Machine.calls g.program steps (initial g.program g.start sink g.evaluator entropy)

theorem generate_eq (g : Generator ε) (steps : Nat) (sink : σ) (entropy : Entropy) :
    g.generate steps sink entropy =
      (run g.program steps (initial g.program g.start sink g.evaluator entropy)).map
        (Ending.attempt (Sink.position sink)) := by
  unfold generate
  cases run g.program steps (initial g.program g.start sink g.evaluator entropy) with
  | none => rfl
  | some x =>
    obtain ⟨⟨_⟩ | ⟨_ | _⟩, s⟩ := x
    · rfl
    · simp only [Option.map_some, Ending.attempt]
      rcases Sink.restore s.sink (Sink.position sink) with ⟨_ | _, u⟩ <;> rfl
    · rfl

theorem exists_attempted {g : Generator ε} {steps : Nat} {sink : σ} {entropy : Entropy} {a : Attempt Bool σ ε}
    (h : g.generate steps sink entropy = some a) :
    ∃ x, run g.program steps (initial g.program g.start sink g.evaluator entropy) = some x ∧
      x.Attempted (Sink.position sink) a := by
  rw [generate_eq] at h
  obtain ⟨x, hx, rfl⟩ := Option.map_eq_some_iff.1 h
  exact ⟨x, hx, x.attempt_spec (Sink.position sink)⟩

/-- Attempts whose runs stay together come to the same, if their sinks go back to where they were alike. -/
theorem generate_related {p : Program} {start : Option Nat} {steps : Nat} {u : σ} {v : τ} {evaluator : ε} {evaluator' : δ}
    {entropy entropy' : Entropy}
    (runs : Together ties p steps (initial p start u evaluator entropy) (initial p start v evaluator' entropy'))
    (back : ∀ x y, run p steps (initial p start u evaluator entropy) = some x →
      run p steps (initial p start v evaluator' entropy') = some y → x.Related ties y →
      x.result = .ok false →
      ties.Agree (Sink.restore x.state.sink (Sink.position u)) (Sink.restore y.state.sink (Sink.position v))) :
    Option.Rel (Attempt.Related ties) (generate ⟨p, evaluator, start⟩ steps u entropy)
      (generate ⟨p, evaluator', start⟩ steps v entropy') := by
  rw [generate_eq, generate_eq]
  have ends := runs.ends
  generalize hx : run p steps (initial p start u evaluator entropy) = r at ends ⊢
  generalize hy : run p steps (initial p start v evaluator' entropy') = r' at ends ⊢
  cases ends with
  | none => exact .none
  | some related => exact .some (attempt_related related (back _ _ hx hy related))

theorem generate_keeps (g : Generator ε) {P : σ → Prop}
    (writes : ∀ u text, P u → P (Sink.write u (Utf8.ofString text)).2)
    (restores : ∀ u position, P u → P (Sink.restore u position).2) {steps : Nat} {sink : σ} {entropy : Entropy}
    {a : Attempt Bool σ ε} (hs : P sink) (h : g.generate steps sink entropy = some a) : P a.sink := by
  obtain ⟨x, hx, attempted⟩ := exists_attempted h
  have started : P (initial g.program g.start sink g.evaluator entropy).sink := by rwa [initial_sink]
  obtain ⟨-, kept⟩ := keeps_sink started writes fun u _ hu _ _ position _ => restores _ position hu
  have last : P x.state.sink := kept steps x hx
  have back := restores _ (Sink.position sink) last
  cases attempted with
  | kept _ => exact last
  | undone _ restored => rwa [restored] at back
  | unrestored _ refused => rwa [refused] at back

end Generator

end TextGrammar
