import TextGrammar.Proofs.Refinement
import TextGrammar.Proofs.StepEffects
set_option autoImplicit false

namespace TextGrammar
open Grammar Machine Meaning Emission

variable {σ ε : Type} [Sink σ] [Evaluator ε]

namespace Machine

/-- What a step from a state may come to. A sink is at fault in a write, or in going back to the position of a cell. -/
def InOrder (p : Program) (s : State σ ε) : StepResult σ ε → Prop
  | .halted _ u => u.stack = []
  | .faulted (.invariant v) _ =>
    v = .readBack ∧ ∃ start rest, s.stack = .offset start :: rest ∧ Sink.writtenSince s.sink start = none
  | .faulted (.sink fault) _ => p.code[s.pc]? = some .write ∨
    ∃ cell ∈ s.stack, ∃ position, cell.position? = some position ∧ (Sink.restore s.sink position).1 = .error fault
  | _ => True

variable {p : Program} {s u : State σ ε}

theorem step_inOrder (safe : Safe p s) : InOrder p s (step p s) := by
  obtain ⟨i, hi, fits⟩ := safe
  have effect := step_effect hi
  generalize step p s = r at effect ⊢
  cases effect with
  | halt => exact fits
  | exhausted _ => rfl
  | unwritten _ => exact .inl hi
  | unrestored _ held marked refused => exact .inr ⟨_, held, _, marked, by rw [refused]⟩
  | unread before missing => exact ⟨rfl, _, _, before, missing⟩
  | misfit unfit _ => exact absurd fits unfit
  | _ => trivial

/-- Every state of a run is safe if the run leads to the halt with nothing on the stack. -/
theorem safe_of_leads {exit : Nat} {meaning : Nat → Option (Outcome σ ε)}
    (h : ∀ fuel, Leads p s fuel exit [] (meaning fuel)) (halt : p.code[exit]? = some .halt) (hu : Reachable p s u) :
    Safe p u := by
  obtain ⟨n, hn⟩ := hu
  have leads := h (n + 1)
  cases ho : meaning (n + 1) with
  | none =>
    rw [ho] at leads
    obtain ⟨m, v, hm, safe⟩ := leads
    exact safe.safe hn hm
  | some o =>
    rw [ho] at leads
    obtain ⟨m, v, x, hm, safe, hx, -⟩ := ending_of_leads leads halt
    -- `u` comes before the state in which the run ends, or is that state
    rcases Nat.lt_or_eq_of_le (hm.runs.le_of_ending hx hn) with hlt | rfl
    · exact hm.safe hn hlt
    · rwa [hm.runs.unique hn]

end Machine

theorem safe_of_reachable {source : String} {p : Program} {start : Option String} {address : Option Nat}
    (hp : Program.compile source = .ok p) (ha : p.start? start = some address) {sink : σ} {evaluator : ε}
    {entropy : Entropy} {s : State σ ε} (hs : Reachable p (initial p address sink evaluator entropy) s) : Safe p s := by
  obtain ⟨g, -, sound, rfl⟩ := Program.compile_eq_ok hp
  obtain ⟨e, -, leads⟩ := leads_initial sound ha sink evaluator entropy
  exact safe_of_leads leads (halt_codeAt g) hs

/-- In every state of a run of a compiled program the instruction exists and finds what it needs. No step comes to a
violation, unless a sink cannot read back, and the stack is empty when the run ends in success or failure. -/
theorem compiled_run_inOrder {source : String} {p : Program} {start : Option String} {address : Option Nat}
    (hp : Program.compile source = .ok p) (ha : p.start? start = some address) (sink : σ) (evaluator : ε)
    (entropy : Entropy) :
    (∀ s, Reachable p (initial p address sink evaluator entropy) s → Safe p s ∧
      ∀ v u, step p s = .faulted (.invariant v) u → v = .readBack ∧
        ∃ start rest, s.stack = .offset start :: rest ∧ Sink.writtenSince s.sink start = none) ∧
    ∀ steps succeeded u, Machine.run p steps (initial p address sink evaluator entropy) = some ⟨.ok succeeded, u⟩ →
      u.stack = [] := by
  refine ⟨fun s hs => ?_, fun steps succeeded u hrun => ?_⟩
  · have safe := safe_of_reachable hp ha hs
    refine ⟨safe, fun v u last => ?_⟩
    have order := step_inOrder safe
    rwa [last] at order
  · obtain ⟨s, hs, last⟩ := halted_of_run hrun
    have order := step_inOrder (safe_of_reachable hp ha hs)
    rwa [last] at order

/-- A run through a capture and an attempt that is undone. -/
theorem compiled_run_inOrder_undone : ∃ p s,
    Program.compile "'a' \x7bcapture x\x7d ('b' \x7b?nil\x7d)? \x7b=x\x7d" = .ok p ∧
    Machine.run p 40 (initial p none ([] : Bytes) Script.Engine.empty [1]) = some ⟨.ok true, s⟩ ∧ s.stack = [] ∧
    ∀ u, Reachable p (initial p none ([] : Bytes) Script.Engine.empty [1]) u → Safe p u := by
  obtain ⟨p, s, hp, hrun, -⟩ := @Program.exists_run Bytes Script.Engine _ _
    "'a' \x7bcapture x\x7d ('b' \x7b?nil\x7d)? \x7b=x\x7d" 40 [] [97, 97] .empty [1] true (by decide +kernel)
  obtain ⟨safe, empty⟩ := @compiled_run_inOrder Bytes Script.Engine _ _ _ p none none hp rfl [] .empty [1]
  exact ⟨p, s, hp, hrun, empty 40 true s hrun, fun u hu => (safe u hu).1⟩

end TextGrammar
