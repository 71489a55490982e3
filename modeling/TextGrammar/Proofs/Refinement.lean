import TextGrammar.Proofs.Compiled
import TextGrammar.Proofs.RunDerivations
import TextGrammar.Script.Engine
set_option autoImplicit false

namespace TextGrammar
open Grammar Machine Meaning Emission

variable {σ ε : Type}

def Meaning.Outcome.ending : Outcome σ ε → Except RunFault Bool × World σ ε
  | .done w => (.ok true, w)
  | .failed w => (.ok false, w)
  | .faulted fault w => (.error fault, w)

variable [Sink σ] [Evaluator ε]

namespace Machine

theorem ending_of_leads {p : Program} {s : State σ ε} {fuel exit : Nat} {o : Outcome σ ε}
    (h : Leads p s fuel exit [] (some o)) (halt : p.code[exit]? = some .halt) :
    ∃ n u x, SafeRuns p n s u ∧ Safe p u ∧ (step p u).ending? = some x ∧ (x.result, x.state.world) = o.ending := by
  match o with
  | .done w =>
    obtain ⟨n, hn⟩ := h
    exact ⟨n, _, _, hn, safe_state halt rfl, by rw [step_state halt]; rfl, rfl⟩
  | .failed w =>
    obtain ⟨n, u, pc, above, hn, safe, last, hu⟩ := h
    have none_left : unwind above = none := hu
    refine ⟨n, u, ⟨.ok false, w.state pc []⟩, hn, safe, ?_, rfl⟩
    rw [last, rescue, World.state, none_left]
    rfl
  | .faulted fault w =>
    obtain ⟨n, u, v, hn, safe, last, rfl⟩ := h
    exact ⟨n, u, _, hn, safe, by rw [last]; rfl, rfl⟩

theorem run_iff_of_leads {p : Program} {s : State σ ε} {exit : Nat} {meaning : Nat → Option (Outcome σ ε)}
    (h : ∀ fuel, Leads p s fuel exit [] (meaning fuel)) (halt : p.code[exit]? = some .halt)
    (result : Except RunFault Bool) (w : World σ ε) :
    (∃ steps u, run p steps s = some ⟨result, u⟩ ∧ u.world = w) ↔
      ∃ fuel o, meaning fuel = some o ∧ o.ending = (result, w) := by
  constructor
  · rintro ⟨steps, u, hrun, rfl⟩
    have leads := h steps
    cases ho : meaning steps with
    | none =>
      -- as many steps as the run is said to take would not end it
      rw [ho] at leads
      obtain ⟨n, v, hn, safe⟩ := leads
      rw [run_eq_none safe.runs hn] at hrun
      cases hrun
    | some o =>
      rw [ho] at leads
      obtain ⟨n, v, x, hv, -, hx, same⟩ := ending_of_leads leads halt
      obtain ⟨m, v', hv', hx'⟩ := run_eq_some hrun
      obtain rfl := ending_unique hv.runs hx hv' hx'
      exact ⟨steps, o, ho, same.symm⟩
  · rintro ⟨fuel, o, ho, same⟩
    have leads := h fuel
    rw [ho] at leads
    obtain ⟨n, v, ⟨_, u⟩, hv, -, hx, hs⟩ := ending_of_leads leads halt
    rw [same] at hs
    cases hs
    exact ⟨n + 1, u, by rw [run_of_runs hv.runs, run_of_ending hx], rfl⟩

end Machine

namespace Meaning
open TransactionalSink

/-- If the expression fails, going back puts bindings and output to where they were. -/
def Undoable (σ ε : Type) [Sink σ] [TransactionalSink σ] [Evaluator ε] (g : Grammar) (e : Expr) : Prop :=
  ∀ (fuel : Nat) (w now : World σ ε), run g fuel e w = some (.failed now) →
    ∃ sink, now.putBack w = .done { now with bindings := w.bindings, sink := sink } ∧ content sink = content w.sink

variable {g : Grammar}

theorem undoable [TransactionalSink σ] (hg : g.Sound) {e : Expr} (he : e.Every Expr.Feasible) :
    Undoable σ ε g e := by
  intro fuel w now failed
  have obeys : Obeys (fun _ : ε => True) fun _ _ _ _ => True := fun _ _ _ _ => ⟨trivial, fun _ _ => trivial⟩
  have account := explained_run obeys hg.rule fuel e he w trivial
  rw [failed] at account
  exact putBack_eq account.2

end Meaning

theorem Program.start_of_start {g : Grammar} {start : Option String} {e : Expr} (hg : g.Sound)
    (he : g.start? start = some e) : ∃ address, (ofGrammar g).start? start = some address := by
  cases start with
  | none => exact ⟨none, rfl⟩
  | some name =>
    obtain ⟨a, found, -⟩ := (rulesPlaced hg).some name e he
    exact ⟨some a, Option.map_eq_some_iff.2 ⟨a, found, rfl⟩⟩

/-- A program can start wherever its grammar can. What it comes to there is what the grammar comes to, on any sink and
with any evaluator and entropy. On sinks that can go back, no failure anywhere in the grammar leaves anything behind. -/
theorem run_iff_meaning {source : String} {p : Program} {g : Grammar} {start : Option String} {e : Expr}
    (hp : Program.compile source = .ok p) (hg : Grammar.read source.toList = .ok g) (he : g.start? start = some e) :
    ∃ address, p.start? start = some address ∧
      (∀ (sink : σ) (evaluator : ε) (entropy : Entropy) (result : Except RunFault Bool) (w : World σ ε),
        (∃ steps s, Machine.run p steps (initial p address sink evaluator entropy) = some ⟨result, s⟩ ∧ s.world = w) ↔
          ∃ fuel o, Meaning.run g fuel e ⟨[], sink, evaluator, entropy⟩ = some o ∧ o.ending = (result, w)) ∧
      ∀ [TransactionalSink σ], ∀ e ∈ g.entry ++ g.rules.map Rule.body, e.Every (Undoable σ ε g) := by
  obtain ⟨g', hg', sound, rfl⟩ := Program.compile_eq_ok hp
  obtain rfl : g' = g := Except.ok.inj (hg'.symm.trans hg)
  obtain ⟨address, ha⟩ := Program.start_of_start sound he
  refine ⟨address, ha, fun sink evaluator entropy result w => ?_, fun e he => ?_⟩
  · obtain ⟨e', he', leads⟩ := leads_initial sound ha sink evaluator entropy
    obtain rfl : e' = e := Option.some.inj (he'.symm.trans he)
    exact run_iff_of_leads leads (halt_codeAt g') result w
  · exact every_imp (fun e he => undoable sound he) e (sound.feasible e he)

/-- An attempt that fails a check is undone in the grammar as in the machine. -/
theorem run_iff_meaning_undone : ∃ p g e address fuel o,
    Program.compile "'a' \x7bcapture x\x7d ('b' \x7b?nil\x7d)? \x7b=x\x7d" = .ok p ∧
    Grammar.read "'a' \x7bcapture x\x7d ('b' \x7b?nil\x7d)? \x7b=x\x7d".toList = .ok g ∧
    g.start? none = some e ∧ p.start? none = some address ∧
    Meaning.run g fuel e ⟨[], ([] : Bytes), Script.Engine.empty, [1]⟩ = some o ∧ o.ending.1 = .ok true ∧
    o.ending.2.sink = [97, 97] := by
  obtain ⟨p, s, hp, hrun, hs⟩ := @Program.exists_run Bytes Script.Engine _ _
    "'a' \x7bcapture x\x7d ('b' \x7b?nil\x7d)? \x7b=x\x7d" 40 [] [97, 97] .empty [1] true (by decide +kernel)
  obtain ⟨g, hg, sound, rfl⟩ := Program.compile_eq_ok hp
  obtain ⟨e, he, -⟩ := @leads_initial Bytes Script.Engine _ _ g none none sound rfl [] .empty [1]
  obtain ⟨address, ha, same, -⟩ := @run_iff_meaning Bytes Script.Engine _ _ _ _ _ none e hp hg he
  cases ha
  obtain ⟨fuel, o, ho, hend⟩ := (same [] .empty [1] (.ok true) s.world).1 ⟨40, s, hrun, rfl⟩
  exact ⟨_, g, e, none, fuel, o, hp, hg, he, rfl, ho, by rw [hend], by rw [hend]; exact hs⟩

end TextGrammar
