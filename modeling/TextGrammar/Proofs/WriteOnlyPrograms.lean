import TextGrammar.Proofs.LiveExpressions
import TextGrammar.Proofs.RelatedAttempts
import TextGrammar.Proofs.StackSafety
set_option autoImplicit false

namespace TextGrammar
open Grammar Machine Emission

namespace Machine

variable {σ ε : Type} [Sink σ]

/-- A step that asks a sink for nothing but a write, and whose run cannot fail there. -/
def GoesOn (p : Program) (s : State σ ε) : StepResult σ ε → Prop
  | .running _ => True
  | .halted succeeded _ => succeeded = true
  | .faulted (.eval _ _) _ => True
  | .faulted (.sink fault) t =>
    p.code[s.pc]? = some .write ∧ ∃ bytes, Sink.write s.sink bytes = (.error fault, t.sink)
  | .faulted (.invariant v) _ => v ≠ .readBack

variable {p : Program} {s : State σ ε} {i : Instruction}

theorem restoresOutput_of_fails (fails : i = .rescue ∨ ∃ name discard, i = .capture name discard) :
    i.restoresOutput = true := by
  obtain rfl | ⟨_, _, rfl⟩ := fails <;> rfl

theorem plain_of_mayRestoreOutput (h : p.mayRestoreOutput = false) (a : Nat) (i : Instruction)
    (hi : p.code[a]? = some i) : i.restoresOutput = false := by
  obtain ⟨ha, rfl⟩ := Array.getElem?_eq_some_iff.1 hi
  exact mayRestoreOutput_eq_false.1 h _ (by simp)

variable [Evaluator ε]

theorem step_goesOn (h : p.mayRestoreOutput = false) : GoesOn p s (step p s) := by
  cases hi : p.code[s.pc]? with
  | none =>
    simp only [step, hi]
    exact Violation.noConfusion
  | some i =>
    have plain := plain_of_mayRestoreOutput h s.pc i hi
    have effect := step_effect hi
    generalize step p s = r at effect ⊢
    cases effect with
    | exhausted fails => exact absurd (restoresOutput_of_fails fails) (by simp [plain])
    | unrestored fails _ _ _ => exact absurd (restoresOutput_of_fails fails) (by simp [plain])
    | halt => rfl
    | unwritten refused => exact ⟨hi, _, refused⟩
    | unread _ _ => cases plain
    | misfit _ other => exact other
    | _ => trivial

/-- Such a run ends in success if it ends without a fault. -/
theorem succeeds_of_mayRestoreOutput (h : p.mayRestoreOutput = false) {steps : Nat} {succeeded : Bool}
    {t : State σ ε} (hrun : run p steps s = some ⟨.ok succeeded, t⟩) : succeeded = true := by
  obtain ⟨u, -, last⟩ := halted_of_run hrun
  have goes := step_goesOn (s := u) h
  rwa [last] at goes

/-- Runs of such a program stay together on two sinks that take the same writes, wherever their positions are. -/
theorem together_of_plain {τ : Type} [Sink τ] {sink : σ → τ → Prop} {position : Nat → Nat → Prop}
    {tell : RunFault → RunFault} {t : State τ ε} (plain : p.mayRestoreOutput = false)
    (writes : ∀ u v text, sink u v → (Ties.ofSinks (ε := ε) sink position tell).Agree
      (Sink.write u (Utf8.ofString text)) (Sink.write v (Utf8.ofString text)))
    (h : s.Related (.ofSinks sink position tell) t) (n : Nat) : Together (.ofSinks sink position tell) p n s t := by
  refine together h fun _ _ u v _ _ related => .of_sinks related (fun text _ => writes _ _ text related.sink) ?_
  intro i hi restores
  rw [plain_of_mayRestoreOutput plain u.pc i hi] at restores
  cases restores

omit [Sink σ] [Evaluator ε] in
theorem State.Related.eq {position : Nat → Nat → Prop} {t : State σ ε} (h : s.Related (.ofSinks (· = ·) position id) t)
    (same : ∀ a b, position a b → a = b) : s = t := by
  obtain ⟨cells, rfl, rfl, rfl⟩ := h
  rw [eq_of_like same cells]

omit [Sink σ] [Evaluator ε] in
theorem Ending.Related.eq {position : Nat → Nat → Prop} {x y : Ending σ ε}
    (h : x.Related (.ofSinks (· = ·) position id) y) (same : ∀ a b, position a b → a = b) : x = y := by
  cases h with
  | ok _ last => rw [last.eq same]
  | error blame last =>
    rw [last.eq same]
    exact congrArg (fun f => (⟨.error f, _⟩ : Ending σ ε)) blame

omit [Sink σ] in
/-- Such a run goes the same way on every sink that takes the same writes, whatever else the sink does. -/
theorem run_of_writes {S S' : Sink σ} (h : ∀ u bytes, S'.write u bytes = S.write u bytes)
    (plain : p.mayRestoreOutput = false) (start : Option Nat) (sink : σ) (evaluator : ε) (entropy : Entropy) (n : Nat) :
    @run σ ε S' _ p n (initial p start sink evaluator entropy) =
      @run σ ε S _ p n (initial p start sink evaluator entropy) := by
  have writes (u v : σ) (text : String) (same : u = v) : (Ties.ofSinks (ε := ε) (· = ·) (fun _ _ => False) id).Agree
      (S'.write u (Utf8.ofString text)) (S.write v (Utf8.ofString text)) := by
    rw [same, h]
    exact Ties.agree_self rfl
  obtain ⟨ends, -, -⟩ := @together_of_plain σ ε S' p _ _ σ S _ _ _ _ plain writes
    (initial_related p start (rfl : sink = sink) rfl (rfl : entropy = entropy)) n
  generalize @run σ ε S' _ p n _ = x at ends ⊢
  generalize @run σ ε S _ p n _ = y at ends ⊢
  cases ends with
  | none => rfl
  | some related => rw [related.eq nofun]

end Machine

namespace Generator

variable {σ τ ε : Type} [Sink σ] [Sink τ] [Evaluator ε] {g : Generator ε}

theorem generate_of_plain (plain : g.program.mayRestoreOutput = false) {sink : σ → τ → Prop}
    {position : Nat → Nat → Prop} {tell : RunFault → RunFault}
    (writes : ∀ u v text, sink u v → (Ties.ofSinks (ε := ε) sink position tell).Agree
      (Sink.write u (Utf8.ofString text)) (Sink.write v (Utf8.ofString text))) {u : σ} {v : τ} (out : sink u v)
    (steps : Nat) (entropy : Entropy) :
    Option.Rel (Attempt.Related (.ofSinks sink position tell)) (g.generate steps u entropy)
      (g.generate steps v entropy) := by
  refine generate_related (together_of_plain plain writes (initial_related _ _ out rfl rfl) steps) ?_
  intro x _ hx _ _ failed
  obtain ⟨_, s⟩ := x
  cases failed
  cases succeeds_of_mayRestoreOutput plain hx

theorem generate_not_failed (plain : g.program.mayRestoreOutput = false) {steps : Nat} {sink : σ} {entropy : Entropy}
    {a : Attempt Bool σ ε} (h : g.generate steps sink entropy = some a) : a.result ≠ .ok false := by
  obtain ⟨⟨_, s⟩, hx, attempted⟩ := exists_attempted h
  cases attempted with
  | kept other => exact other
  | undone failed _ =>
    cases failed
    cases succeeds_of_mayRestoreOutput plain hx
  | unrestored _ _ => nofun

end Generator

/-- A program may go back on output or read it back if and only if something that can run in its grammar is a choice, a
check, a capture or a repetition with iterations to spare. A run of any other program asks a sink for writes only, so
that it is the same on every sink that takes these, and ends in success, with a fault of the evaluator, or with one of
a write. -/
theorem mayRestoreOutput_exact {σ ε : Type} [S : Sink σ] [Evaluator ε] {source : String} {p : Program} {g : Grammar}
    (hp : Program.compile source = .ok p) (hg : Grammar.read source.toList = .ok g) :
    (p.mayRestoreOutput = false ↔ ∀ e ∈ g.entry ++ g.rules.map Rule.body, ∀ f ∈ e.live, ¬ f.Revisits) ∧
    (p.mayRestoreOutput = false → ∀ (start : Option String) (address : Option Nat), p.start? start = some address →
      ∀ (sink : σ) (evaluator : ε) (entropy : Entropy),
        (∀ s, Reachable p (initial p address sink evaluator entropy) s →
          ∃ i, p.code[s.pc]? = some i ∧ i.restoresOutput = false) ∧
        (∀ S' : Sink σ, (∀ u bytes, S'.write u bytes = S.write u bytes) → ∀ steps,
          @Machine.run σ ε S' _ p steps (initial p address sink evaluator entropy) =
            @Machine.run σ ε S _ p steps (initial p address sink evaluator entropy)) ∧
        ∀ steps result u, Machine.run p steps (initial p address sink evaluator entropy) = some ⟨result, u⟩ →
          result = .ok true ∨ (∃ code fault, result = .error (.eval code fault)) ∨
          ∃ s bytes fault, Reachable p (initial p address sink evaluator entropy) s ∧ p.code[s.pc]? = some .write ∧
            Sink.write s.sink bytes = (.error fault, u.sink) ∧ result = .error (.sink fault)) := by
  obtain ⟨g', hg', faultless, rfl⟩ := Program.read_of_compile hp
  obtain rfl : g' = g := Except.ok.inj (hg'.symm.trans hg)
  refine ⟨mayRestoreOutput_ofGrammar faultless, fun plain start address ha sink evaluator entropy => ?_⟩
  refine ⟨fun s hs => ?_, fun S' same steps => run_of_writes same plain address sink evaluator entropy steps,
    fun steps result u hrun => ?_⟩
  · obtain ⟨i, hi, -⟩ := safe_of_reachable hp ha hs
    exact ⟨i, hi, plain_of_mayRestoreOutput plain s.pc i hi⟩
  · cases result with
    | ok succeeded => exact .inl (congrArg Except.ok (succeeds_of_mayRestoreOutput plain hrun))
    | error fault =>
      obtain ⟨s, hs, last⟩ := faulted_of_run hrun
      have goes := step_goesOn (s := s) plain
      have order := step_inOrder (safe_of_reachable hp ha hs)
      rw [last] at goes order
      match fault, goes, order with
      | .eval code fault, _, _ => exact .inr (.inl ⟨code, fault, rfl⟩)
      | .sink fault, ⟨hi, bytes, refused⟩, _ => exact .inr (.inr ⟨s, bytes, fault, hs, hi, refused, rfl⟩)
      | .invariant violation, other, order => exact absurd order.1 other

@[reducible] def writeOnly : Sink Bytes where
  write s bytes := (.ok bytes.length, s ++ bytes)
  position _ := 0
  restore s _ := (.error .cannotRestore, s)
  writtenSince _ _ := none
  close s := (.ok (), s)

/-- A grammar whose only check stands in a repetition that never runs. -/
theorem mayRestoreOutput_exact_never : ∃ p g s,
    Program.compile "r*[2] \x7bb = 1\x7d r = 'a' 1...6 ('x' \x7b? true\x7d)*[0] ;" = .ok p ∧
    Grammar.read "r*[2] \x7bb = 1\x7d r = 'a' 1...6 ('x' \x7b? true\x7d)*[0] ;".toList = .ok g ∧
    p.mayRestoreOutput = false ∧ (∀ e ∈ g.entry ++ g.rules.map Rule.body, ∀ f ∈ e.live, ¬ f.Revisits) ∧
    s.sink = [97, 53, 97, 54] ∧
    @Machine.run Bytes Script.Engine writeOnly _ p 60 (initial p none [] .empty [4, 5]) = some ⟨.ok true, s⟩ := by
  obtain ⟨p, s, hp, hrun, hs⟩ := @Program.exists_run Bytes Script.Engine _ _
    "r*[2] \x7bb = 1\x7d r = 'a' 1...6 ('x' \x7b? true\x7d)*[0] ;" 60 [] [97, 53, 97, 54] .empty [4, 5] true
    (by decide +kernel)
  obtain ⟨g, hg, -⟩ := Program.read_of_compile hp
  have flag : (Program.compile "r*[2] \x7bb = 1\x7d r = 'a' 1...6 ('x' \x7b? true\x7d)*[0] ;").toOption.map
      Program.mayRestoreOutput = some false := by decide +kernel
  rw [hp] at flag
  have plain : p.mayRestoreOutput = false := Option.some.inj flag
  obtain ⟨grammar, runs⟩ := @mayRestoreOutput_exact Bytes Script.Engine _ _ _ p g hp hg
  obtain ⟨-, same, -⟩ := runs plain none none rfl [] .empty [4, 5]
  exact ⟨p, g, s, hp, hg, plain, grammar.1 plain, hs, (same writeOnly (fun _ _ => rfl) 60).trans hrun⟩

end TextGrammar
