import Mathlib.Data.List.Basic
import TextGrammar.Proofs.JoinedBlocks
import TextGrammar.Proofs.ComputingEvaluators
set_option autoImplicit false

namespace TextGrammar.Script

variable {b b' : Bindings} {s : Statement} {A B done rest : Block} {v last : Value} {f : EvalFault}

/-- The statements run one after the other, none fails, and this is what they make of the bindings. -/
inductive Completes : Bindings → Block → Bindings → Prop
  | nil (b : Bindings) : Completes b [] b
  | cons {b b' b'' : Bindings} {s : Statement} {v : Value} {rest : Block} (first : s.run b = .ok (v, b'))
    (more : Completes b' rest b'') : Completes b (s :: rest) b''

theorem Statement.run_eq_ok (h : s.run b = .ok (v, b')) :
    (∃ name t, s = .assign name t ∧ b' = b.set name v) ∨ (∃ t, s = .evaluate t) ∧ b' = b := by
  cases s with
  | assign name t =>
    rw [Statement.run] at h
    split at h
    · cases h
    · cases value : t.eval b with
      | error f =>
        rw [value] at h
        cases h
      | ok w =>
        rw [value] at h
        cases h
        exact .inl ⟨name, t, rfl, rfl⟩
  | evaluate t =>
    rw [Statement.run] at h
    cases value : t.eval b with
    | error f =>
      rw [value] at h
      cases h
    | ok w =>
      rw [value] at h
      cases h
      exact .inr ⟨⟨t, rfl⟩, rfl⟩

/-- A variable that no completed statement assigns keeps its value. -/
theorem Completes.get?_eq (h : Completes b done b') {name : String} (free : ∀ t, Statement.assign name t ∉ done) :
    b'.get? name = b.get? name := by
  induction h with
  | nil b => rfl
  | cons first more ih =>
    rw [ih fun t ht => free t (List.mem_cons_of_mem _ ht)]
    rcases Statement.run_eq_ok first with ⟨other, t, rfl, rfl⟩ | ⟨-, rfl⟩
    · refine Bindings.get?_set_of_ne _ other name _ ?_
      rintro rfl
      exact free t List.mem_cons_self
    · rfl

theorem runFrom_append (last : Value) (b : Bindings) (A B : Block) :
    runFrom last b (A ++ B) = match runFrom last b A with
      | (.ok v, b') => runFrom v b' B
      | (.error f, b') => (.error f, b') := by
  induction A generalizing last b with
  | nil => rfl
  | cons s A ih =>
    rw [List.cons_append, runFrom, runFrom]
    cases s.run b with
    | ok r => exact ih r.1 r.2
    | error f => rfl

/-- A run that fails has completed the statements before the one that failed, and that one changed nothing. -/
theorem exists_failing (h : runFrom last b A = (.error f, b')) :
    ∃ done s rest, A = done ++ s :: rest ∧ Completes b done b' ∧ s.run b' = .error f := by
  induction A generalizing last b with
  | nil => cases h
  | cons s A ih =>
    rw [runFrom] at h
    cases first : s.run b with
    | ok r =>
      rw [first] at h
      obtain ⟨done, t, rest, rfl, completes, failed⟩ := ih h
      exact ⟨s :: done, t, rest, rfl, .cons first completes, failed⟩
    | error g =>
      rw [first] at h
      cases h
      exact ⟨[], s, A, rfl, .nil _, first⟩

/-- Only a block without statements has the value of what went before it. -/
theorem runFrom_of_ne_nil (nonempty : A ≠ []) : runFrom last b A = run A b := by
  cases A with
  | nil => exact absurd rfl nonempty
  | cons s A => rfl

def Engine.evaluateBoth (e : Engine) (first second : String) (b : Bindings) : Evaluation Engine :=
  let evaluation := e.evaluate first b
  match evaluation.result with
  | .ok _ => evaluation.evaluator.evaluate second evaluation.bindings
  | .error _ => evaluation

theorem compute_eq {code : String} (h : parse code.toList = .ok A) : compute code b = run A b := by
  unfold compute
  rw [h]

theorem evaluateBoth_eq {e : Engine} (faithful : e.Faithful) {x y : String} (hx : parse x.toList = .ok A)
    (hy : parse y.toList = .ok B) (nonempty : B ≠ []) :
    ((e.evaluateBoth x y b).result, (e.evaluateBoth x y b).bindings) = run (A ++ B) b := by
  obtain ⟨faithful', result, bindings⟩ := Engine.faithful_evaluate faithful x b
  rw [compute_eq hx] at result bindings
  rw [run, runFrom_append, Engine.evaluateBoth]
  rw [run] at result bindings
  cases first : runFrom .nil b A with
  | mk outcome b' =>
    rw [first] at result bindings
    cases outcome with
    | ok v =>
      obtain ⟨-, result', bindings'⟩ := Engine.faithful_evaluate faithful' y b'
      have value : run B b' = runFrom v b' B := (runFrom_of_ne_nil nonempty).symm
      rw [compute_eq hy, value] at result' bindings'
      simp only [result, bindings, result', bindings']
    | error f => simp only [result, bindings]

/-- Evaluating two blocks joined by a semicolon is evaluating the one and then, unless it fails, the other. After an error
the bindings are what the statements before the failing one made of them. -/
theorem evaluate_join {e : Engine} (faithful : e.Faithful) {x y : String} (hx : parse x.toList = .ok A)
    (hy : parse y.toList = .ok B) (nonempty : A ≠ []) (nonempty' : B ≠ []) (ends : ¬ EndsInSemicolon x.toList)
    (b : Bindings) :
    let joint := e.evaluate (x ++ ";" ++ y) b
    joint.result = (e.evaluateBoth x y b).result ∧ joint.bindings = (e.evaluateBoth x y b).bindings ∧
      ∀ f, joint.result = .error f → ∃ done s rest, A ++ B = done ++ s :: rest ∧ Completes b done joint.bindings ∧
        s.run joint.bindings = .error f ∧
        ∀ name, (∀ t, Statement.assign name t ∉ done) → joint.bindings.get? name = b.get? name := by
  intro joint
  have text : (x ++ ";" ++ y).toList = x.toList ++ ';' :: y.toList := by simp
  have parsed : parse (x ++ ";" ++ y).toList = .ok (A ++ B) := by
    rw [text]
    exact parse_join hx hy nonempty nonempty' ends
  obtain ⟨-, result, bindings⟩ := Engine.faithful_evaluate faithful (x ++ ";" ++ y) b
  rw [compute_eq parsed] at result bindings
  have both := evaluateBoth_eq (b := b) faithful hx hy nonempty'
  rw [← both] at result bindings
  refine ⟨result, bindings, fun f failed => ?_⟩
  have outcome : runFrom .nil b (A ++ B) = (.error f, joint.bindings) := by
    rw [← run, ← both]
    exact Prod.ext (result.symm.trans failed) bindings.symm
  obtain ⟨done, s, rest, split, completes, fault⟩ := exists_failing outcome
  exact ⟨done, s, rest, split, completes, fault, fun name free => completes.get?_eq free⟩

/-- A semicolon between quotes, one behind them, and a statement that fails after one that does not. -/
theorem evaluate_join_failing : ∃ A B, parse "s = 'a;'".toList = .ok A ∧ parse "s = 1; t = s / 0".toList = .ok B ∧
    A ≠ [] ∧ B ≠ [] ∧ ¬ EndsInSemicolon "s = 'a;'".toList ∧
    ∃ b, (Engine.empty.evaluate ("s = 'a;'" ++ ";" ++ "s = 1; t = s / 0") []).bindings = b ∧
      (Engine.empty.evaluateBoth "s = 'a;'" "s = 1; t = s / 0" []).bindings = b ∧
      ∃ done s rest, A ++ B = done ++ s :: rest ∧ Completes [] done b ∧ s.run b = .error .divisionByZero := by
  have reads (text : List Char) (h : ((parse text).toOption.any fun A => !A.isEmpty) = true) :
      ∃ A, parse text = .ok A ∧ A ≠ [] := by
    cases read : parse text with
    | error seen =>
      rw [read] at h
      cases h
    | ok A =>
      rw [read] at h
      refine ⟨A, rfl, ?_⟩
      rintro rfl
      cases h
  have fails : ((Engine.empty.evaluate ("s = 'a;'" ++ ";" ++ "s = 1; t = s / 0") []).result.map fun _ => ()) =
      .error .divisionByZero := by decide +kernel
  obtain ⟨A, hA, nonempty⟩ := reads "s = 'a;'".toList (by decide +kernel)
  obtain ⟨B, hB, nonempty'⟩ := reads "s = 1; t = s / 0".toList (by decide +kernel)
  have ends : ¬ EndsInSemicolon "s = 'a;'".toList := by decide +kernel
  obtain ⟨-, bindings, after⟩ := evaluate_join Engine.empty_faithful hA hB nonempty nonempty' ends []
  cases outcome : (Engine.empty.evaluate ("s = 'a;'" ++ ";" ++ "s = 1; t = s / 0") []).result with
  | ok v =>
    rw [outcome] at fails
    cases fails
  | error f =>
    rw [outcome] at fails
    cases fails
    obtain ⟨done, s, rest, split, completes, fault, -⟩ := after _ outcome
    exact ⟨A, B, hA, hB, nonempty, nonempty', ends, _, rfl, bindings.symm, done, s, rest, split, completes, fault⟩

end TextGrammar.Script
