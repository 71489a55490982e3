import TextGrammar.Machine.Step
set_option autoImplicit false

namespace TextGrammar.Machine

variable {σ ε : Type} [Sink σ] [Evaluator ε]

inductive Runs (p : Program) : Nat → State σ ε → State σ ε → Prop where
  | zero (s : State σ ε) : Runs p 0 s s
  | succ {n : Nat} {s u v : State σ ε} (first : step p s = .running u) (rest : Runs p n u v) : Runs p (n + 1) s v

def Reachable (p : Program) (s u : State σ ε) : Prop := ∃ n, Runs p n s u

/-- What an instruction relies on. -/
def Fits (p : Program) (stack : List Cell) : Instruction → Prop
  | .pushLiteral i => i < p.literals.size
  | .eval i => i < p.scripts.size
  | .pop => stack ≠ []
  | .dec => ∃ n rest, stack = .int n :: rest ∧ 0 < n
  | .jumpIfZero _ => ∃ n rest, stack = .int n :: rest ∧ 0 ≤ n
  | .jumpIf _ => ∃ v rest, stack = .value v :: rest
  | .ret => ∃ a rest, stack = .address a :: rest
  | .write => ∃ cell rest text, stack = cell :: rest ∧ cellText cell = some text
  | .choose => ∃ pool rest, stack = .candidates pool :: rest ∧ pool.items ≠ []
  | .capture _ _ => ∃ start rest, stack = .offset start :: rest
  | .halt => stack = []
  | _ => True

def Safe (p : Program) (s : State σ ε) : Prop := ∃ i, p.code[s.pc]? = some i ∧ Fits p s.stack i

inductive SafeRuns (p : Program) : Nat → State σ ε → State σ ε → Prop where
  | zero (s : State σ ε) : SafeRuns p 0 s s
  | succ {n : Nat} {s u v : State σ ε} (safe : Safe p s) (first : step p s = .running u) (rest : SafeRuns p n u v) :
      SafeRuns p (n + 1) s v

def StepResult.ending? : StepResult σ ε → Option (Ending σ ε)
  | .running _ => none
  | .halted succeeded s => some ⟨.ok succeeded, s⟩
  | .faulted fault s => some ⟨.error fault, s⟩

variable {p : Program} {s u v : State σ ε} {m n : Nat}

theorem Runs.append (h : Runs p m s u) (h' : Runs p n u v) : Runs p (m + n) s v := by
  induction h with
  | zero _ =>
    rw [Nat.zero_add]
    exact h'
  | succ first _ ih =>
    rw [Nat.succ_add]
    exact .succ first (ih h')

theorem SafeRuns.append (h : SafeRuns p m s u) (h' : SafeRuns p n u v) : SafeRuns p (m + n) s v := by
  induction h with
  | zero _ =>
    rw [Nat.zero_add]
    exact h'
  | succ safe first _ ih =>
    rw [Nat.succ_add]
    exact .succ safe first (ih h')

theorem SafeRuns.runs (h : SafeRuns p n s u) : Runs p n s u := by
  induction h with
  | zero s => exact .zero s
  | succ _ first _ ih => exact .succ first ih

theorem Reachable.refl (s : State σ ε) : Reachable p s s := ⟨0, .zero s⟩

theorem Reachable.step (h : Reachable p s u) (hu : Machine.step p u = .running v) : Reachable p s v := by
  obtain ⟨n, h⟩ := h
  exact ⟨n + 1, h.append (.succ hu (.zero v))⟩

theorem Reachable.trans (h : Reachable p s u) (h' : Reachable p u v) : Reachable p s v := by
  obtain ⟨m, h⟩ := h
  obtain ⟨n, h'⟩ := h'
  exact ⟨m + n, h.append h'⟩

theorem Runs.keeps (I : State σ ε → Prop) (keep : ∀ u v, I u → Machine.step p u = .running v → I v)
    (h : Runs p n s u) (hs : I s) : I u := by
  induction h with
  | zero _ => exact hs
  | succ first _ ih => exact ih (keep _ _ hs first)

/-- What holds at the start and is kept by every step holds in every reachable state. -/
theorem Reachable.induct (I : State σ ε → Prop) (h : Reachable p s u) (hs : I s)
    (keep : ∀ u v, Reachable p s u → I u → Machine.step p u = .running v → I v) : I u := by
  obtain ⟨n, h⟩ := h
  have both := h.keeps (fun u => Reachable p s u ∧ I u)
    (fun u v hu first => ⟨hu.1.step first, keep u v hu.1 hu.2 first⟩) ⟨.refl s, hs⟩
  exact both.2

omit [Sink σ] [Evaluator ε] in
theorem initial_sink (p : Program) (start : Option Nat) (sink : σ) (evaluator : ε) (entropy : Entropy) :
    (initial p start sink evaluator entropy).sink = sink := by
  cases start <;> rfl

omit [Sink σ] [Evaluator ε] in
theorem initial_entropy (p : Program) (start : Option Nat) (sink : σ) (evaluator : ε) (entropy : Entropy) :
    (initial p start sink evaluator entropy).entropy = entropy := by
  cases start <;> rfl

theorem run_of_running (h : step p s = .running u) : run p (n + 1) s = run p n u := by
  rw [run, h]

theorem run_of_ending {x : Ending σ ε} (h : (step p s).ending? = some x) : run p (n + 1) s = some x := by
  rw [run]
  cases hs : step p s with
  | running u => rw [hs] at h; cases h
  | halted succeeded u => rw [hs] at h; exact h
  | faulted fault u => rw [hs] at h; exact h

theorem run_of_runs (h : Runs p m s u) : run p (m + n) s = run p n u := by
  induction h with
  | zero _ => rw [Nat.zero_add]
  | succ first _ ih => rw [Nat.add_right_comm, run_of_running first, ih]

theorem run_eq_none (h : Runs p m s u) (hn : n ≤ m) : run p n s = none := by
  induction h generalizing n with
  | zero _ =>
    obtain rfl : n = 0 := by omega
    rfl
  | succ first _ ih =>
    cases n with
    | zero => rfl
    | succ n =>
      rw [run_of_running first]
      exact ih (by omega)

theorem run_eq_some {x : Ending σ ε} (h : run p n s = some x) :
    ∃ m u, Runs p m s u ∧ (step p u).ending? = some x := by
  induction n generalizing s with
  | zero => cases h
  | succ n ih =>
    rw [run] at h
    cases hs : step p s with
    | running u =>
      rw [hs] at h
      obtain ⟨m, v, hv, hx⟩ := ih h
      exact ⟨m + 1, v, .succ hs hv, hx⟩
    | halted succeeded u =>
      rw [hs] at h
      exact ⟨0, s, .zero s, by rw [hs]; exact h⟩
    | faulted fault u =>
      rw [hs] at h
      exact ⟨0, s, .zero s, by rw [hs]; exact h⟩

theorem halted_of_run {succeeded : Bool} (h : run p n s = some ⟨.ok succeeded, v⟩) :
    ∃ u, Reachable p s u ∧ step p u = .halted succeeded v := by
  obtain ⟨m, u, hu, hx⟩ := run_eq_some h
  refine ⟨u, ⟨m, hu⟩, ?_⟩
  cases last : step p u with
  | halted b w =>
    rw [last] at hx
    cases hx
    rfl
  | _ =>
    rw [last] at hx
    cases hx

theorem faulted_of_run {fault : RunFault} (h : run p n s = some ⟨.error fault, v⟩) :
    ∃ u, Reachable p s u ∧ step p u = .faulted fault v := by
  obtain ⟨m, u, hu, hx⟩ := run_eq_some h
  refine ⟨u, ⟨m, hu⟩, ?_⟩
  cases last : step p u with
  | faulted told w =>
    rw [last] at hx
    cases hx
    rfl
  | _ =>
    rw [last] at hx
    cases hx

theorem run_of_le {x : Ending σ ε} (h : run p n s = some x) (hn : n ≤ m) : run p m s = some x := by
  obtain ⟨k, u, hk, hx⟩ := run_eq_some h
  have lt : k < n := by
    refine Nat.lt_of_not_le fun le => ?_
    rw [run_eq_none hk le] at h
    cases h
  obtain ⟨more, rfl⟩ := Nat.exists_eq_add_of_lt (Nat.lt_of_lt_of_le lt hn)
  rw [Nat.add_assoc, run_of_runs hk, run_of_ending hx]

/-- The states that a run goes through are those of any other part of it, as far as both reach. -/
theorem Runs.unique (h : Runs p n s v) (h' : Runs p n s u) : u = v := by
  induction h with
  | zero _ =>
    cases h'
    rfl
  | succ first _ ih =>
    cases h' with
    | succ first' rest' =>
      rw [first] at first'
      cases first'
      exact ih rest'

theorem SafeRuns.safe (h : SafeRuns p n s v) (h' : Runs p m s u) (hm : m < n) : Safe p u := by
  induction h' generalizing n with
  | zero _ =>
    cases h with
    | zero => omega
    | succ safe _ _ => exact safe
  | succ first' _ ih =>
    cases h with
    | zero => omega
    | succ _ first rest =>
      rw [first'] at first
      cases first
      exact ih rest (by omega)

theorem Runs.le_of_ending {x : Ending σ ε} (h : Runs p n s v) (hx : (step p v).ending? = some x)
    (h' : Runs p m s u) : m ≤ n := by
  induction h generalizing m with
  | zero _ =>
    cases h' with
    | zero => exact Nat.le_refl 0
    | succ first' _ => rw [first'] at hx; cases hx
  | succ first _ ih =>
    cases h' with
    | zero => exact Nat.zero_le _
    | succ first' rest' =>
      rw [first] at first'
      cases first'
      exact Nat.succ_le_succ (ih hx rest')

theorem ending_unique {x y : Ending σ ε} (hs : Runs p m s u) (hx : (step p u).ending? = some x)
    (hs' : Runs p n s v) (hy : (step p v).ending? = some y) : x = y := by
  have hmn : m = n := Nat.le_antisymm (hs'.le_of_ending hy hs) (hs.le_of_ending hx hs')
  subst hmn
  obtain rfl := hs.unique hs'
  rw [hx] at hy
  exact Option.some.inj hy

end TextGrammar.Machine
