import TextGrammar.Proofs.Runs
import TextGrammar.Proofs.Meaning
set_option autoImplicit false

/-!
# What the machine comes to

From a state in the middle of a run the machine comes to an outcome if its next steps are safe and lead to that outcome:
to an address with a given stack, to a failure that the same stack has to deal with, or to a fault. To come to no
outcome within some fuel is to go on for at least as many steps.
-/
namespace TextGrammar
open Machine Meaning

variable {σ ε : Type}

def Meaning.World.state (w : World σ ε) (pc : Nat) (stack : List Cell) : State σ ε :=
  ⟨pc, stack, w.bindings, w.sink, w.evaluator, w.entropy⟩

def Machine.State.world (s : State σ ε) : World σ ε := ⟨s.bindings, s.sink, s.evaluator, s.entropy⟩

namespace Machine

variable [Sink σ] [Evaluator ε]

/-- The cells above the latest rescue point of `stack` do not matter to a failure. -/
def Fails (p : Program) (s : State σ ε) (stack : List Cell) (w : World σ ε) : Prop :=
  ∃ n u pc above, SafeRuns p n s u ∧ Safe p u ∧ step p u = rescue (w.state pc above) ∧ unwind above = unwind stack

def Faults (p : Program) (s : State σ ε) (fault : RunFault) (w : World σ ε) : Prop :=
  ∃ n u v, SafeRuns p n s u ∧ Safe p u ∧ step p u = .faulted fault v ∧ v.world = w

def Leads (p : Program) (s : State σ ε) (fuel exit : Nat) (stack : List Cell) : Option (Outcome σ ε) → Prop
  | some (.done w) => ∃ n, SafeRuns p n s (w.state exit stack)
  | some (.failed w) => Fails p s stack w
  | some (.faulted fault w) => Faults p s fault w
  | none => ∃ n u, fuel ≤ n ∧ SafeRuns p n s u

variable {p : Program} {s u : State σ ε} {w : World σ ε} {fuel a n exit mid : Nat} {stack above : List Cell}
  {i : Instruction} {o : Option (Outcome σ ε)}

omit [Sink σ] [Evaluator ε] in
theorem safe_state (hi : p.code[a]? = some i) (fits : Fits p stack i) : Safe p (w.state a stack) := ⟨i, hi, fits⟩

omit [Sink σ] [Evaluator ε] in
theorem andThen_done (o : Option (Outcome σ ε)) : Meaning.andThen o (fun w => some (.done w)) = o := by
  match o with
  | none => rfl
  | some (.done _) => rfl
  | some (.failed _) => rfl
  | some (.faulted _ _) => rfl

theorem Leads.after (h : SafeRuns p n s u) (h' : Leads p u fuel exit stack o) : Leads p s (n + fuel) exit stack o := by
  match o with
  | none =>
    obtain ⟨m, v, hm, hv⟩ := h'
    exact ⟨n + m, v, by omega, h.append hv⟩
  | some (.done w) =>
    obtain ⟨m, hm⟩ := h'
    exact ⟨n + m, h.append hm⟩
  | some (.failed w) =>
    obtain ⟨m, v, pc, above, hv, rest⟩ := h'
    exact ⟨n + m, v, pc, above, h.append hv, rest⟩
  | some (.faulted fault w) =>
    obtain ⟨m, v, x, hv, rest⟩ := h'
    exact ⟨n + m, v, x, h.append hv, rest⟩

theorem Leads.weaken {less : Nat} (h : Leads p s fuel exit stack o) (hl : less ≤ fuel) :
    Leads p s less exit stack o := by
  match o with
  | none =>
    obtain ⟨m, v, hm, hv⟩ := h
    exact ⟨m, v, by omega, hv⟩
  | some (.done _) => exact h
  | some (.failed _) => exact h
  | some (.faulted _ _) => exact h

theorem Leads.arrived (w : World σ ε) : Leads p (w.state exit stack) fuel exit stack (some (.done w)) :=
  ⟨0, .zero _⟩

theorem step_state (hi : p.code[a]? = some i) : step p (w.state a stack) = execute p a (w.state (a + 1) stack) i := by
  simp only [step, World.state, hi]

theorem Leads.instruction (hi : p.code[a]? = some i) (fits : Fits p above i)
    (first : execute p a (w.state (a + 1) above) i = .running u) (rest : Leads p u fuel exit stack o) :
    Leads p (w.state a above) (fuel + 1) exit stack o := by
  have one : SafeRuns p 1 (w.state a above) u :=
    .succ (safe_state hi fits) (by rw [step_state hi, first]) (.zero u)
  rw [Nat.add_comm]
  exact rest.after one

theorem Leads.pass (hi : p.code[a]? = some i) (fits : Fits p above i)
    (first : execute p a (w.state (a + 1) above) i = .running u) (rest : Leads p u fuel exit stack o) :
    Leads p (w.state a above) fuel exit stack o :=
  (Leads.instruction hi fits first rest).weaken (Nat.le_succ fuel)

theorem Leads.fault {fault : RunFault} {v : State σ ε} (hi : p.code[a]? = some i) (fits : Fits p above i)
    (last : execute p a (w.state (a + 1) above) i = .faulted fault v) :
    Leads p (w.state a above) fuel exit stack (some (.faulted fault v.world)) :=
  ⟨0, _, v, .zero _, safe_state hi fits, by rw [step_state hi, last], rfl⟩

theorem Leads.failure {v : World σ ε} {b : Nat} {left : List Cell} (hi : p.code[a]? = some i) (fits : Fits p above i)
    (last : execute p a (w.state (a + 1) above) i = rescue (v.state b left)) (hu : unwind left = unwind stack) :
    Leads p (w.state a above) fuel exit stack (some (.failed v)) :=
  ⟨0, _, b, left, .zero _, safe_state hi fits, by rw [step_state hi, last], hu⟩

/-- One piece of code after another, the first with cells of its own on the stack. -/
theorem Leads.andThen {next : World σ ε → Option (Outcome σ ε)} (h : Leads p s fuel mid above o)
    (hu : unwind above = unwind stack) (rest : ∀ w, Leads p (w.state mid above) fuel exit stack (next w)) :
    Leads p s fuel exit stack (Meaning.andThen o next) := by
  match o with
  | none => exact h
  | some (.done w) =>
    obtain ⟨n, hn⟩ := h
    exact ((rest w).after hn).weaken (Nat.le_add_left fuel n)
  | some (.failed w) =>
    obtain ⟨n, u, pc, left, hn, safe, last, hl⟩ := h
    exact ⟨n, u, pc, left, hn, safe, last, hl.trans hu⟩
  | some (.faulted fault w) => exact h

/-- A failure is undone at the rescue point on top of the stack. -/
theorem Leads.undone {now earlier : World σ ε} {resume : Nat}
    (h : Fails p s (.rescue ⟨resume, Sink.position earlier.sink, earlier.bindings⟩ :: above) now) :
    Leads p s fuel resume above (some (now.putBack earlier)) := by
  obtain ⟨n, u, pc, left, hn, safe, last, hl⟩ := h
  have found : unwind left = some (⟨resume, Sink.position earlier.sink, earlier.bindings⟩, above) := hl
  simp only [rescue, World.state, found] at last
  unfold World.putBack
  rcases hr : Sink.restore now.sink (Sink.position earlier.sink) with ⟨result, sink⟩
  rw [hr] at last
  match result with
  | .ok () => exact ⟨n + 1, hn.append (.succ safe last (.zero _))⟩
  | .error fault => exact ⟨n, u, _, hn, safe, last, rfl⟩

theorem Leads.call {target leave : Nat} (hcall : p.code[a]? = some (.call target)) (hret : p.code[leave]? = some .ret)
    (body : Leads p (w.state target (.address (a + 1) :: stack)) fuel leave (.address (a + 1) :: stack) o) :
    Leads p (w.state a stack) (fuel + 1) (a + 1) stack o := by
  refine .instruction hcall trivial rfl ?_
  rw [← andThen_done o]
  refine body.andThen rfl fun w' => ?_
  exact .pass hret ⟨_, _, rfl⟩ rfl (.arrived w')

theorem Leads.write {cell : Cell} {text : String} (hi : p.code[a]? = some .write) (ht : cellText cell = some text) :
    Leads p (w.state a (cell :: stack)) fuel (a + 1) stack (some (w.write text)) := by
  have fits : Fits p (cell :: stack) .write := ⟨cell, stack, text, rfl, ht⟩
  unfold World.write
  rcases hw : Sink.write w.sink (Utf8.ofString text) with ⟨result, sink⟩
  match result with
  | .ok taken =>
    refine .pass hi fits ?_ (.arrived _)
    simp only [execute, popping, World.state, Machine.write, ht, hw]
  | .error fault =>
    refine .fault hi fits (v := World.state { w with sink := sink } (a + 1) stack) ?_
    simp only [execute, popping, World.state, Machine.write, ht, hw]

theorem Leads.pushLiteral {index : Nat} {text : String} (hi : p.code[a]? = some (.pushLiteral index))
    (hc : p.literals[index]? = some text)
    (rest : Leads p (w.state (a + 1) (.literal text :: above)) fuel exit stack o) :
    Leads p (w.state a above) fuel exit stack o := by
  have fits : Fits p above (.pushLiteral index) := (Array.getElem?_eq_some_iff.1 hc).1
  refine .pass hi fits ?_ rest
  simp only [execute, hc]
  rfl

theorem Leads.evaluate {index : Nat} {code : String} {next : Value → World σ ε → Outcome σ ε}
    (hi : p.code[a]? = some (.eval index)) (hc : p.scripts[index]? = some code)
    (rest : ∀ v w, Leads p (w.state (a + 1) (.value v :: stack)) fuel exit stack (some (next v w))) :
    Leads p (w.state a stack) fuel exit stack (some (w.evaluate code next)) := by
  have fits : Fits p stack (.eval index) := (Array.getElem?_eq_some_iff.1 hc).1
  unfold World.evaluate
  rcases he : Evaluator.evaluate w.evaluator code w.bindings with ⟨result, bindings, evaluator⟩
  match result with
  | .ok v =>
    refine .pass hi fits ?_ (rest v _)
    simp only [execute, hc, Machine.evaluate, World.state, he]
  | .error fault =>
    refine .fault hi fits (v := World.state { w with bindings := bindings, evaluator := evaluator } (a + 1) stack) ?_
    simp only [execute, hc, Machine.evaluate, World.state, he]

end Machine
end TextGrammar
