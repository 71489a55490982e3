import TextGrammar.Output.Memory
import TextGrammar.Proofs.Compiled
import TextGrammar.Proofs.RelatedAttempts
import TextGrammar.Script.Engine
set_option autoImplicit false

namespace TextGrammar
namespace Machine

variable {σ ε : Type} [Sink σ] [Evaluator ε] {p : Program} {s t : State σ ε} {x : Ending σ ε} {n : Nat}

def drawing (fed : Entropy → Entropy → Prop) : Ties σ σ ε ε :=
  ⟨(· = ·), (· = ·), (· = ·), fed, (· = ·), fun _ => rfl⟩

theorem drawing_answers {fed : Entropy → Entropy → Prop} (h : s.Related (drawing fed).anyEntropy t)
    (same : s.entropy.take (cost p s) = t.entropy.take (cost p s))
    (left : fed (s.entropy.drop (cost p s)) (t.entropy.drop (cost p s))) : Answers (drawing fed) p s t := by
  obtain ⟨-, rfl, rfl, -⟩ := h
  refine ⟨fun text _ => Ties.agree_self rfl, fun _ _ _ => ?_, fun code b _ => ⟨rfl, rfl, rfl⟩, same, left⟩
  exact .of_sink_eq rfl (fun _ => rfl) (fun _ => rfl) fun _ _ near => near

/-- A step leaves what it does not draw. -/
theorem step_leaves (p : Program) (s : State σ ε) :
    (step p s).Related (drawing fun e _ => e = s.entropy.drop (cost p s)) (step p s) := by
  have itself : s.Related (drawing fun _ _ => True) s := .of_stack_eq (fun _ => rfl) rfl rfl trivial
  exact step_related itself (drawing_answers itself rfl rfl)

/-- What a run leaves has not been drawn by its first step. -/
theorem run_leaves (h : run p n s = some x) : x.state.entropy <:+ s.entropy.drop (cost p s) := by
  induction n generalizing s with
  | zero => cases h
  | succ n ih =>
    have first := step_leaves p s
    rw [run] at h
    generalize step p s = r at first h
    cases first with
    | @running t _ next =>
      have left : t.entropy = s.entropy.drop (cost p s) := next.entropy
      rw [← left]
      exact (ih h).trans (List.drop_suffix _ _)
    | halted _ last =>
      cases h
      exact ⟨[], last.entropy⟩
    | faulted _ last =>
      cases h
      exact ⟨[], last.entropy⟩

/-- Entropies that end in `rest` and in `tail`, and are the same before. -/
def Spare (rest tail e e' : Entropy) : Prop := ∃ ahead, e = ahead ++ rest ∧ e' = ahead ++ tail

/-- Draws that leave some of `rest` cannot tell it from `tail`. -/
theorem Spare.drop {rest tail e e' : Entropy} (h : Spare rest tail e e') (some_left : rest ≠ []) {count : Nat}
    (left : rest <:+ e.drop count) :
    e.take count = e'.take count ∧ Spare rest tail (e.drop count) (e'.drop count) := by
  obtain ⟨ahead, rfl, rfl⟩ := h
  have enough : count ≤ ahead.length := by
    have long := left.length_le
    have pos := List.length_pos_of_ne_nil some_left
    rw [List.length_drop, List.length_append] at long
    omega
  constructor
  · rw [List.take_append_of_le_length enough, List.take_append_of_le_length enough]
  · refine ⟨ahead.drop count, ?_, ?_⟩
    · rw [List.drop_append_of_le_length enough]
    · rw [List.drop_append_of_le_length enough]

/-- A run that leaves `rest` stays together with one that finds `tail` in its place. -/
theorem together_unread {rest tail : Entropy} (h : s.Related (drawing (Spare rest tail)) t) (hx : run p n s = some x)
    (left : x.state.entropy = rest) (some_left : rest ≠ []) : Together (drawing (Spare rest tail)) p n s t := by
  refine together h fun m hm u v hu _ related => ?_
  -- the run goes on from `u` for at least one more step, to the same end
  have later : run p (n - m) u = some x := by
    rw [← hx, ← run_of_runs hu]
    congr 1
    omega
  have undrawn := run_leaves later
  rw [left] at undrawn
  have spare : Spare rest tail u.entropy v.entropy := related.entropy
  obtain ⟨same, after⟩ := spare.drop some_left undrawn
  exact drawing_answers related.anyEntropy same after

end Machine

open Machine

variable {σ ε : Type} [Sink σ] [Evaluator ε]

omit [Sink σ] [Evaluator ε] in
theorem Attempt.eq_of_spare {a b : Attempt Bool σ ε} {tail : Entropy}
    (h : a.Related (drawing (Spare a.entropy tail)) b) : b = { a with entropy := tail } := by
  obtain ⟨ahead, split, same⟩ := h.entropy
  obtain rfl : ahead = [] := List.self_eq_append_left.1 split
  have result : a.result = b.result := h.result fun _ _ blame => blame
  have sink : a.sink = b.sink := h.sink
  have evaluator : a.evaluator = b.evaluator := h.evaluator
  rw [result, sink, evaluator, ← show b.entropy = tail from same]

/-- An attempt that leaves some entropy has read all bytes before it and none of it. With any other bytes in place of
what it leaves, the attempt comes to the same, leaves the same in the sink, evaluates the same blocks in the same bindings,
and leaves just these bytes. -/
theorem generate_unread (g : Generator ε) {steps : Nat} {sink : σ} {entropy : Entropy} {a : Attempt Bool σ ε}
    (h : g.generate steps sink entropy = some a) (left : a.entropy ≠ []) :
    ∃ read, entropy = read ++ a.entropy ∧ ∀ tail,
      g.generate steps sink (read ++ tail) = some { a with entropy := tail } ∧
      g.calls steps sink (read ++ tail) = g.calls steps sink entropy := by
  obtain ⟨p, evaluator, start⟩ := g
  obtain ⟨x, hx, attempted⟩ := Generator.exists_attempted h
  rw [attempted.entropy] at left ⊢
  obtain ⟨read, split⟩ := (run_leaves hx).trans (List.drop_suffix _ _)
  rw [initial_entropy] at split
  refine ⟨read, split.symm, fun tail => ?_⟩
  have runs : Together (drawing (Spare x.state.entropy tail)) p steps (initial p start sink evaluator entropy)
      (initial p start sink evaluator (read ++ tail)) := by
    refine together_unread (initial_related p start rfl rfl ?_) hx rfl left
    exact ⟨read, split.symm, rfl⟩
  have attempts := Generator.generate_related runs fun u v _ _ related _ => by
    rw [show u.state.sink = v.state.sink from related.state.sink]
    exact Ties.agree_self rfl
  rw [h] at attempts
  refine ⟨?_, runs.calls.symm⟩
  generalize Generator.generate ⟨p, evaluator, start⟩ steps sink (read ++ tail) = b at attempts ⊢
  cases attempts with
  | some related =>
    rw [← attempted.entropy] at related
    rw [Attempt.eq_of_spare related]

/-- An attempt that draws again after a failure, and leaves two bytes. -/
theorem generate_unread_undone : ∃ p a read,
    Program.compile "('a' \x7b?nil\x7d | 'b') 1...6" = .ok p ∧
    (Generator.new p Script.Engine.empty).generate 40 ([] : Bytes) [0, 0, 0, 0, 4, 7, 8] = some a ∧ a.result = .ok true ∧
    a.sink = [98, 53] ∧ a.entropy ≠ [] ∧ [0, 0, 0, 0, 4, 7, 8] = read ++ a.entropy ∧
    (Generator.new p Script.Engine.empty).generate 40 ([] : Bytes) (read ++ []) = some { a with entropy := [] } := by
  obtain ⟨p, a, hp, ha, result, sink, left⟩ := @Program.exists_attempt Bytes Script.Engine _ _
    "('a' \x7b?nil\x7d | 'b') 1...6" 40 [] [98, 53] .empty [0, 0, 0, 0, 4, 7, 8] [7, 8] (.ok true) (by decide +kernel)
  have some_left : a.entropy ≠ [] := by simp [left]
  obtain ⟨read, split, same⟩ := generate_unread (Generator.new p Script.Engine.empty) ha some_left
  exact ⟨p, a, read, hp, ha, result, sink, some_left, split, (same []).1⟩

end TextGrammar
