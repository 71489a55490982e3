import TextGrammar.Proofs.RelatedAttempts
set_option autoImplicit false

namespace TextGrammar
open Machine

variable {σ τ ε α : Type} [Sink σ] [Sink τ] [Evaluator ε] {f : σ → τ} {tell : RunFault → RunFault}

def Machine.State.mapSink (f : σ → τ) (s : State σ ε) : State τ ε :=
  ⟨s.pc, s.stack, s.bindings, f s.sink, s.evaluator, s.entropy⟩

def Attempt.mapSink (f : σ → τ) (a : Attempt Bool σ ε) : Attempt Bool τ ε :=
  ⟨a.result, f a.sink, a.evaluator, a.entropy⟩

def Attempt.telling (tell : RunFault → RunFault) (a : Attempt Bool σ ε) : Attempt Bool σ ε :=
  { a with result := a.result.mapError tell }

omit [Sink σ] [Sink τ] [Evaluator ε] in
theorem Attempt.eq_of_telling_id {x : Option (Attempt Bool τ ε)} {y : Option (Attempt Bool σ ε)}
    (h : x.map (telling id) = y.map fun a => (a.mapSink f).telling id) : x = y.map (mapSink f) := by
  have itself : (telling id : Attempt Bool τ ε → Attempt Bool τ ε) = id := by
    funext a
    obtain ⟨_ | _, _, _, _⟩ := a <;> rfl
  simp only [itself, Option.map_id, id] at h
  exact h

def Machine.along (f : σ → τ) (tell : RunFault → RunFault) : Ties σ τ ε ε :=
  .ofSinks (fun u v => v = f u) (· = ·) tell

/-- A sink that takes the place of another one leaves its positions to it. -/
structure Replaces (f : σ → τ) : Prop where
  position (u : σ) : Sink.position (f u) = Sink.position u
  restore (u : σ) (position : Nat) :
    Sink.restore (f u) position = ((Sink.restore u position).1, f (Sink.restore u position).2)
  writtenSince (u : σ) (start : Nat) : Sink.writtenSince (f u) start = Sink.writtenSince u start

omit [Sink σ] [Sink τ] [Evaluator ε] in
theorem Machine.agree_along (a : Answer σ α) : (along (ε := ε) f tell).Agree a (a.1, f a.2) := by
  rcases a with ⟨_ | _, u⟩
  · exact .refused rfl rfl
  · exact .done rfl

omit [Sink σ] [Sink τ] [Evaluator ε] in
theorem Machine.initial_mapSink (p : Program) (start : Option Nat) (sink : σ) (evaluator : ε) (entropy : Entropy) :
    (initial p start sink evaluator entropy).mapSink f = initial p start (f sink) evaluator entropy := by
  cases start <;> rfl

theorem Replaces.answers {p : Program} {s : State σ ε} {t : State τ ε} (h : Replaces f)
    (related : s.Related (along f tell) t)
    (write : ∀ text, written? p s = some text → (along (ε := ε) f tell).Agree (Sink.write s.sink (Utf8.ofString text))
      (Sink.write (f s.sink) (Utf8.ofString text))) : Answers (along f tell) p s t := by
  have out : t.sink = f s.sink := related.sink
  refine .of_sinks related (fun text ht => out ▸ write text ht) fun _ _ _ => ⟨?_, ?_, ?_⟩
  · rw [out]
    exact (h.position _).symm
  · rintro c _ d _ a b _ _ rfl
    rw [out, h.restore]
    exact agree_along _
  · rintro a b _ _ rfl
    rw [out, h.writtenSince]

omit [Sink σ] [Sink τ] [Evaluator ε] in
theorem Attempt.Related.telling_eq {a : Attempt Bool σ ε} {b : Attempt Bool τ ε} (h : a.Related (along f tell) b) :
    b.telling tell = (a.mapSink f).telling tell := by
  cases h with
  | ok succeeded out eval supply =>
    obtain rfl := out
    obtain rfl := eval
    obtain rfl := supply
    rfl
  | error blame out eval supply =>
    obtain rfl := out
    obtain rfl := eval
    obtain rfl := supply
    exact congrArg (fun fault => (⟨.error fault, _, _, _⟩ : Attempt Bool τ ε)) (Eq.symm blame)

/-- Attempts whose runs stay together come to the same as far as it is told, if their sinks go back to where they were
alike. -/
theorem Generator.generate_along {g : Generator ε} {steps : Nat} {sink : σ} {entropy : Entropy}
    (runs : Together (along f tell) g.program steps (initial g.program g.start sink g.evaluator entropy)
      (initial g.program g.start (f sink) g.evaluator entropy))
    (back : ∀ x, run g.program steps (initial g.program g.start sink g.evaluator entropy) = some x →
      (along (ε := ε) f tell).Agree (Sink.restore x.state.sink (Sink.position sink))
        (Sink.restore (f x.state.sink) (Sink.position (f sink)))) :
    (g.generate steps (f sink) entropy).map (Attempt.telling tell) =
      (g.generate steps sink entropy).map fun a => (a.mapSink f).telling tell := by
  have attempts := generate_related runs fun x y hx _ related _ => by
    rw [show y.state.sink = f x.state.sink from related.state.sink]
    exact back x hx
  change Option.Rel _ (g.generate steps sink entropy) (g.generate steps (f sink) entropy) at attempts
  generalize g.generate steps sink entropy = a at attempts ⊢
  generalize g.generate steps (f sink) entropy = b at attempts ⊢
  cases attempts with
  | none => rfl
  | some related => exact congrArg some related.telling_eq

theorem Replaces.generate_eq {g : Generator ε} {steps : Nat} {sink : σ} {entropy : Entropy} (h : Replaces f)
    (runs : Together (along f tell) g.program steps (initial g.program g.start sink g.evaluator entropy)
      (initial g.program g.start (f sink) g.evaluator entropy)) :
    (g.generate steps (f sink) entropy).map (Attempt.telling tell) =
      (g.generate steps sink entropy).map fun a => (a.mapSink f).telling tell := by
  apply Generator.generate_along runs
  intro x _
  rw [h.position, h.restore]
  exact agree_along _

end TextGrammar
