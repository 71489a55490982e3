import TextGrammar.Output.Limited
import TextGrammar.Proofs.AppendedOutput
import TextGrammar.Proofs.SinkReplacement
set_option autoImplicit false

namespace TextGrammar
open Machine TransactionalSink

/-- A fault that does not tell how far the limit is. -/
def RunFault.unnumbered : RunFault → RunFault
  | .sink (.limitReached _) => .sink (.limitReached 0)
  | fault => fault

deriving instance DecidableEq for Limited

variable {σ ε : Type} [Sink σ]

namespace Limited

theorem write_of_gt {s : Limited σ} {bytes : Bytes} (h : s.limit < Sink.position s.inner + bytes.length) :
    Sink.write s bytes = (.error (.limitReached s.limit), s) := if_pos h

theorem write_of_not_gt {s : Limited σ} {bytes : Bytes} (h : ¬ s.limit < Sink.position s.inner + bytes.length) :
    Sink.write s bytes = ((Sink.write s.inner bytes).1, ⟨(Sink.write s.inner bytes).2, s.limit⟩) := if_neg h

def within (limit : Nat) (u : σ) : Limited σ := ⟨u, limit⟩

theorem replaces_within (limit : Nat) : Replaces (within (σ := σ) limit) :=
  ⟨fun _ => rfl, fun _ _ => rfl, fun _ _ => rfl⟩

def smaller (u : Limited (Limited σ)) : Limited σ := ⟨u.inner.inner, min u.inner.limit u.limit⟩

theorem replaces_smaller : Replaces (smaller (σ := σ)) := ⟨fun _ => rfl, fun _ _ => rfl, fun _ _ => rfl⟩

theorem write_smaller (u : Limited (Limited σ)) (bytes : Bytes) :
    (along (ε := ε) smaller RunFault.unnumbered).Agree (Sink.write u bytes) (Sink.write (smaller u) bytes) := by
  obtain ⟨⟨sink, small⟩, outer⟩ := u
  by_cases past : min small outer < Sink.position sink + bytes.length
  · have refused : Sink.write (⟨sink, min small outer⟩ : Limited σ) bytes = _ := write_of_gt past
    rw [smaller, refused]
    by_cases first : outer < Sink.position sink + bytes.length
    · rw [write_of_gt first]
      exact .refused rfl rfl
    · have second : small < Sink.position sink + bytes.length := by omega
      rw [write_of_not_gt first, write_of_gt second]
      exact .refused rfl rfl
  · have first : ¬ outer < Sink.position sink + bytes.length := by omega
    have second : ¬ small < Sink.position sink + bytes.length := by omega
    have taken : Sink.write (⟨sink, min small outer⟩ : Limited σ) bytes = _ := write_of_not_gt past
    rw [smaller, taken, write_of_not_gt first, write_of_not_gt second]
    rcases Sink.write sink bytes with ⟨_ | _, u⟩
    · exact .refused rfl rfl
    · exact .done rfl

end Limited

namespace Machine

variable {p : Program} {limit n m : Nat} {s u : State σ ε}

def Exceeds (limit : Nat) (p : Program) (s : State σ ε) : Prop :=
  ∃ text, written? p s = some text ∧ limit < Sink.position s.sink + (Utf8.ofString text).length

variable [Evaluator ε]

/-- No write that a run has come to within a number of steps goes past a limit. -/
def Within (limit : Nat) (p : Program) (n : Nat) (s : State σ ε) : Prop :=
  ∀ m < n, ∀ u, Runs p m s u → ¬ Exceeds limit p u

theorem together_within (fits : Within limit p n s) :
    Together (along (Limited.within limit) id) p n s (s.mapSink (Limited.within limit)) := by
  refine together (.of_stack_eq (fun _ => rfl) rfl rfl rfl) fun m hm u v hu _ related => ?_
  refine (Limited.replaces_within limit).answers related fun text ht => ?_
  have below : ¬ limit < Sink.position u.sink + (Utf8.ofString text).length := fun past =>
    fits m hm u hu ⟨text, ht, past⟩
  have taken : Sink.write (Limited.within limit u.sink) (Utf8.ofString text) = _ := Limited.write_of_not_gt below
  rw [taken]
  exact agree_along (f := Limited.within limit) _

theorem step_exceeds (h : Exceeds limit p s) : step p (s.mapSink (Limited.within limit)) =
    .faulted (.sink (.limitReached limit))
      (State.mapSink (Limited.within limit) { s with pc := s.pc + 1, stack := s.stack.tail }) := by
  obtain ⟨text, ht, past⟩ := h
  unfold written? at ht
  split at ht
  · rename_i cell rest hi hs
    have refused : Sink.write (Limited.within limit s.sink) (Utf8.ofString text) = _ := Limited.write_of_gt past
    simp only [step, State.mapSink, hi, execute, popping, hs, write, ht, refused, List.tail_cons]
    rfl
  · cases ht

/-- Where a run comes to write past a limit there is a first such write. -/
theorem first_excess (h : ¬ Within limit p n s) :
    ∃ m < n, ∃ u, Runs p m s u ∧ Within limit p m s ∧ Exceeds limit p u := by
  induction n with
  | zero =>
    refine absurd ?_ h
    intro m hm
    omega
  | succ n ih =>
    by_cases before : Within limit p n s
    · unfold Within at h
      push Not at h
      obtain ⟨m, hm, u, hu, past⟩ := h
      have last : m = n := by
        by_contra other
        exact before m (by omega) u hu past
      subst last
      exact ⟨m, hm, u, hu, before, past⟩
    · obtain ⟨m, hm, rest⟩ := ih before
      exact ⟨m, by omega, rest⟩

theorem runs_within (fits : Within limit p m s) (hu : Runs p m s u) :
    Runs p m (s.mapSink (Limited.within limit)) (u.mapSink (Limited.within limit)) := by
  obtain ⟨v, hv, cells, rfl, rfl, rfl⟩ := (together_within fits).onward u hu
  rwa [← eq_of_like (fun _ _ same => same) cells] at hv

/-- A limited run ends at the first write past the limit, with what there is then. -/
theorem run_exceeds (hm : m < n) (hu : Runs p m s u) (fits : Within limit p m s) (past : Exceeds limit p u) :
    run p n (s.mapSink (Limited.within limit)) = some ⟨.error (.sink (.limitReached limit)),
      State.mapSink (Limited.within limit) { u with pc := u.pc + 1, stack := u.stack.tail }⟩ := by
  obtain ⟨k, rfl⟩ : ∃ k, n = m + (k + 1) := ⟨n - m - 1, by omega⟩
  rw [run_of_runs (runs_within fits hu)]
  apply run_of_ending
  rw [step_exceeds past]
  rfl

omit [Sink σ] [Evaluator ε] in
theorem call?_of_written {text : String} (h : written? p s = some text) : call? p s = none := by
  unfold written? at h
  split at h
  · rename_i hi _
    simp only [call?, hi]
  · cases h

theorem calls_exceeds (hm : m < n) (hu : Runs p m s u) (fits : Within limit p m s) (past : Exceeds limit p u) :
    calls p n (s.mapSink (Limited.within limit)) = calls p m s := by
  obtain ⟨k, rfl⟩ : ∃ k, n = m + (k + 1) := ⟨n - m - 1, by omega⟩
  have none_last : call? p (u.mapSink (Limited.within limit)) = none := by
    obtain ⟨text, ht, -⟩ := past
    exact call?_of_written (s := u.mapSink (Limited.within limit)) ht
  rw [calls_of_runs (runs_within fits hu), ← (together_within fits).calls, calls, none_last, step_exceeds past]
  exact List.append_nil _

theorem together_smaller {s : State (Limited (Limited σ)) ε} {t : State (Limited σ) ε}
    (h : s.Related (along Limited.smaller RunFault.unnumbered) t) :
    Together (along Limited.smaller RunFault.unnumbered) p n s t :=
  together h fun _ _ _ _ _ _ related =>
    Limited.replaces_smaller.answers related fun _ _ => Limited.write_smaller _ _

end Machine

section
variable [SteadySink σ] [Evaluator ε] {sink : σ} {limit : Nat} {entropy : Entropy}

structure Filled (sink : σ) (limit : Nat) (s : Limited σ) : Prop where
  held : s.limit = limit
  since : Extends (Limited.within limit sink) s
  below : Sink.position s ≤ limit

theorem Filled.write {s : Limited σ} (h : Filled sink limit s) (text : String) :
    Filled sink limit (Sink.write s (Utf8.ofString text)).2 := by
  by_cases past : s.limit < Sink.position s.inner + (Utf8.ofString text).length
  · rw [Limited.write_of_gt past]
    exact h
  · obtain ⟨n, inner, hw⟩ := SteadySink.write_ok s.inner text
    have written := content_write hw
    rw [Limited.write_of_not_gt past, hw]
    refine ⟨h.held, h.since.trans ⟨text, written⟩, ?_⟩
    change Sink.position inner ≤ limit
    rw [position_eq, written, List.length_append, ← position_eq, ← h.held]
    omega

/-- No step of a run on a limited sink leads past the limit. -/
theorem filled_run (p : Program) (start : Option Nat) (evaluator : ε) (entropy : Entropy)
    (below : Sink.position sink ≤ limit) :
    (∀ s, Reachable p (initial p start (Limited.within limit sink) evaluator entropy) s → Filled sink limit s.sink) ∧
    ∀ n x, run p n (initial p start (Limited.within limit sink) evaluator entropy) = some x →
      Filled sink limit x.state.sink := by
  apply keeps_sink
  · rw [initial_sink]
    exact ⟨rfl, .refl _, below⟩
  · intro u text h
    exact h.write text
  · intro u hu h cell hc position held
    obtain ⟨back, hr, cut, since⟩ := (history_of_reachable hu).goesBack hc held
    have same : (Sink.restore u.sink position).2.limit = u.sink.limit := rfl
    rw [hr] at same ⊢
    rw [initial_sink] at since
    refine ⟨same.trans h.held, since, ?_⟩
    rw [position_eq, cut, List.length_take, ← position_eq]
    exact Nat.le_trans (Nat.min_le_right _ _) h.below

theorem Generator.limited_below {g : Generator ε} {steps : Nat} {a : Attempt Bool (Limited σ) ε}
    (below : Sink.position sink ≤ limit) (h : g.generate steps (Limited.within limit sink) entropy = some a) :
    Sink.position a.sink ≤ limit := by
  obtain ⟨x, hx, attempted⟩ := exists_attempted h
  have filled := (filled_run g.program g.start g.evaluator entropy below).2 steps x hx
  obtain ⟨text, ht⟩ := filled.since
  obtain ⟨back, hr, hc⟩ := restore_eq ht
  cases attempted with
  | kept _ => exact filled.below
  | undone _ restored =>
    obtain ⟨-, rfl⟩ := Prod.mk.inj (hr.symm.trans restored)
    change Sink.position back ≤ limit
    rw [position_eq, hc, ← position_eq]
    exact below
  | unrestored _ refused => cases hr.symm.trans refused

end

namespace Generator

variable [Evaluator ε] {g : Generator ε} {limit steps : Nat} {sink : σ} {entropy : Entropy}

/-- Below its limit, a limited sink is the sink inside it. -/
theorem limited_fits (fits : Within limit g.program steps (initial g.program g.start sink g.evaluator entropy)) :
    g.generate steps (Limited.within limit sink) entropy =
      (g.generate steps sink entropy).map (Attempt.mapSink (Limited.within limit)) ∧
    g.calls steps (Limited.within limit sink) entropy = g.calls steps sink entropy := by
  have runs := together_within fits
  rw [initial_mapSink] at runs
  exact ⟨Attempt.eq_of_telling_id ((Limited.replaces_within limit).generate_eq runs), runs.calls.symm⟩

/-- Past its limit, a limited sink is the sink inside it up to the first write that goes past the limit. -/
theorem limited_exceeds (past : ¬ Within limit g.program steps (initial g.program g.start sink g.evaluator entropy)) :
    ∃ m < steps, ∃ s, Runs g.program m (initial g.program g.start sink g.evaluator entropy) s ∧
      Within limit g.program m (initial g.program g.start sink g.evaluator entropy) ∧ Exceeds limit g.program s ∧
      g.generate steps (Limited.within limit sink) entropy =
        some ⟨.error (.sink (.limitReached limit)), Limited.within limit s.sink, s.evaluator, s.entropy⟩ ∧
      g.calls steps (Limited.within limit sink) entropy = g.calls m sink entropy := by
  obtain ⟨m, hm, s, hs, fits, exceeds⟩ := first_excess past
  refine ⟨m, hm, s, hs, fits, exceeds, ?_, ?_⟩
  · have ends := run_exceeds hm hs fits exceeds
    rw [initial_mapSink] at ends
    rw [generate_eq, ends]
    rfl
  · have same := calls_exceeds hm hs fits exceeds
    rw [initial_mapSink] at same
    exact same

/-- Two limits are one, the smaller. -/
theorem limited_twice (g : Generator ε) (steps limit outer : Nat) (sink : σ) (entropy : Entropy) :
    (g.generate steps (Limited.within (min limit outer) sink) entropy).map (Attempt.telling RunFault.unnumbered) =
      (g.generate steps (Limited.within outer (Limited.within limit sink)) entropy).map
        (fun a => (a.mapSink Limited.smaller).telling RunFault.unnumbered) ∧
    g.calls steps (Limited.within (min limit outer) sink) entropy =
      g.calls steps (Limited.within outer (Limited.within limit sink)) entropy := by
  have runs : Together (along Limited.smaller RunFault.unnumbered) g.program steps
      (initial g.program g.start (Limited.within outer (Limited.within limit sink)) g.evaluator entropy)
      (initial g.program g.start (Limited.within (min limit outer) sink) g.evaluator entropy) := by
    exact together_smaller (initial_related _ _ rfl rfl rfl)
  exact ⟨Limited.replaces_smaller.generate_eq runs, runs.calls.symm⟩

end Generator

/-- A limited sink is the sink inside it up to the first write that would go past the limit. No step of the run leads past
the limit. If no write of the run without a limit goes past it, the limited run is that run; otherwise it ends at the first
such write, with what the sink holds there. Two limits are one, the smaller, apart from the number they give. -/
theorem generate_limited [SteadySink σ] [Evaluator ε] (g : Generator ε) {sink : σ} {limit : Nat} (entropy : Entropy)
    (below : Sink.position sink ≤ limit) :
    (∀ s, Reachable g.program (initial g.program g.start (Limited.within limit sink) g.evaluator entropy) s →
      Sink.position s.sink ≤ limit) ∧
    (∀ steps a, g.generate steps (Limited.within limit sink) entropy = some a → Sink.position a.sink ≤ limit) ∧
    (∀ steps, Within limit g.program steps (initial g.program g.start sink g.evaluator entropy) →
      g.generate steps (Limited.within limit sink) entropy =
        (g.generate steps sink entropy).map (Attempt.mapSink (Limited.within limit)) ∧
      g.calls steps (Limited.within limit sink) entropy = g.calls steps sink entropy) ∧
    (∀ steps, ¬ Within limit g.program steps (initial g.program g.start sink g.evaluator entropy) →
      ∃ m < steps, ∃ s, Runs g.program m (initial g.program g.start sink g.evaluator entropy) s ∧
        Within limit g.program m (initial g.program g.start sink g.evaluator entropy) ∧ Exceeds limit g.program s ∧
        g.generate steps (Limited.within limit sink) entropy =
          some ⟨.error (.sink (.limitReached limit)), Limited.within limit s.sink, s.evaluator, s.entropy⟩ ∧
        g.calls steps (Limited.within limit sink) entropy = g.calls m sink entropy) ∧
    ∀ steps outer,
      (g.generate steps (Limited.within (min limit outer) sink) entropy).map (Attempt.telling RunFault.unnumbered) =
        (g.generate steps (Limited.within outer (Limited.within limit sink)) entropy).map
          (fun a => (a.mapSink Limited.smaller).telling RunFault.unnumbered) ∧
      g.calls steps (Limited.within (min limit outer) sink) entropy =
        g.calls steps (Limited.within outer (Limited.within limit sink)) entropy := by
  refine ⟨?_, ?_, ?_, ?_, ?_⟩
  · intro s hs
    exact ((filled_run g.program g.start g.evaluator entropy below).1 s hs).below
  · intro steps a ha
    exact Generator.limited_below below ha
  · intro steps fits
    exact Generator.limited_fits fits
  · intro steps past
    exact Generator.limited_exceeds past
  · intro steps outer
    exact g.limited_twice steps limit outer sink entropy

/-- An attempt that keeps two bytes of output and has held three. A limit of three bytes is reached, as there was one byte
before. -/
theorem generate_limited_peak : ∃ p a m s, Program.compile "('abc' \x7b?nil\x7d | 'd') 'e'" = .ok p ∧
    Sink.position ([255] : Bytes) ≤ 3 ∧
    (Generator.new p Script.Engine.empty).generate 60 ([255] : Bytes) [0, 0, 0, 0, 1] = some a ∧ a.result = .ok true ∧
    a.sink = [255, 100, 101] ∧ Runs p m (initial p none ([255] : Bytes) Script.Engine.empty [0, 0, 0, 0, 1]) s ∧
    Exceeds 3 p s ∧ Sink.position s.sink ≤ 3 ∧
    (Generator.new p Script.Engine.empty).generate 60 (Limited.within 3 ([255] : Bytes)) [0, 0, 0, 0, 1] =
      some ⟨.error (.sink (.limitReached 3)), Limited.within 3 s.sink, s.evaluator, s.entropy⟩ := by
  obtain ⟨p, a, hp, ha, result, sink, -⟩ := @Program.exists_attempt Bytes Script.Engine _ _
    "('abc' \x7b?nil\x7d | 'd') 'e'" 60 [255] [255, 100, 101] .empty [0, 0, 0, 0, 1] [1] (.ok true) (by decide +kernel)
  obtain ⟨q, b, hq, hb, refused, -, -⟩ := @Program.exists_attempt (Limited Bytes) Script.Engine _ _
    "('abc' \x7b?nil\x7d | 'd') 'e'" 60 (Limited.within 3 [255]) (Limited.within 3 [255]) .empty [0, 0, 0, 0, 1] [1]
    (.error (.sink (.limitReached 3))) (by decide +kernel)
  obtain rfl : p = q := Except.ok.inj (hp.symm.trans hq)
  have below : Sink.position ([255] : Bytes) ≤ 3 := by decide
  obtain ⟨-, held, fits, exceeds, -⟩ :=
    generate_limited (Generator.new p Script.Engine.empty) ([0, 0, 0, 0, 1] : Entropy) below
  have past : ¬ Within 3 p 60 (initial p none ([255] : Bytes) Script.Engine.empty [0, 0, 0, 0, 1]) := by
    intro below
    have same := (fits 60 below).1
    rw [ha, hb] at same
    cases same
    cases result.symm.trans refused
  obtain ⟨m, -, s, hs, -, first, ends, -⟩ := exceeds 60 past
  exact ⟨p, a, m, s, hp, below, ha, result, sink, hs, first, held 60 _ ends, ends⟩

end TextGrammar
