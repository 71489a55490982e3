import TextGrammar.Proofs.RelatedAttempts
import TextGrammar.Proofs.SinkSnapshots
set_option autoImplicit false

namespace TextGrammar
open Machine TransactionalSink

/-- A sink that can go back and takes every text. -/
class SteadySink (σ : Type) [Sink σ] extends TransactionalSink σ where
  write_ok (s : σ) (text : String) : ∃ n s', Sink.write s (Utf8.ofString text) = (.ok n, s')

instance : SteadySink Bytes where
  write_ok s text := ⟨_, s ++ Utf8.ofString text, rfl⟩

instance : SteadySink TextSink where
  write_ok s text := by
    refine ⟨(Utf8.ofString text).length, ⟨s.chars ++ text.toList⟩, ?_⟩
    change (match Utf8.decode (Utf8.encode text.toList) with
      | .ok cs => (Except.ok _, (⟨s.chars ++ cs⟩ : TextSink))
      | .error fault => (.error (OutputFault.notUtf8 fault), s)) = _
    rw [Utf8.decode_encode]

instance {ω : Type} [Writer ω] : SteadySink (Buffered ω) where
  write_ok s text := ⟨_, s.write (Utf8.ofString text), rfl⟩

variable {σ τ ε : Type} [Sink σ] [Sink τ]

def SameAppended [TransactionalSink σ] [TransactionalSink τ] (first : σ) (first' : τ) (now : σ) (now' : τ) : Prop :=
  ∃ text, content now = content first ++ Utf8.ofString text ∧ content now' = content first' ++ Utf8.ofString text

def AsFar (first : σ) (first' : τ) (a b : Nat) : Prop :=
  ∃ n, a = Sink.position first + n ∧ b = Sink.position first' + n

namespace SameAppended

variable [TransactionalSink σ] [TransactionalSink τ] {u cut now : σ} {v cut' now' : τ} {a b : Nat}

theorem refl (u : σ) (v : τ) : SameAppended u v u v := ⟨"", (List.append_nil _).symm, (List.append_nil _).symm⟩

theorem position (h : SameAppended u v now now') : AsFar u v (Sink.position now) (Sink.position now') := by
  obtain ⟨text, hu, hv⟩ := h
  refine ⟨(Utf8.ofString text).length, ?_, ?_⟩
  · rw [position_eq, position_eq, hu, List.length_append]
  · rw [position_eq, position_eq, hv, List.length_append]

/-- Cut at positions as far past the start, sinks with the same text appended still have the same text appended. -/
theorem take (h : SameAppended u v now now') (far : AsFar u v a b) (hc : content cut = (content now).take a)
    (hc' : content cut' = (content now').take b) (text : Extends u cut) : SameAppended u v cut cut' := by
  obtain ⟨whole, hw, hw'⟩ := h
  obtain ⟨n, rfl, rfl⟩ := far
  obtain ⟨text, ht⟩ := text
  rw [hw, position_eq, List.take_length_add_append] at hc
  rw [hw', position_eq, List.take_length_add_append] at hc'
  refine ⟨text, ht, ?_⟩
  rw [hc']
  exact congrArg _ (List.append_cancel_left (hc.symm.trans ht))

theorem drop (h : SameAppended u v now now') (far : AsFar u v a b) : (content now).drop a = (content now').drop b := by
  obtain ⟨whole, hw, hw'⟩ := h
  obtain ⟨n, rfl, rfl⟩ := far
  rw [hw, hw', position_eq, position_eq, List.drop_length_add_append, List.drop_length_add_append]

end SameAppended

namespace Machine

variable {p : Program}

def appending [TransactionalSink σ] [TransactionalSink τ] (u : σ) (v : τ) : Ties σ τ ε ε :=
  .ofSinks (SameAppended u v) (AsFar u v) id

section
variable [TransactionalSink σ] [TransactionalSink τ] {u now : σ} {v now' : τ}

theorem agree_start (h : SameAppended u v now now') : (appending (ε := ε) u v).Agree
    (Sink.restore now (Sink.position u)) (Sink.restore now' (Sink.position v)) := by
  obtain ⟨text, hu, hv⟩ := h
  obtain ⟨back, hr, hc⟩ := restore_eq hu
  obtain ⟨back', hr', hc'⟩ := restore_eq hv
  rw [hr, hr']
  exact .done ⟨"", hc.trans (List.append_nil _).symm, hc'.trans (List.append_nil _).symm⟩

end

variable [Evaluator ε] {first s : State σ ε} {first' t : State τ ε} {cells : List Cell} {cell : Cell} {position : Nat}

section
variable [TransactionalSink σ]

/-- Nothing of the output from before a run is ever lost. -/
theorem History.since (h : History p first cells s) : Extends first.sink s.sink := by
  rw [← List.append_nil cells] at h
  cases h.drop with
  | bottom kept => exact kept

theorem History.goesBack (h : History p first s.stack s) (hc : cell ∈ s.stack)
    (held : cell.position? = some position) :
    ∃ sink, Sink.restore s.sink position = (.ok (), sink) ∧ content sink = (content s.sink).take position ∧
      Extends first.sink sink := by
  obtain ⟨above, below, hs⟩ := List.append_of_mem hc
  obtain ⟨sink, hr, cut⟩ := h.restores hc held
  rw [hs] at h
  obtain ⟨m, -, rest, -, kept, rfl⟩ := h.drop.pushed held
  refine ⟨sink, hr, cut, rest.since.trans (.of_eq ?_)⟩
  rw [cut, kept.content_eq]

theorem History.readsBack_drop {start : Nat} (h : History p first s.stack s) (hc : .offset start ∈ s.stack) :
    Sink.writtenSince s.sink start = some ((content s.sink).drop start) := by
  obtain ⟨text, read, split⟩ := h.readsBack hc
  rw [read]
  exact congrArg some (List.append_cancel_left (split.symm.trans (List.take_append_drop _ _).symm))

variable [TransactionalSink τ]

/-- Going back and reading back leads two runs to the same text. -/
theorem returns_appending (h : History p first s.stack s) (h' : History p first' t.stack t)
    (same : SameAppended first.sink first'.sink s.sink t.sink) :
    Returns (appending first.sink first'.sink) s t where
  position := same.position
  restore c hc d hd a b ha hb far := by
    obtain ⟨sink, hr, cut, text⟩ := h.goesBack hc ha
    obtain ⟨sink', hr', cut', -⟩ := h'.goesBack hd hb
    rw [hr, hr']
    exact .done (same.take far cut cut' text)
  readBack a b ha hb far := by
    rw [h.readsBack_drop ha, h'.readsBack_drop hb, same.drop far]

end

variable [SteadySink σ] [SteadySink τ]

omit [Evaluator ε] in
theorem agree_write {u now : σ} {v now' : τ} (h : SameAppended u v now now') (text : String) :
    (appending (ε := ε) u v).Agree (Sink.write now (Utf8.ofString text)) (Sink.write now' (Utf8.ofString text)) := by
  obtain ⟨before, hu, hv⟩ := h
  obtain ⟨n, w, hw⟩ := SteadySink.write_ok now text
  obtain ⟨m, w', hw'⟩ := SteadySink.write_ok now' text
  rw [hw, hw']
  refine .done ⟨before ++ text, ?_, ?_⟩
  · rw [content_write hw, hu, Utf8.ofString_append, List.append_assoc]
  · rw [content_write hw', hv, Utf8.ofString_append, List.append_assoc]

/-- Two runs from the same place do the same, and leave their sinks with the same text appended. -/
theorem together_appending (p : Program) (start : Option Nat) (u : σ) (v : τ) (evaluator : ε) (entropy : Entropy)
    (n : Nat) :
    Together (appending u v) p n (initial p start u evaluator entropy) (initial p start v evaluator entropy) := by
  refine together (initial_related p start (.refl u v) rfl rfl) fun m _ s t hs ht related => ?_
  refine .of_sinks related (fun text _ => agree_write related.sink text) fun _ _ _ => ?_
  have returns := returns_appending (history_of_reachable ⟨m, hs⟩) (history_of_reachable ⟨m, ht⟩)
  rw [initial_sink, initial_sink] at returns
  exact returns related.sink

theorem extends_of_run {start : Option Nat} {u : σ} {evaluator : ε} {entropy : Entropy} {n : Nat} {x : Ending σ ε}
    (h : run p n (initial p start u evaluator entropy) = some x) : Extends u x.state.sink := by
  have ends := (together_appending p start u u evaluator entropy n).ends
  rw [h] at ends
  cases ends with
  | some related =>
    obtain ⟨text, appended, -⟩ := related.state.sink
    exact ⟨text, appended⟩

end Machine

namespace Generator

variable [Evaluator ε] [SteadySink σ] [SteadySink τ]

theorem generate_appending (g : Generator ε) (steps : Nat) (u : σ) (v : τ) (entropy : Entropy) :
    Option.Rel (Attempt.Related (appending u v)) (g.generate steps u entropy) (g.generate steps v entropy) :=
  generate_related (together_appending g.program g.start u v g.evaluator entropy steps) fun _ _ _ _ related _ =>
    agree_start related.state.sink

theorem calls_appending (g : Generator ε) (steps : Nat) (u : σ) (v : τ) (entropy : Entropy) :
    g.calls steps u entropy = g.calls steps v entropy :=
  (together_appending g.program g.start u v g.evaluator entropy steps).calls

/-- A grammar that fails leaves a sink as it was. -/
theorem generate_undone (g : Generator ε) {steps : Nat} {u : σ} {entropy : Entropy} {a : Attempt Bool σ ε}
    (h : g.generate steps u entropy = some a) (failed : a.result = .ok false) : content a.sink = content u := by
  obtain ⟨x, hx, attempted⟩ := exists_attempted h
  obtain ⟨text, appended⟩ := extends_of_run hx
  obtain ⟨back, hr, hc⟩ := restore_eq appended
  cases attempted with
  | kept other => exact absurd failed other
  | undone _ restored =>
    rw [hr] at restored
    cases restored
    exact hc
  | unrestored _ _ => cases failed

end Generator

variable [Evaluator ε]

/-- What a sink already holds neither changes an attempt nor is changed by it. The result, the evaluator, the entropy
and the blocks that are evaluated are those of an attempt on an empty sink; what that one leaves is appended, and
nothing is if the grammar fails. -/
theorem generate_appends [SteadySink σ] (g : Generator ε) (sink empty : σ) (h : content empty = []) (steps : Nat)
    (entropy : Entropy) :
    Option.Rel (fun a b : Attempt Bool σ ε => b.result = a.result ∧ b.evaluator = a.evaluator ∧ b.entropy = a.entropy ∧
        content b.sink = content sink ++ content a.sink ∧ (b.result = .ok false → content b.sink = content sink))
      (g.generate steps empty entropy) (g.generate steps sink entropy) ∧
    g.calls steps sink entropy = g.calls steps empty entropy := by
  refine ⟨?_, g.calls_appending steps sink empty entropy⟩
  have same := g.generate_appending steps empty sink entropy
  have undone : ∀ b, g.generate steps sink entropy = some b → b.result = .ok false → content b.sink = content sink :=
    fun _ => g.generate_undone
  generalize g.generate steps empty entropy = x at same ⊢
  generalize g.generate steps sink entropy = y at same undone ⊢
  cases same with
  | none => exact .none
  | some both =>
    obtain ⟨text, written, appended⟩ := both.sink
    rw [h, List.nil_append] at written
    refine .some ⟨(both.result fun _ _ told => told).symm, both.evaluator.symm, both.entropy.symm, ?_, undone _ rfl⟩
    rw [appended, written]

/-- An attempt that goes back once, on bytes that are no text. -/
theorem generate_appends_undone : ∃ p a b,
    Program.compile "'a' \x7bcapture x\x7d ('b' \x7b?nil\x7d)? \x7b=x\x7d" = .ok p ∧
    content ([] : Bytes) = [] ∧ (Generator.new p Script.Engine.empty).generate 40 ([] : Bytes) [1] = some a ∧
    (Generator.new p Script.Engine.empty).generate 40 ([255] : Bytes) [1] = some b ∧
    b.result = .ok true ∧ b.sink = [255, 97, 97] := by
  obtain ⟨p, s, hp, hrun, hs⟩ := @Program.exists_run Bytes Script.Engine _ _
    "'a' \x7bcapture x\x7d ('b' \x7b?nil\x7d)? \x7b=x\x7d" 40 [] [97, 97] .empty [1] true (by decide +kernel)
  have ends : (Generator.new p Script.Engine.empty).generate 40 ([] : Bytes) [1] =
      some ⟨.ok true, s.sink, s.evaluator, s.entropy⟩ := by
    simp only [Generator.generate, Generator.new, hrun]
  obtain ⟨same, -⟩ := generate_appends (Generator.new p Script.Engine.empty) ([255] : Bytes) [] rfl 40 [1]
  rw [ends] at same
  generalize hb : (Generator.new p Script.Engine.empty).generate 40 ([255] : Bytes) [1] = b at same
  obtain ⟨result, -, -, appended, -⟩ := same
  exact ⟨p, _, _, hp, rfl, ends, hb, result, by rw [← hs]; exact appended⟩

end TextGrammar
