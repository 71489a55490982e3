import TextGrammar.Proofs.AppendedOutput
import TextGrammar.Proofs.SinkReplacement
import TextGrammar.Proofs.WriteOnlyPrograms
set_option autoImplicit false

/-!
# Short writes

A sink may take a leading part of what it is given, and then says how long that was. A run does not look at the number. So
nothing is lost as long as every write is taken whole, and what is cut off is lost without a fault.
-/
namespace TextGrammar
open Machine TransactionalSink

variable {σ ε : Type} [Sink σ] [Evaluator ε]

structure Recounted (σ : Type) where
  inner : σ
  count : σ → Bytes → Nat

namespace Recounted

def write (s : Recounted σ) (bytes : Bytes) : Answer (Recounted σ) Nat :=
  match Sink.write s.inner bytes with
  | (.ok _, inner) => (.ok (s.count s.inner bytes), ⟨inner, s.count⟩)
  | (.error fault, inner) => (.error fault, ⟨inner, s.count⟩)

instance : Sink (Recounted σ) where
  write := write
  position s := Sink.position s.inner
  restore s position := let (result, inner) := Sink.restore s.inner position; (result, ⟨inner, s.count⟩)
  writtenSince s := Sink.writtenSince s.inner
  close s := let (result, inner) := Sink.close s.inner; (result, ⟨inner, s.count⟩)

def reporting (count : σ → Bytes → Nat) (u : σ) : Recounted σ := ⟨u, count⟩

theorem replaces_reporting (count : σ → Bytes → Nat) : Replaces (reporting count) :=
  ⟨fun _ => rfl, fun _ _ => rfl, fun _ _ => rfl⟩

omit [Evaluator ε] in
theorem write_reporting (count : σ → Bytes → Nat) (u : σ) (bytes : Bytes) :
    (along (ε := ε) (reporting count) id).Agree (Sink.write u bytes) (Sink.write (reporting count u) bytes) := by
  change Ties.Agree _ _ (write (reporting count u) bytes)
  unfold write
  rcases hw : Sink.write u bytes with ⟨_ | _, v⟩
  · simp only [reporting, hw]
    exact .refused rfl rfl
  · simp only [reporting, hw]
    exact .done rfl

end Recounted

/-- No run depends on how much of a write a sink says that it took. -/
theorem generate_recounted (g : Generator ε) (steps : Nat) (count : σ → Bytes → Nat) (sink : σ) (entropy : Entropy) :
    g.generate steps (Recounted.reporting count sink) entropy =
      (g.generate steps sink entropy).map (Attempt.mapSink (Recounted.reporting count)) ∧
    g.calls steps (Recounted.reporting count sink) entropy = g.calls steps sink entropy := by
  have runs : Together (along (Recounted.reporting count) id) g.program steps
      (initial g.program g.start sink g.evaluator entropy)
      (initial g.program g.start (Recounted.reporting count sink) g.evaluator entropy) := by
    refine together (initial_related _ _ rfl rfl rfl) fun m _ u v _ _ related => ?_
    exact (Recounted.replaces_reporting count).answers related fun text _ => Recounted.write_reporting count _ _
  exact ⟨Attempt.eq_of_telling_id ((Recounted.replaces_reporting count).generate_eq runs), runs.calls.symm⟩

/-- A sink that takes a leading part of each write and says how long it was. It can go back to any position that it has
been at. -/
class LeadingSink (σ : Type) [Sink σ] where
  taken : σ → Bytes
  length_taken (s : σ) : (taken s).length = Sink.position s
  write_eq {s s' : σ} {bytes : Bytes} {n : Nat} (h : Sink.write s bytes = (.ok n, s')) :
    taken s' = taken s ++ bytes.take n
  restore_eq {s : σ} {position : Nat} (h : position ≤ (taken s).length) :
    ∃ s', Sink.restore s position = (.ok (), s') ∧ taken s' = (taken s).take position
  writtenSince_eq {s : σ} {position : Nat} (h : position ≤ (taken s).length) :
    Sink.writtenSince s position = some ((taken s).drop position)

instance : LeadingSink Bytes where
  taken s := s
  length_taken _ := rfl
  write_eq h := by
    cases h
    rw [List.take_length]
  restore_eq h := ⟨_, if_pos h, rfl⟩
  writtenSince_eq h := if_pos h

structure Capped where
  bytes : Bytes
  cap : Nat
deriving DecidableEq

namespace Capped

def write (s : Capped) (bytes : Bytes) : Answer Capped Nat :=
  let n := min (s.cap - s.bytes.length) bytes.length
  (.ok n, ⟨s.bytes ++ bytes.take n, s.cap⟩)

instance : Sink Capped where
  write := write
  position s := s.bytes.length
  restore s position := let (result, bytes) := Sink.restore s.bytes position; (result, ⟨bytes, s.cap⟩)
  writtenSince s := Sink.writtenSince s.bytes
  close s := (.ok (), s)

instance : LeadingSink Capped where
  taken := bytes
  length_taken _ := rfl
  write_eq h := by
    cases h
    rfl
  restore_eq {s position} h := by
    refine ⟨⟨s.bytes.take position, s.cap⟩, ?_, rfl⟩
    have back : Sink.restore s.bytes position = (.ok (), s.bytes.take position) := if_pos h
    change (let (result, bytes) := Sink.restore s.bytes position; (result, (⟨bytes, s.cap⟩ : Capped))) = _
    rw [back]
  writtenSince_eq h := if_pos h

def keeping (cap : Nat) (bytes : Bytes) : Capped := ⟨bytes.take cap, cap⟩

theorem write_keeping (cap : Nat) (before bytes : Bytes) :
    ∃ n, Sink.write (keeping cap before) bytes = (.ok n, keeping cap (before ++ bytes)) := by
  refine ⟨_, Prod.ext rfl ?_⟩
  change (⟨before.take cap ++ bytes.take _, cap⟩ : Capped) = keeping cap (before ++ bytes)
  have cut : bytes.take (min (cap - (before.take cap).length) bytes.length) = bytes.take (cap - before.length) := by
    apply List.take_eq_take_iff.2
    rw [List.length_take]
    omega
  rw [keeping, keeping, cut, List.take_append]

end Capped

namespace Machine

variable {p : Program} {n : Nat} {s : State σ ε}

/-- Every write that a run comes to within a number of steps is taken whole. -/
def Whole (p : Program) (n : Nat) (s : State σ ε) : Prop :=
  ∀ m < n, ∀ u, Runs p m s u → ∀ text, written? p u = some text →
    ∃ v, Sink.write u.sink (Utf8.ofString text) = (.ok (Utf8.ofString text).length, v)

variable [LeadingSink σ] {start : Option Nat} {before : Bytes} {evaluator : ε} {entropy : Entropy}

omit [Evaluator ε] in
theorem restore_taken {u : σ} {position : Nat} (h : position ≤ (LeadingSink.taken u).length) :
    (along (ε := ε) LeadingSink.taken id).Agree (Sink.restore u position)
      (Sink.restore (LeadingSink.taken u) position) := by
  obtain ⟨v, back, cut⟩ := LeadingSink.restore_eq h
  have bytes : Sink.restore (LeadingSink.taken u) position = (.ok (), (LeadingSink.taken u).take position) := if_pos h
  rw [back, bytes]
  exact .done cut.symm

/-- The positions on the stack are ones that the sink has been at. -/
theorem position_le_of_reachable {t : State Bytes ε} (ht : Reachable p (initial p start before evaluator entropy) t)
    {cell : Cell} (hc : cell ∈ t.stack) {position : Nat} (held : cell.position? = some position) :
    position ≤ t.sink.length := by
  obtain ⟨v, back, -⟩ := (history_of_reachable ht).goesBack hc held
  by_contra past
  have refused : Sink.restore t.sink position = (.error (.pastEnd position t.sink.length), t.sink) := if_neg past
  rw [refused] at back
  cases back

theorem taken_answers {t : State Bytes ε} (related : s.Related (along LeadingSink.taken id) t)
    (ht : Reachable p (initial p start before evaluator entropy) t)
    (whole : ∀ text, written? p s = some text →
      ∃ v, Sink.write s.sink (Utf8.ofString text) = (.ok (Utf8.ofString text).length, v)) :
    Answers (along LeadingSink.taken id) p s t := by
  have out : t.sink = LeadingSink.taken s.sink := related.sink
  have below {cell : Cell} (hc : cell ∈ t.stack) {position : Nat} (held : cell.position? = some position) :
      position ≤ (LeadingSink.taken s.sink).length := out ▸ position_le_of_reachable ht hc held
  refine .of_sinks related (fun text written => ?_) fun _ _ _ => ⟨?_, ?_, ?_⟩
  · obtain ⟨v, hw⟩ := whole text written
    have taken := LeadingSink.write_eq hw
    rw [List.take_length] at taken
    rw [out, hw]
    exact .done taken.symm
  · rw [out]
    exact (LeadingSink.length_taken _).symm
  · rintro c - d hd a b - held rfl
    rw [out]
    exact restore_taken (below hd held)
  · rintro a b - hb rfl
    have known := below hb rfl
    rw [out, LeadingSink.writtenSince_eq known]
    exact (if_pos known).symm

end Machine

/-- Nothing is lost as long as every write is taken whole: an attempt comes to what it comes to in memory, and the sink has
taken what is left there. -/
theorem generate_whole [LeadingSink σ] (g : Generator ε) {steps : Nat} {sink : σ} {entropy : Entropy}
    (whole : Whole g.program steps (initial g.program g.start sink g.evaluator entropy)) :
    g.generate steps (LeadingSink.taken sink) entropy =
      (g.generate steps sink entropy).map (Attempt.mapSink LeadingSink.taken) ∧
    g.calls steps (LeadingSink.taken sink) entropy = g.calls steps sink entropy := by
  have runs : Together (along LeadingSink.taken id) g.program steps
      (initial g.program g.start sink g.evaluator entropy)
      (initial g.program g.start (LeadingSink.taken sink) g.evaluator entropy) := by
    refine together (initial_related _ _ rfl rfl rfl) fun m hm u v hu hv related => ?_
    exact taken_answers related ⟨m, hv⟩ (whole m hm u hu)
  refine ⟨Attempt.eq_of_telling_id (Generator.generate_along runs ?_), runs.calls.symm⟩
  -- a grammar that fails goes back to the start, which the sink is not before at the end
  intro x hx
  have ends := runs.ends
  rw [hx] at ends
  generalize hy : run g.program steps (initial g.program g.start (LeadingSink.taken sink) g.evaluator entropy) = r
    at ends
  cases ends with
  | some related =>
    have longer := (extends_of_run hy).position_le
    rw [show _ = LeadingSink.taken x.state.sink from related.state.sink] at longer
    rw [← LeadingSink.length_taken]
    exact restore_taken longer

/-- A program that never goes back does not notice that output is cut. It comes to what it comes to in memory, and only the
first bytes of the output are kept. -/
theorem generate_capped (g : Generator ε) (plain : g.program.mayRestoreOutput = false) (steps cap : Nat) (before : Bytes)
    (entropy : Entropy) :
    g.generate steps (Capped.keeping cap before) entropy =
      (g.generate steps before entropy).map (Attempt.mapSink (Capped.keeping cap)) := by
  have writes (u : Bytes) (v : Capped) (text : String) (out : v = Capped.keeping cap u) :
      (along (ε := ε) (Capped.keeping cap) id).Agree (Sink.write u (Utf8.ofString text))
        (Sink.write v (Utf8.ofString text)) := by
    obtain ⟨n, hw⟩ := Capped.write_keeping cap u (Utf8.ofString text)
    rw [out, hw]
    exact .done rfl
  have same := Generator.generate_of_plain plain writes (rfl : Capped.keeping cap before = _) steps entropy
  generalize g.generate steps before entropy = x at same ⊢
  generalize g.generate steps (Capped.keeping cap before) entropy = y at same ⊢
  cases same with
  | none => rfl
  | some related => exact Attempt.eq_of_telling_id (congrArg some related.telling_eq)

/-- An attempt that ends well and has kept three bytes of six. -/
theorem generate_loses : ∃ p a b, Program.compile "r = 'abcdef' ;" = .ok p ∧
    (Generator.new p Script.Engine.empty).generate 40 ([] : Bytes) [] = some a ∧ a.result = .ok true ∧
    a.sink = [97, 98, 99, 100, 101, 102] ∧
    (Generator.new p Script.Engine.empty).generate 40 (⟨[], 3⟩ : Capped) [] = some b ∧ b.result = .ok true ∧
    b.sink = ⟨[97, 98, 99], 3⟩ := by
  obtain ⟨p, a, hp, ha, result, sink, -⟩ := @Program.exists_attempt Bytes Script.Engine _ _
    "r = 'abcdef' ;" 40 [] [97, 98, 99, 100, 101, 102] .empty [] [] (.ok true) (by decide +kernel)
  have plain : (Program.compile "r = 'abcdef' ;").toOption.map Program.mayRestoreOutput = some false := by
    decide +kernel
  rw [hp] at plain
  have cut := generate_capped (Generator.new p Script.Engine.empty) (Option.some.inj plain) 40 3 [] []
  rw [ha] at cut
  refine ⟨p, a, _, hp, ha, result, sink, cut, result, ?_⟩
  change Capped.keeping 3 a.sink = _
  rw [sink]
  rfl

end TextGrammar
