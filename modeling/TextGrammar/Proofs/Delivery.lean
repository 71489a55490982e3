import TextGrammar.Proofs.AppendedOutput
import TextGrammar.Proofs.WriteOnlyPrograms
set_option autoImplicit false

namespace TextGrammar
open Machine TransactionalSink

/-- A writer that takes all bytes in the end, if not all at once, and can always be flushed. -/
class SteadyWriter (ω : Type) [Writer ω] where
  received : ω → Bytes
  flushes : ω → Nat
  write_ok (w : ω) (b : UInt8) (bs : Bytes) : ∃ n w', Writer.write w (b :: bs) = (.ok (n + 1), w') ∧
    received w' = received w ++ (b :: bs).take (n + 1) ∧ flushes w' = flushes w
  flush_ok (w : ω) : ∃ w', Writer.flush w = (.ok (), w') ∧ received w' = received w ∧ flushes w' = flushes w + 1

open SteadyWriter

variable {σ ε ω : Type} [Writer ω] [SteadyWriter ω]

theorem writeAll_ok (w : ω) (bytes : Bytes) :
    ∃ w', writeAll w bytes = (.ok (), w') ∧ received w' = received w ++ bytes ∧ flushes w' = flushes w := by
  fun_induction writeAll w bytes with
  | case1 w => exact ⟨w, rfl, (List.append_nil _).symm, rfl⟩
  | case2 w b bs w' h =>
    obtain ⟨n, _, hn, -⟩ := write_ok w b bs
    rw [hn] at h
    cases h
  | case3 w b bs n w' h ih =>
    obtain ⟨m, _, hm, taken, same⟩ := write_ok w b bs
    rw [hm] at h
    cases h
    obtain ⟨w', all, rest, same'⟩ := ih
    refine ⟨w', all, ?_, same'.trans same⟩
    rw [rest, taken, List.append_assoc, List.take_succ_cons, List.cons_append, List.take_append_drop]
  | case4 w b bs fault w' h =>
    obtain ⟨n, _, hn, -⟩ := write_ok w b bs
    rw [hn] at h
    cases h

theorem Buffered.close_ok (s : Buffered ω) : ∃ w, Sink.close s = (.ok (), Buffered.new w) ∧
    received w = received s.inner ++ s.bytes ∧ flushes w = flushes s.inner + 1 := by
  obtain ⟨w, all, taken, same⟩ := writeAll_ok s.inner s.bytes
  obtain ⟨w', flushed, taken', same'⟩ := flush_ok w
  refine ⟨w', ?_, taken'.trans taken, by rw [same', same]⟩
  change s.close = _
  rw [Buffered.close, all]
  simp only [flushed]

theorem Direct.close_ok (s : Direct ω) : ∃ w, Sink.close s = (.ok (), ⟨w, s.written⟩) ∧
    received w = received s.inner ∧ flushes w = flushes s.inner + 1 := by
  obtain ⟨w, flushed, taken, same⟩ := flush_ok s.inner
  refine ⟨w, ?_, taken, same⟩
  simp only [Sink.close, flushed]

omit [SteadyWriter ω] in
theorem Buffered.restore_inner (s : Buffered ω) (position : Nat) : (Sink.restore s position).2.inner = s.inner := by
  change (s.restore position).2.inner = _
  unfold Buffered.restore
  split <;> rfl

def Streamed (writer : ω) (bytes : Bytes) (s : Direct ω) : Prop :=
  received s.inner = received writer ++ bytes ∧ flushes s.inner = flushes writer

theorem agree_streamed {writer : ω} {bytes : Bytes} {s : Direct ω} (text : String) (h : Streamed writer bytes s) :
    (Ties.ofSinks (ε := ε) (Streamed writer) (fun _ _ => True) id).Agree (Sink.write bytes (Utf8.ofString text))
      (Sink.write s (Utf8.ofString text)) := by
  obtain ⟨w, all, more, same⟩ := writeAll_ok s.inner (Utf8.ofString text)
  have written : Sink.write s (Utf8.ofString text) = (.ok (Utf8.ofString text).length,
      ⟨w, s.written + (Utf8.ofString text).length⟩) := by
    change s.write _ = _
    rw [Direct.write, all]
  rw [written]
  exact .done ⟨by rw [more, h.1, List.append_assoc], same.trans h.2⟩

namespace Generator

/-- What goes out of an attempt. Output up to a fault is held back if the program may go back. -/
def released (held : Bool) (a : Attempt Bool Bytes ε) : Bytes :=
  match a.result with
  | .ok true => a.sink
  | .ok false => []
  | .error _ => if held then [] else a.sink

structure Handed (held : Bool) (writer : ω) (a : Attempt Bool Bytes ε) (b : Attempt Bool ω ε) : Prop where
  result : b.result = a.result
  received : received b.sink = received writer ++ released held a
  flushed : flushes b.sink = flushes writer + 1
  evaluator : b.evaluator = a.evaluator
  entropy : b.entropy = a.entropy

/-- What a writer gets, beside what an attempt in memory comes to. Its output up to a fault is held back if the program
may go back, and has gone out otherwise. -/
structure Delivered (held : Bool) (writer : ω) (a : Attempt (Option Bytes) Bytes ε) (b : Attempt Bool ω ε) : Prop where
  done : ∀ text, a.result = .ok (some text) → b.result = .ok true ∧ received b.sink = received writer ++ text
  failed : a.result = .ok none → b.result = .ok false ∧ received b.sink = received writer
  faulted : ∀ fault, a.result = .error fault → b.result = .error fault ∧
    received b.sink = if held then received writer else received writer ++ a.sink
  flushed : flushes b.sink = flushes writer + 1
  evaluator : b.evaluator = a.evaluator
  entropy : b.entropy = a.entropy

theorem Handed.delivered {held : Bool} {writer : ω} {a : Attempt Bool Bytes ε} {b : Attempt Bool ω ε}
    (h : Handed held writer a b) :
    Delivered held writer
      ⟨a.result.map fun succeeded => if succeeded then some a.sink else none, a.sink, a.evaluator, a.entropy⟩ b := by
  obtain ⟨result, sink, evaluator, entropy⟩ := a
  obtain ⟨same, taken, flushed, evaluator_eq, entropy_eq⟩ := h
  match result with
  | .ok true =>
    refine ⟨fun text done => ?_, nofun, nofun, flushed, evaluator_eq, entropy_eq⟩
    cases done
    exact ⟨same, taken⟩
  | .ok false =>
    refine ⟨nofun, fun _ => ⟨same, ?_⟩, nofun, flushed, evaluator_eq, entropy_eq⟩
    exact taken.trans (List.append_nil _)
  | .error fault =>
    refine ⟨nofun, nofun, fun fault' faulted => ?_, flushed, evaluator_eq, entropy_eq⟩
    cases faulted
    refine ⟨same, taken.trans ?_⟩
    cases held with
    | true => exact List.append_nil _
    | false => rfl

theorem delivered_of_handed {τ : Type} {held : Bool} {writer : ω} {inner : τ → ω}
    {x : Option (Attempt Bool Bytes ε)} {y : Option (Attempt Bool τ ε)}
    (h : Option.Rel (fun a b => Handed held writer a ⟨b.result, inner b.sink, b.evaluator, b.entropy⟩) x y) :
    Option.Rel (Delivered held writer)
      (x.map fun a => ⟨a.result.map fun succeeded => if succeeded then some a.sink else none, a.sink, a.evaluator,
        a.entropy⟩)
      (y.map fun b => ⟨b.result, inner b.sink, b.evaluator, b.entropy⟩) := by
  cases h with
  | none => exact .none
  | some handed => exact .some handed.delivered

def leftover [Sink σ] (before : σ) (a : Attempt Bool σ ε) : σ :=
  match a.result with
  | .ok _ => a.sink
  | .error _ => (Sink.restore a.sink (Sink.position before)).2

variable [Evaluator ε]

theorem generateClosing_eq [Sink σ] (g : Generator ε) (steps : Nat) (sink : σ) (entropy : Entropy) :
    g.generateClosing steps sink entropy = (g.generate steps sink entropy).map fun a =>
      match Sink.close (leftover sink a) with
      | (.ok (), output) => ⟨a.result, output, a.evaluator, a.entropy⟩
      | (.error fault, output) => ⟨.error (.sink fault), output, a.evaluator, a.entropy⟩ := by
  unfold generateClosing leftover
  rfl

variable (g : Generator ε) (steps : Nat) (writer : ω) (entropy : Entropy)

/-- A buffer hands over at the end what bytes in memory would hold, unless the attempt is given up. -/
theorem closing_buffered :
    Option.Rel (fun a b => Handed true writer a ⟨b.result, b.sink.inner, b.evaluator, b.entropy⟩)
      (g.generate steps ([] : Bytes) entropy) (g.generateClosing steps (Buffered.new writer) entropy) := by
  have same := g.generate_appending steps ([] : Bytes) (Buffered.new writer) entropy
  have untouched : ∀ b, g.generate steps (Buffered.new writer) entropy = some b → b.sink.inner = writer := fun _ =>
    g.generate_keeps (P := fun u : Buffered ω => u.inner = writer) (fun _ _ hu => hu)
      (fun u position hu => (u.restore_inner position).trans hu) rfl
  have undone : ∀ b, g.generate steps (Buffered.new writer) entropy = some b → b.result = .ok false → b.sink.bytes = [] :=
    fun _ => g.generate_undone
  rw [generateClosing_eq]
  generalize g.generate steps ([] : Bytes) entropy = x at same ⊢
  generalize g.generate steps (Buffered.new writer) entropy = y at same untouched undone ⊢
  cases same with
  | none => exact .none
  | @some a b both =>
    have result := both.result fun _ _ told => told
    have left : (leftover (Buffered.new writer) b).inner = writer ∧
        (leftover (Buffered.new writer) b).bytes = released true a := by
      obtain ⟨text, ha, hb⟩ := both.sink
      rw [leftover, released, result]
      match hr : b.result with
      | .ok true => exact ⟨untouched b rfl, hb.trans ha.symm⟩
      | .ok false => exact ⟨untouched b rfl, undone b rfl hr⟩
      | .error fault =>
        -- the position goes back to the start, and what is past it is never handed over
        refine ⟨(b.sink.restore_inner _).trans (untouched b rfl), ?_⟩
        change (b.sink.restore 0).2.bytes = []
        rw [Buffered.restore, dif_pos (Nat.zero_le _)]
        rfl
    obtain ⟨w, closed, taken, flushed⟩ := (leftover (Buffered.new writer) b).close_ok
    rw [left.1, left.2] at taken
    rw [left.1] at flushed
    simp only [Option.map_some, closed]
    exact .some ⟨result.symm, taken, flushed, both.evaluator.symm, both.entropy.symm⟩

/-- A stream has been handed everything by the end, as a program that never goes back does not fail. -/
theorem closing_direct (plain : g.program.mayRestoreOutput = false) :
    Option.Rel (fun a b => Handed false writer a ⟨b.result, b.sink.inner, b.evaluator, b.entropy⟩)
      (g.generate steps ([] : Bytes) entropy) (g.generateClosing steps (Direct.new writer) entropy) := by
  have new : Streamed writer [] (Direct.new writer) := ⟨(List.append_nil _).symm, rfl⟩
  have same := generate_of_plain plain (fun _ _ text => agree_streamed text) new steps entropy
  have succeeds : ∀ a, g.generate steps ([] : Bytes) entropy = some a → a.result ≠ .ok false := fun _ =>
    generate_not_failed plain
  rw [generateClosing_eq]
  generalize g.generate steps ([] : Bytes) entropy = x at same succeeds ⊢
  generalize g.generate steps (Direct.new writer) entropy = y at same ⊢
  cases same with
  | none => exact .none
  | @some a b both =>
    have streamed := both.sink
    have kept : leftover (Direct.new writer) b = b.sink := by
      unfold leftover
      split <;> rfl
    obtain ⟨w, closed, taken, flushed⟩ := b.sink.close_ok
    have out : received w = received writer ++ released false a := by
      rw [taken, streamed.1, released]
      match hr : a.result with
      | .ok true => rfl
      | .ok false => exact absurd hr (succeeds a rfl)
      | .error fault => rfl
    simp only [Option.map_some, kept, closed]
    refine .some ⟨(both.result fun _ _ told => told).symm, out, ?_, both.evaluator.symm, both.entropy.symm⟩
    rw [flushed, streamed.2]

end Generator

/-- A writer is handed what an attempt in memory returns, and is flushed once. It gets nothing if the grammar fails.
After a fault it has got nothing if the program may go back, and what was written up to the fault otherwise. -/
theorem generateTo_delivers [Evaluator ε] (g : Generator ε) (steps : Nat) (writer : ω) (entropy : Entropy) :
    Option.Rel (Generator.Delivered g.program.mayRestoreOutput writer)
      (g.expression steps entropy : Option (Attempt (Option Bytes) Bytes ε)) (g.generateTo steps writer entropy) := by
  unfold Generator.expression Generator.generateTo
  cases plain : g.program.mayRestoreOutput with
  | true =>
    rw [if_pos rfl]
    exact Generator.delivered_of_handed (g.closing_buffered steps writer entropy)
  | false =>
    rw [if_neg Bool.false_ne_true]
    exact Generator.delivered_of_handed (g.closing_direct steps writer entropy plain)

structure Trickle where
  taken : Bytes
  flushed : Nat

instance : Writer Trickle where
  write
    | w, [] => (.ok 0, w)
    | w, b :: _ => (.ok 1, { w with taken := w.taken ++ [b] })
  flush w := (.ok (), { w with flushed := w.flushed + 1 })

instance : SteadyWriter Trickle where
  received := Trickle.taken
  flushes := Trickle.flushed
  write_ok w b _ := ⟨0, { w with taken := w.taken ++ [b] }, rfl, rfl, rfl⟩
  flush_ok w := ⟨{ w with flushed := w.flushed + 1 }, rfl, rfl, rfl⟩

/-- An attempt that goes back once, to a writer with bytes in it. -/
theorem generateTo_delivers_undone : ∃ p b,
    Program.compile "('é' {?false} | 'bc') 'd'" = .ok p ∧ p.mayRestoreOutput = true ∧
    (Generator.new p Script.Engine.empty).generateTo 40 (⟨[255], 0⟩ : Trickle) [0] = some b ∧
    b.result = .ok true ∧ b.sink = ⟨[255, 98, 99, 100], 1⟩ := by
  obtain ⟨p, s, hp, hrun, hs⟩ := @Program.exists_run Bytes Script.Engine _ _
    "('é' {?false} | 'bc') 'd'" 40 [] [98, 99, 100] .empty [0] true (by decide +kernel)
  have flag : (Program.compile "('é' {?false} | 'bc') 'd'").toOption.map Program.mayRestoreOutput =
      some true := by decide +kernel
  rw [hp] at flag
  have ends : (Generator.new p Script.Engine.empty).expression 40 [0] =
      some (⟨.ok (some s.sink), s.sink, s.evaluator, s.entropy⟩ : Attempt (Option Bytes) Bytes Script.Engine) := by
    have attempt : (Generator.new p Script.Engine.empty).generate 40 (default : Bytes) [0] =
        some ⟨.ok true, s.sink, s.evaluator, s.entropy⟩ := by
      rw [Generator.generate]
      simp only [Generator.new, show (default : Bytes) = [] from rfl, hrun]
    rw [Generator.expression, attempt]
    rfl
  have same := generateTo_delivers (Generator.new p Script.Engine.empty) 40 (⟨[255], 0⟩ : Trickle) [0]
  rw [ends] at same
  generalize hb : (Generator.new p Script.Engine.empty).generateTo 40 (⟨[255], 0⟩ : Trickle) [0] = y at same
  cases same with
  | @some _ b delivered =>
    obtain ⟨result, taken⟩ := delivered.done s.sink rfl
    rw [hs] at taken
    have sink : b.sink = ⟨[255, 98, 99, 100], 1⟩ := by
      rcases b with ⟨_, ⟨_, _⟩, _, _⟩
      cases taken
      cases delivered.flushed
      rfl
    exact ⟨p, b, hp, Option.some.inj flag, hb, result, sink⟩

end TextGrammar
