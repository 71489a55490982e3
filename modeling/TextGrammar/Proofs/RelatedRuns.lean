import Mathlib.Data.List.Forall2
import TextGrammar.Proofs.StepEffects
set_option autoImplicit false

/-!
# Two runs of one program

A state stands between three things it does not own: the sink, the evaluator and the entropy. A step asks each of them for
one thing at most that could change it. So two states whose surroundings answer alike take like steps, and two runs stay
together as long as this goes on. Positions of the two sinks need not be the same numbers.
-/
namespace TextGrammar.Machine

variable {σ τ ε δ α β : Type}

/-- How the surroundings of two runs go together, and the faults that their sinks may give for the same refusal. -/
structure Ties (σ τ ε δ : Type) where
  sink : σ → τ → Prop
  position : Nat → Nat → Prop
  evaluator : ε → δ → Prop
  entropy : Entropy → Entropy → Prop
  fault : RunFault → RunFault → Prop
  fault_refl : ∀ f, fault f f

variable {ties : Ties σ τ ε δ}

def Ties.anyEntropy (ties : Ties σ τ ε δ) : Ties σ τ ε δ := { ties with entropy := fun _ _ => True }

/-- Both sinks did what they were asked, or both refused it. How much they say they took is left out. -/
inductive Ties.Agree (ties : Ties σ τ ε δ) : Answer σ α → Answer τ β → Prop where
  | done {a : α} {b : β} {u : σ} {v : τ} (h : ties.sink u v) : Agree ties (.ok a, u) (.ok b, v)
  | refused {u : σ} {v : τ} {f g : OutputFault} (blame : ties.fault (.sink f) (.sink g)) (h : ties.sink u v) :
      Agree ties (.error f, u) (.error g, v)

theorem Ties.agree_self {ties : Ties σ σ ε δ} {a : Answer σ α} (h : ties.sink a.2 a.2) : ties.Agree a a := by
  rcases a with ⟨_ | _, u⟩
  · exact .refused (ties.fault_refl _) h
  · exact .done h

inductive Cell.Like (near : Nat → Nat → Prop) : Cell → Cell → Prop where
  | plain (cell : Cell) (unmarked : cell.position? = none) : Like near cell cell
  | rescue {resume a b : Nat} {bindings : Bindings} (h : near a b) :
      Like near (.rescue ⟨resume, a, bindings⟩) (.rescue ⟨resume, b, bindings⟩)
  | offset {a b : Nat} (h : near a b) : Like near (.offset a) (.offset b)

inductive State.Related (ties : Ties σ τ ε δ) : State σ ε → State τ δ → Prop where
  | intro {pc : Nat} {stack stack' : List Cell} {bindings : Bindings} {sink : σ} {sink' : τ} {evaluator : ε}
      {evaluator' : δ} {entropy entropy' : Entropy} (cells : List.Forall₂ (Cell.Like ties.position) stack stack')
      (out : ties.sink sink sink') (eval : ties.evaluator evaluator evaluator') (supply : ties.entropy entropy entropy') :
      Related ties ⟨pc, stack, bindings, sink, evaluator, entropy⟩ ⟨pc, stack', bindings, sink', evaluator', entropy'⟩

inductive StepResult.Related (ties : Ties σ τ ε δ) : StepResult σ ε → StepResult τ δ → Prop where
  | running {s : State σ ε} {t : State τ δ} (h : s.Related ties t) : Related ties (.running s) (.running t)
  | halted {s : State σ ε} {t : State τ δ} (succeeded : Bool) (h : s.Related ties t) :
      Related ties (.halted succeeded s) (.halted succeeded t)
  | faulted {s : State σ ε} {t : State τ δ} {f g : RunFault} (blame : ties.fault f g) (h : s.Related ties t) :
      Related ties (.faulted f s) (.faulted g t)

inductive Ending.Related (ties : Ties σ τ ε δ) : Ending σ ε → Ending τ δ → Prop where
  | ok {s : State σ ε} {t : State τ δ} (succeeded : Bool) (h : s.Related ties t) :
      Related ties ⟨.ok succeeded, s⟩ ⟨.ok succeeded, t⟩
  | error {s : State σ ε} {t : State τ δ} {f g : RunFault} (blame : ties.fault f g) (h : s.Related ties t) :
      Related ties ⟨.error f, s⟩ ⟨.error g, t⟩

theorem Cell.Like.refl {near : Nat → Nat → Prop} (h : ∀ a, near a a) (cell : Cell) : cell.Like near cell := by
  cases cell with
  | rescue point => exact .rescue (h point.position)
  | offset position => exact .offset (h position)
  | _ => exact .plain _ rfl

theorem eq_of_like {near : Nat → Nat → Prop} (same : ∀ a b, near a b → a = b) {stack stack' : List Cell}
    (h : List.Forall₂ (Cell.Like near) stack stack') : stack = stack' := by
  have equal : List.Forall₂ (· = ·) stack stack' := by
    refine h.imp fun c d like => ?_
    cases like with
    | plain _ _ => rfl
    | rescue h => rw [same _ _ h]
    | offset h => rw [same _ _ h]
  rwa [List.forall₂_eq_eq_eq] at equal

theorem Cell.Like.cellText_eq {near : Nat → Nat → Prop} {c d : Cell} (h : c.Like near d) : cellText c = cellText d := by
  cases h with
  | plain _ _ => rfl
  | rescue _ => rfl
  | offset _ => rfl

theorem unwind_like {near : Nat → Nat → Prop} {stack stack' : List Cell} (h : List.Forall₂ (Cell.Like near) stack stack') :
    unwind stack = none ∧ unwind stack' = none ∨ ∃ resume a b bindings rest rest',
      unwind stack = some (⟨resume, a, bindings⟩, rest) ∧ unwind stack' = some (⟨resume, b, bindings⟩, rest') ∧
      near a b ∧ List.Forall₂ (Cell.Like near) rest rest' := by
  induction h with
  | nil => exact .inl ⟨rfl, rfl⟩
  | @cons c d _ _ first rest ih =>
    cases first with
    | rescue h => exact .inr ⟨_, _, _, _, _, _, rfl, rfl, h, rest⟩
    | offset _ => exact ih
    | plain _ unmarked =>
      cases c with
      | rescue point => cases unmarked
      | _ => exact ih

namespace State.Related

variable {s : State σ ε} {t : State τ δ}

theorem of_stack_eq (h : ∀ a, ties.position a a) {pc : Nat} {stack : List Cell} {bindings : Bindings} {sink : σ} {sink' : τ}
    {evaluator : ε} {evaluator' : δ} {entropy entropy' : Entropy} (out : ties.sink sink sink')
    (eval : ties.evaluator evaluator evaluator') (supply : ties.entropy entropy entropy') :
    State.Related ties ⟨pc, stack, bindings, sink, evaluator, entropy⟩ ⟨pc, stack, bindings, sink', evaluator', entropy'⟩ :=
  ⟨List.forall₂_same.2 fun c _ => .refl h c, out, eval, supply⟩

theorem sink (h : s.Related ties t) : ties.sink s.sink t.sink := by
  obtain ⟨-, out, -, -⟩ := h
  exact out

theorem entropy (h : s.Related ties t) : ties.entropy s.entropy t.entropy := by
  obtain ⟨-, -, -, supply⟩ := h
  exact supply

theorem anyEntropy (h : s.Related ties t) : s.Related ties.anyEntropy t := by
  obtain ⟨cells, out, eval, -⟩ := h
  exact ⟨cells, out, eval, trivial⟩

theorem call?_eq {p : Program} (h : s.Related ties t) : call? p s = call? p t := by
  obtain ⟨-, -, -, -⟩ := h
  rfl

end State.Related

theorem Ending.Related.state {x : Ending σ ε} {y : Ending τ δ} (h : x.Related ties y) : x.state.Related ties y.state := by
  cases h with
  | ok _ last => exact last
  | error _ last => exact last

theorem initial_related (p : Program) (start : Option Nat) {sink : σ} {sink' : τ} {evaluator : ε} {evaluator' : δ}
    {entropy entropy' : Entropy} (out : ties.sink sink sink') (eval : ties.evaluator evaluator evaluator')
    (supply : ties.entropy entropy entropy') :
    (initial p start sink evaluator entropy).Related ties (initial p start sink' evaluator' entropy') := by
  cases start with
  | none => exact ⟨.nil, out, eval, supply⟩
  | some a => exact ⟨.cons (.plain _ rfl) .nil, out, eval, supply⟩

variable [Sink σ] [Sink τ]

structure Returns (ties : Ties σ τ ε δ) (s : State σ ε) (t : State τ δ) : Prop where
  position : ties.position (Sink.position s.sink) (Sink.position t.sink)
  restore : ∀ c ∈ s.stack, ∀ d ∈ t.stack, ∀ a b, c.position? = some a → d.position? = some b → ties.position a b →
    ties.Agree (Sink.restore s.sink a) (Sink.restore t.sink b)
  readBack : ∀ a b, .offset a ∈ s.stack → .offset b ∈ t.stack → ties.position a b →
    Sink.writtenSince s.sink a = Sink.writtenSince t.sink b

/-- The surroundings of two states answer alike whatever the next step may ask of them. Positions, going back and reading
back count only where the next instruction asks for them. -/
structure Answers [Evaluator ε] [Evaluator δ] (ties : Ties σ τ ε δ) (p : Program) (s : State σ ε) (t : State τ δ) :
    Prop where
  write : ∀ text, written? p s = some text →
    ties.Agree (Sink.write s.sink (Utf8.ofString text)) (Sink.write t.sink (Utf8.ofString text))
  returns : ∀ i, p.code[s.pc]? = some i → i.restoresOutput = true → Returns ties s t
  evaluate : ∀ code b, call? p s = some (code, b) →
    (Evaluator.evaluate s.evaluator code b).result = (Evaluator.evaluate t.evaluator code b).result ∧
    (Evaluator.evaluate s.evaluator code b).bindings = (Evaluator.evaluate t.evaluator code b).bindings ∧
    ties.evaluator (Evaluator.evaluate s.evaluator code b).evaluator (Evaluator.evaluate t.evaluator code b).evaluator
  draw : s.entropy.take (cost p s) = t.entropy.take (cost p s) ∧
    ties.entropy (s.entropy.drop (cost p s)) (t.entropy.drop (cost p s))

variable {p : Program} {s : State σ ε} {t : State τ δ} {c d : Cell}

theorem Returns.of_sink_eq {ties : Ties σ σ ε δ} {s : State σ ε} {t : State σ δ} (same : s.sink = t.sink)
    (itself : ∀ u, ties.sink u u) (refl : ∀ a, ties.position a a) (eq : ∀ a b, ties.position a b → a = b) :
    Returns ties s t where
  position := by
    rw [same]
    exact refl _
  restore c _ d _ a b _ _ near := by
    rw [same, eq a b near]
    exact Ties.agree_self (itself _)
  readBack a b _ _ near := by rw [same, eq a b near]

theorem Returns.within {s₀ : State σ ε} {t₀ : State τ δ} (h : Returns ties s₀ t₀) (hs : s.sink = s₀.sink)
    (ht : t.sink = t₀.sink) (cells : s.stack ⊆ s₀.stack) (cells' : t.stack ⊆ t₀.stack) : Returns ties s t where
  position := by
    rw [hs, ht]
    exact h.position
  restore c hc d hd := by
    rw [hs, ht]
    exact h.restore c (cells hc) d (cells' hd)
  readBack a b ha hb := by
    rw [hs, ht]
    exact h.readBack a b (cells ha) (cells' hb)

omit [Sink σ] [Sink τ] in
theorem push_related {cell : Cell} (h : s.Related ties t) (unmarked : cell.position? = none) :
    (push cell s).Related ties (push cell t) := by
  obtain ⟨cells, out, eval, supply⟩ := h
  exact .running ⟨.cons (.plain cell unmarked) cells, out, eval, supply⟩

omit [Sink σ] [Sink τ] in
theorem popping_related {next : Cell → State σ ε → StepResult σ ε} {next' : Cell → State τ δ → StepResult τ δ}
    (h : s.Related ties t)
    (next_related : ∀ c d rest rest', s.stack = c :: rest → c.Like ties.position d →
      State.Related ties { s with stack := rest } { t with stack := rest' } →
      (next c { s with stack := rest }).Related ties (next' d { t with stack := rest' })) :
    (popping s next).Related ties (popping t next') := by
  obtain ⟨cells, out, eval, supply⟩ := h
  cases cells with
  | nil => exact .faulted (ties.fault_refl _) ⟨.nil, out, eval, supply⟩
  | cons first rest => exact next_related _ _ _ _ rfl first ⟨rest, out, eval, supply⟩

theorem write_related (hc : c.Like ties.position d) (h : s.Related ties t)
    (agree : ∀ text, cellText c = some text →
      ties.Agree (Sink.write s.sink (Utf8.ofString text)) (Sink.write t.sink (Utf8.ofString text))) :
    (write c s).Related ties (write d t) := by
  obtain @⟨pc, stack, stack', bindings, sink, sink', evaluator, evaluator', entropy, entropy', cells, out, eval, supply⟩ := h
  unfold write
  rw [← hc.cellText_eq]
  cases spelled : cellText c with
  | none => exact .faulted (ties.fault_refl _) ⟨cells, out, eval, supply⟩
  | some text =>
    have agree := agree text spelled
    rcases hu : Sink.write sink (Utf8.ofString text) with ⟨result, u⟩
    rcases hv : Sink.write sink' (Utf8.ofString text) with ⟨result', v⟩
    simp only [hu, hv] at agree ⊢
    cases agree with
    | done out => exact .running ⟨cells, out, eval, supply⟩
    | refused blame out => exact .faulted blame ⟨cells, out, eval, supply⟩

/-- Both runs go back to the same place, or both end. -/
theorem rescue_related (h : s.Related ties t) (returns : Returns ties s t) : (rescue s).Related ties (rescue t) := by
  obtain @⟨pc, stack, stack', bindings, sink, sink', evaluator, evaluator', entropy, entropy', cells, out, eval, supply⟩ := h
  unfold rescue
  rcases unwind_like cells with ⟨none_left, none_left'⟩ | ⟨resume, a, b, bindings, rest, rest', hu, hu', near, below⟩
  · simp only [none_left, none_left']
    exact .halted false ⟨.nil, out, eval, supply⟩
  · obtain ⟨above, split⟩ := unwind_split hu
    obtain ⟨above', split'⟩ := unwind_split hu'
    have agree := returns.restore (.rescue ⟨resume, a, bindings⟩) (by simp [split])
      (.rescue ⟨resume, b, bindings⟩) (by simp [split']) a b rfl rfl near
    rcases hr : Sink.restore sink a with ⟨result, u⟩
    rcases hr' : Sink.restore sink' b with ⟨result', v⟩
    simp only [hr, hr'] at agree
    simp only [hu, hu', hr, hr']
    cases agree with
    | done out => exact .running ⟨below, out, eval, supply⟩
    | refused blame out => exact .faulted blame ⟨below, out, eval, supply⟩

theorem choose_related {dispatch : Nat} (h : s.Related ties.anyEntropy t) (returns : Returns ties s t)
    (same : s.entropy.take (Instruction.choose.cost s.stack) = t.entropy.take (Instruction.choose.cost s.stack))
    (left : ties.entropy (s.entropy.drop (Instruction.choose.cost s.stack))
      (t.entropy.drop (Instruction.choose.cost s.stack))) :
    (choose dispatch s).Related ties (choose dispatch t) := by
  have position := returns.position
  obtain @⟨pc, stack, stack', bindings, sink, sink', evaluator, evaluator', entropy, entropy', cells, out, eval, -⟩ := h
  change ties.sink sink sink' at out
  change ties.evaluator evaluator evaluator' at eval
  simp only at position same left
  cases cells with
  | nil => exact .faulted (ties.fault_refl _) ⟨.nil, out, eval, left⟩
  | @cons c d _ _ first rest =>
    cases first with
    | rescue near => exact .faulted (ties.fault_refl _) ⟨.cons (.rescue near) rest, out, eval, left⟩
    | offset near => exact .faulted (ties.fault_refl _) ⟨.cons (.offset near) rest, out, eval, left⟩
    | plain _ unmarked =>
      cases c with
      | candidates pool =>
        have item := pool.reads_draw.eq same
        rw [Instruction.cost, ← pool.reads_draw.left, ← pool.reads_draw.left] at left
        rcases hd : pool.draw entropy with ⟨drawn, e⟩
        rcases hd' : pool.draw entropy' with ⟨drawn', e'⟩
        rw [hd, hd'] at item left
        obtain rfl : drawn = drawn' := item
        cases drawn with
        | none =>
          simp only [choose, hd, hd']
          exact .faulted (ties.fault_refl _) ⟨.cons (.plain _ rfl) rest, out, eval, left⟩
        | some found =>
          simp only [choose, hd, hd']
          refine .running ⟨.cons ?_ (.cons (.plain _ rfl) rest), out, eval, left⟩
          split
          · exact .plain _ rfl
          · exact .rescue position
      | _ => exact .faulted (ties.fault_refl _) ⟨.cons (.plain _ unmarked) rest, out, eval, left⟩

theorem capture_related {name : String} {discard : Bool} (h : s.Related ties t) (returns : Returns ties s t) :
    (capture name discard s).Related ties (capture name discard t) := by
  obtain @⟨pc, stack, stack', bindings, sink, sink', evaluator, evaluator', entropy, entropy', cells, out, eval, supply⟩ := h
  cases cells with
  | nil => exact .faulted (ties.fault_refl _) ⟨.nil, out, eval, supply⟩
  | @cons c d _ _ first rest =>
    cases first with
    | rescue _ => exact .faulted (ties.fault_refl _) ⟨rest, out, eval, supply⟩
    | plain _ unmarked =>
      cases c with
      | offset position => cases unmarked
      | _ => exact .faulted (ties.fault_refl _) ⟨rest, out, eval, supply⟩
    | @offset a b near =>
      have read := returns.readBack a b List.mem_cons_self List.mem_cons_self near
      have agree := returns.restore (.offset a) List.mem_cons_self (.offset b) List.mem_cons_self a b rfl rfl near
      simp only at read agree
      simp only [capture, ← read]
      cases Sink.writtenSince sink a with
      | none => exact .faulted (ties.fault_refl _) ⟨rest, out, eval, supply⟩
      | some bytes =>
        simp only
        cases Utf8.toString? bytes with
        | none =>
          refine rescue_related ⟨rest, out, eval, supply⟩ ?_
          exact returns.within rfl rfl (List.subset_cons_self _ _) (List.subset_cons_self _ _)
        | some text =>
          cases discard with
          | false => exact .running ⟨rest, out, eval, supply⟩
          | true =>
            rcases hr : Sink.restore sink a with ⟨result, u⟩
            rcases hr' : Sink.restore sink' b with ⟨result', v⟩
            simp only [hr, hr'] at agree
            simp only [if_true]
            cases agree with
            | done out => exact .running ⟨rest, out, eval, supply⟩
            | refused blame out => exact .faulted blame ⟨rest, out, eval, supply⟩

variable [Evaluator ε] [Evaluator δ]

omit [Sink σ] [Sink τ] in
theorem evaluate_related {code : String} (h : s.Related ties t)
    (result : (Evaluator.evaluate s.evaluator code s.bindings).result =
      (Evaluator.evaluate t.evaluator code s.bindings).result)
    (bindings : (Evaluator.evaluate s.evaluator code s.bindings).bindings =
      (Evaluator.evaluate t.evaluator code s.bindings).bindings)
    (after : ties.evaluator (Evaluator.evaluate s.evaluator code s.bindings).evaluator
      (Evaluator.evaluate t.evaluator code s.bindings).evaluator) :
    (evaluate code s).Related ties (evaluate code t) := by
  obtain ⟨cells, out, -, supply⟩ := h
  simp only at result bindings after
  unfold evaluate
  simp only [result, bindings]
  split
  · exact .running ⟨.cons (.plain _ rfl) cells, out, after, supply⟩
  · exact .faulted (ties.fault_refl _) ⟨cells, out, after, supply⟩

/-- One step of both runs. What is left of their entropy goes together by what they draw, whatever they had before. -/
theorem step_related (h : s.Related ties.anyEntropy t) (answers : Answers ties p s t) :
    (step p s).Related ties (step p t) := by
  obtain @⟨pc, stack, stack', bindings, sink, sink', evaluator, evaluator', entropy, entropy', cells, out, eval, -⟩ := h
  obtain ⟨write, returns, evaluates, same, left⟩ := answers
  change List.Forall₂ (Cell.Like ties.position) stack stack' at cells
  change ties.sink sink sink' at out
  change ties.evaluator evaluator evaluator' at eval
  unfold step
  simp only at write returns evaluates same left ⊢
  cases hi : p.code[pc]? with
  | none =>
    simp only [cost, hi] at left
    exact .faulted (ties.fault_refl _) ⟨cells, out, eval, left⟩
  | some i =>
    -- an instruction that draws nothing costs nothing, so `left` speaks of all entropy then
    simp only [cost, hi] at same left
    have returns : i.restoresOutput = true → Returns ties (⟨pc + 1, stack, bindings, sink, evaluator, entropy⟩ : State σ ε)
        ⟨pc + 1, stack', bindings, sink', evaluator', entropy'⟩ :=
      fun restores => (returns i hi restores).within rfl rfl (List.Subset.refl _) (List.Subset.refl _)
    cases i with
    | pushLiteral index =>
      simp only [execute]
      split
      · exact push_related ⟨cells, out, eval, left⟩ rfl
      · exact .faulted (ties.fault_refl _) ⟨cells, out, eval, left⟩
    | pushInteger low high =>
      simp only [execute, push, (Entropy.reads_integer low high).eq same]
      simp only [Instruction.cost, ← (Entropy.reads_integer low high).left] at left
      exact .running ⟨.cons (.plain _ rfl) cells, out, eval, left⟩
    | pushFloat low high =>
      simp only [execute, push, (Entropy.reads_float low high).eq same]
      simp only [Instruction.cost, ← (Entropy.reads_float low high).left] at left
      exact .running ⟨.cons (.plain _ rfl) cells, out, eval, left⟩
    | pushCount n => exact push_related ⟨cells, out, eval, left⟩ rfl
    | pushCandidates candidates => exact push_related ⟨cells, out, eval, left⟩ rfl
    | pop => exact popping_related ⟨cells, out, eval, left⟩ fun _ _ _ _ _ _ h => .running h
    | dec =>
      cases cells with
      | nil => exact .faulted (ties.fault_refl _) ⟨.nil, out, eval, left⟩
      | @cons c d _ _ first rest =>
        cases first with
        | rescue near => exact .faulted (ties.fault_refl _) ⟨.cons (.rescue near) rest, out, eval, left⟩
        | offset near => exact .faulted (ties.fault_refl _) ⟨.cons (.offset near) rest, out, eval, left⟩
        | plain _ unmarked =>
          cases c with
          | int n => exact .running ⟨.cons (.plain _ rfl) rest, out, eval, left⟩
          | _ => exact .faulted (ties.fault_refl _) ⟨.cons (.plain _ unmarked) rest, out, eval, left⟩
    | jumpIfZero target =>
      cases cells with
      | nil => exact .faulted (ties.fault_refl _) ⟨.nil, out, eval, left⟩
      | @cons c d _ _ first rest =>
        cases first with
        | rescue near => exact .faulted (ties.fault_refl _) ⟨.cons (.rescue near) rest, out, eval, left⟩
        | offset near => exact .faulted (ties.fault_refl _) ⟨.cons (.offset near) rest, out, eval, left⟩
        | plain _ unmarked =>
          cases c with
          | int n =>
            simp only [execute]
            split <;> exact .running ⟨.cons (.plain _ rfl) rest, out, eval, left⟩
          | _ => exact .faulted (ties.fault_refl _) ⟨.cons (.plain _ unmarked) rest, out, eval, left⟩
    | jumpIf target =>
      simp only [execute]
      refine popping_related ⟨cells, out, eval, left⟩ fun c d rest rest' _ hc h => ?_
      obtain ⟨cells, out, eval, left⟩ := h
      cases hc with
      | rescue _ => exact .faulted (ties.fault_refl _) ⟨cells, out, eval, left⟩
      | offset _ => exact .faulted (ties.fault_refl _) ⟨cells, out, eval, left⟩
      | plain _ _ =>
        split
        · split <;> exact .running ⟨cells, out, eval, left⟩
        · exact .faulted (ties.fault_refl _) ⟨cells, out, eval, left⟩
    | flip target =>
      simp only [execute, Entropy.reads_coin.eq same]
      simp only [Instruction.cost, ← Entropy.reads_coin.left] at left
      split <;> exact .running ⟨cells, out, eval, left⟩
    | jump target => exact .running ⟨cells, out, eval, left⟩
    | call target => exact .running ⟨.cons (.plain _ rfl) cells, out, eval, left⟩
    | ret =>
      simp only [execute]
      refine popping_related ⟨cells, out, eval, left⟩ fun c d rest rest' _ hc h => ?_
      obtain ⟨cells, out, eval, left⟩ := h
      cases hc with
      | rescue _ => exact .faulted (ties.fault_refl _) ⟨cells, out, eval, left⟩
      | offset _ => exact .faulted (ties.fault_refl _) ⟨cells, out, eval, left⟩
      | plain _ _ =>
        split
        · exact .running ⟨cells, out, eval, left⟩
        · exact .faulted (ties.fault_refl _) ⟨cells, out, eval, left⟩
    | write =>
      refine popping_related ⟨cells, out, eval, left⟩ fun c d rest rest' hs hc h => ?_
      refine write_related hc h fun text ht => write text ?_
      simp only at hs
      simp only [written?, hi, hs, ht]
    | eval index =>
      simp only [execute]
      cases hc : p.scripts[index]? with
      | none => exact .faulted (ties.fault_refl _) ⟨cells, out, eval, left⟩
      | some code =>
        obtain ⟨result, after, next⟩ := evaluates code bindings (by simp only [call?, hi, hc, Option.map_some])
        exact evaluate_related ⟨cells, out, eval, left⟩ result after next
    | choose => exact choose_related ⟨cells, out, eval, trivial⟩ (returns rfl) same left
    | pushRescuePoint resume => exact .running ⟨.cons (.rescue (returns rfl).position) cells, out, eval, left⟩
    | rescue => exact rescue_related ⟨cells, out, eval, left⟩ (returns rfl)
    | pushOffset => exact .running ⟨.cons (.offset (returns rfl).position) cells, out, eval, left⟩
    | capture name discard => exact capture_related ⟨cells, out, eval, left⟩ (returns rfl)
    | halt => exact .halted true ⟨cells, out, eval, left⟩

/-- What two runs have in common within a number of steps: how they end, what they have evaluated, and every state. -/
structure Together (ties : Ties σ τ ε δ) (p : Program) (n : Nat) (s : State σ ε) (t : State τ δ) : Prop where
  ends : Option.Rel (Ending.Related ties) (run p n s) (run p n t)
  calls : calls p n s = calls p n t
  onward : ∀ u, Runs p n s u → ∃ v, Runs p n t v ∧ u.Related ties v

/-- Two runs stay together for as many steps as their surroundings answer alike. -/
theorem together {n : Nat} (h : s.Related ties t)
    (answers : ∀ m < n, ∀ u v, Runs p m s u → Runs p m t v → u.Related ties v → Answers ties p u v) :
    Together ties p n s t := by
  induction n generalizing s t with
  | zero =>
    refine ⟨.none, rfl, fun u hu => ?_⟩
    cases hu
    exact ⟨t, .zero t, h⟩
  | succ n ih =>
    have steps := step_related h.anyEntropy (answers 0 (Nat.zero_lt_succ n) s t (.zero s) (.zero t) h)
    have same := h.call?_eq (p := p)
    have ended : ∀ u, Runs p (n + 1) s u → ∃ v, step p s = .running v := by
      rintro u (_ | ⟨first, _⟩)
      exact ⟨_, first⟩
    generalize hs : step p s = r at steps ended
    generalize ht : step p t = r' at steps
    cases steps with
    | running next =>
      have rest := ih next fun m hm u v hu hv => answers (m + 1) (Nat.succ_lt_succ hm) u v (.succ hs hu) (.succ ht hv)
      refine ⟨?_, ?_, fun u hu => ?_⟩
      · rw [run_of_running hs, run_of_running ht]
        exact rest.ends
      · simp only [Machine.calls, same, hs, ht, rest.calls]
      · cases hu with
        | succ first tail =>
          rw [hs] at first
          cases first
          obtain ⟨v, hv, related⟩ := rest.onward u tail
          exact ⟨v, .succ ht hv, related⟩
    | halted succeeded last =>
      refine ⟨?_, by simp only [Machine.calls, same, hs, ht], fun u hu => ?_⟩
      · simp only [run, hs, ht]
        exact .some (.ok succeeded last)
      · obtain ⟨v, ⟨⟩⟩ := ended u hu
    | faulted blame last =>
      refine ⟨?_, by simp only [Machine.calls, same, hs, ht], fun u hu => ?_⟩
      · simp only [run, hs, ht]
        exact .some (.error blame last)
      · obtain ⟨v, ⟨⟩⟩ := ended u hu

def Ties.ofSinks (sink : σ → τ → Prop) (position : Nat → Nat → Prop) (tell : RunFault → RunFault) : Ties σ τ ε ε :=
  ⟨sink, position, (· = ·), (· = ·), fun f g => tell f = tell g, fun _ => rfl⟩

section

variable {sink : σ → τ → Prop} {position : Nat → Nat → Prop} {tell : RunFault → RunFault} {t : State τ ε}

theorem Answers.of_sinks (h : s.Related (.ofSinks sink position tell) t)
    (write : ∀ text, written? p s = some text → (Ties.ofSinks (ε := ε) sink position tell).Agree
      (Sink.write s.sink (Utf8.ofString text)) (Sink.write t.sink (Utf8.ofString text)))
    (returns : ∀ i, p.code[s.pc]? = some i → i.restoresOutput = true → Returns (.ofSinks sink position tell) s t) :
    Answers (.ofSinks sink position tell) p s t := by
  refine ⟨write, returns, fun code b _ => ?_, ?_⟩
  all_goals obtain ⟨-, -, rfl, rfl⟩ := h
  · exact ⟨rfl, rfl, rfl⟩
  · exact ⟨rfl, rfl⟩

end

/-- What holds of a sink and is kept by writing a text, and by going back to where a cell of the run was pushed, holds
in all states of the run and at its end. -/
theorem keeps_sink {P : σ → Prop} (hs : P s.sink) (writes : ∀ u text, P u → P (Sink.write u (Utf8.ofString text)).2)
    (backs : ∀ u, Reachable p s u → P u.sink → ∀ cell ∈ u.stack, ∀ position, cell.position? = some position →
      P (Sink.restore u.sink position).2) :
    (∀ u, Reachable p s u → P u.sink) ∧ ∀ n x, run p n s = some x → P x.state.sink := by
  have stays (n : Nat) : Together (.ofSinks (fun u v => u = v ∧ P u) (· = ·) id) p n s s := by
    refine together (.of_stack_eq (fun _ => rfl) ⟨rfl, hs⟩ rfl rfl) fun m _ u v hu _ related => ?_
    refine .of_sinks related (fun text _ => ?_) fun _ _ _ => ⟨?_, ?_, ?_⟩
    all_goals obtain ⟨-, ⟨rfl, holds⟩, -, -⟩ := related
    · exact Ties.agree_self ⟨rfl, writes _ text holds⟩
    · rfl
    · rintro c hc d - a b held - rfl
      exact Ties.agree_self ⟨rfl, backs _ ⟨m, hu⟩ holds c hc a held⟩
    · rintro a b - - rfl
      rfl
  constructor
  · rintro u ⟨n, hu⟩
    obtain ⟨v, -, related⟩ := (stays n).onward u hu
    exact related.sink.2
  · intro n x hx
    have ends := (stays n).ends
    rw [hx] at ends
    cases ends with
    | some related => exact related.state.sink.2

end TextGrammar.Machine
