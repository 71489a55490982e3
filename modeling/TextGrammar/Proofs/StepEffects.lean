import TextGrammar.Proofs.PoolDraws
import TextGrammar.Proofs.StepRequests
set_option autoImplicit false

/-!
# What a step does

Every step has one of a few effects on the program counter, the stack, the sink and the entropy, whichever instruction takes
it. `step_effect` is the one place that goes through the instructions; what is kept by all steps follows from the effects.
-/
namespace TextGrammar

/-- Where an instruction other than a call may lead, be it at once or after a later failure. -/
def Instruction.targets : Instruction → List Nat
  | .pushCandidates cs => cs.map Candidate.target
  | .jumpIfZero a | .jumpIf a | .flip a | .jump a | .pushRescuePoint a => [a]
  | _ => []

def Instruction.offers : Instruction → Bool
  | .pushCandidates _ => true
  | _ => false

def Instruction.ends : Instruction → Bool
  | .ret | .halt => true
  | _ => false

namespace Machine

variable {σ ε : Type}

def Cell.position? : Cell → Option Nat
  | .rescue point => some point.position
  | .offset position => some position
  | _ => none

/-- Neither an address nor anything of an earlier state. -/
def Cell.isBare : Cell → Bool
  | .address _ | .rescue _ | .offset _ => false
  | _ => true

theorem Cell.position?_of_isBare {cell : Cell} (h : cell.isBare = true) : cell.position? = none := by
  cases cell <;> first | rfl | cases h

def candidatePool (cs : List Candidate) : Pool Nat := .ofList (cs.map fun c => (c.weight, c.target))

variable [Sink σ] [Evaluator ε]

/-- What an instruction does in a state whose program counter stands at it. -/
inductive Effect (p : Program) (s : State σ ε) : Instruction → StepResult σ ε → Prop where
  /-- Some cells give way to bare ones, and control goes on behind the instruction or at a target of it. -/
  | shift {i : Instruction} {pc : Nat} (gone new below : List Cell) (before : s.stack = gone ++ below)
      (bare : ∀ c ∈ new, c.isBare = true) (next : pc = s.pc + 1 ∧ i.ends = false ∧ i.offers = false ∨ pc ∈ i.targets) :
      Effect p s i (.running { s with pc := pc, stack := new ++ below, entropy := s.entropy.drop (i.cost s.stack) })
  | offer (cs : List Candidate) :
      Effect p s (.pushCandidates cs) (.running { s with pc := s.pc + 1, stack := .candidates (candidatePool cs) :: s.stack })
  | choose {pool pool' : Pool Nat} {target : Nat} {rest : List Cell} (before : s.stack = .candidates pool :: rest)
      (drawn : pool.draw s.entropy = (some (target, pool'), s.entropy.drop pool.cost)) :
      Effect p s .choose (.running { s with
        pc := target
        stack := (if pool.size = 1 then .placeholder else .rescue (rescuePoint s.pc s)) :: .candidates pool' :: rest
        entropy := s.entropy.drop pool.cost })
  | call (target : Nat) :
      Effect p s (.call target) (.running { s with pc := target, stack := .address (s.pc + 1) :: s.stack })
  | ret {a : Nat} {rest : List Cell} (before : s.stack = .address a :: rest) :
      Effect p s .ret (.running { s with pc := a, stack := rest })
  | write {cell : Cell} {rest : List Cell} {text : String} {n : Nat} {sink : σ} (before : s.stack = cell :: rest)
      (spelled : cellText cell = some text) (taken : Sink.write s.sink (Utf8.ofString text) = (.ok n, sink)) :
      Effect p s .write (.running { s with pc := s.pc + 1, stack := rest, sink := sink })
  | evaluate {index : Nat} {code : String} {v : Value} {b : Bindings} {e : ε} (script : p.scripts[index]? = some code)
      (value : Evaluator.evaluate s.evaluator code s.bindings = ⟨.ok v, b, e⟩) :
      Effect p s (.eval index)
        (.running { s with pc := s.pc + 1, stack := .value v :: s.stack, bindings := b, evaluator := e })
  | guard (resume : Nat) :
      Effect p s (.pushRescuePoint resume)
        (.running { s with pc := s.pc + 1, stack := .rescue (rescuePoint resume s) :: s.stack })
  | mark : Effect p s .pushOffset
      (.running { s with pc := s.pc + 1, stack := .offset (Sink.position s.sink) :: s.stack })
  | keep {name text : String} {start : Nat} {rest : List Cell} {bytes : Bytes} (before : s.stack = .offset start :: rest)
      (read : Sink.writtenSince s.sink start = some bytes) (spelled : Utf8.toString? bytes = some text) :
      Effect p s (.capture name false)
        (.running { s with pc := s.pc + 1, stack := rest, bindings := s.bindings.set name (.str text) })
  | discard {name text : String} {start : Nat} {rest : List Cell} {bytes : Bytes} {sink : σ}
      (before : s.stack = .offset start :: rest) (read : Sink.writtenSince s.sink start = some bytes)
      (spelled : Utf8.toString? bytes = some text) (restored : Sink.restore s.sink start = (.ok (), sink)) :
      Effect p s (.capture name true)
        (.running { s with pc := s.pc + 1, stack := rest, bindings := s.bindings.set name (.str text), sink := sink })
  | back {i : Instruction} {point : RescuePoint} {sink : σ} (above rest : List Cell)
      (fails : i = .rescue ∨ ∃ name discard, i = .capture name discard) (before : s.stack = above ++ .rescue point :: rest)
      (restored : Sink.restore s.sink point.position = (.ok (), sink)) :
      Effect p s i (.running { s with pc := point.resume, stack := rest, bindings := point.bindings, sink := sink })
  | halt : Effect p s .halt (.halted true { s with pc := s.pc + 1 })
  | exhausted {i : Instruction} (fails : i = .rescue ∨ ∃ name discard, i = .capture name discard) :
      Effect p s i (.halted false { s with pc := s.pc + 1, stack := [] })
  | unwritten {text : String} {fault : OutputFault} {u : State σ ε}
      (refused : Sink.write s.sink (Utf8.ofString text) = (.error fault, u.sink)) :
      Effect p s .write (.faulted (.sink fault) u)
  | unrestored {i : Instruction} {cell : Cell} {position : Nat} {fault : OutputFault} {u : State σ ε}
      (fails : i = .rescue ∨ ∃ name discard, i = .capture name discard) (held : cell ∈ s.stack)
      (marked : cell.position? = some position) (refused : Sink.restore s.sink position = (.error fault, u.sink)) :
      Effect p s i (.faulted (.sink fault) u)
  | unevaluated {index : Nat} {code : String} {fault : EvalFault} {u : State σ ε} :
      Effect p s (.eval index) (.faulted (.eval code fault) u)
  | unread {name : String} {discard : Bool} {start : Nat} {rest : List Cell} {u : State σ ε}
      (before : s.stack = .offset start :: rest) (unread : Sink.writtenSince s.sink start = none) :
      Effect p s (.capture name discard) (.faulted (.invariant .readBack) u)
  | misfit {i : Instruction} {v : Violation} {u : State σ ε} (unfit : ¬ Fits p s.stack i) (other : v ≠ .readBack) :
      Effect p s i (.faulted (.invariant v) u)

variable {p : Program} {s t : State σ ε} {i : Instruction} {cell : Cell} {rest : List Cell}

theorem unwind_split {stack : List Cell} {point : RescuePoint} (h : unwind stack = some (point, rest)) :
    ∃ above, stack = above ++ .rescue point :: rest := by
  fun_induction unwind stack with
  | case1 => cases h
  | case2 point' rest' =>
    cases h
    exact ⟨[], rfl⟩
  | case3 cell stack _ ih =>
    obtain ⟨above, rfl⟩ := ih h
    exact ⟨cell :: above, rfl⟩

theorem Effect.push (cell : Cell) (bare : cell.isBare = true) (on : i.ends = false) (other : i.offers = false) :
    Effect p s i (.running { s with
      pc := s.pc + 1, stack := cell :: s.stack, entropy := s.entropy.drop (i.cost s.stack) }) :=
  .shift [] [cell] s.stack rfl (by simpa using bare) (.inl ⟨rfl, on, other⟩)

theorem Effect.pop (hs : s.stack = cell :: rest) {pc : Nat}
    (next : pc = s.pc + 1 ∧ i.ends = false ∧ i.offers = false ∨ pc ∈ i.targets) :
    Effect p s i (.running { s with pc := pc, stack := rest, entropy := s.entropy.drop (i.cost s.stack) }) :=
  .shift [cell] [] rest hs nofun next

theorem Effect.same {pc : Nat} (next : pc = s.pc + 1 ∧ i.ends = false ∧ i.offers = false ∨ pc ∈ i.targets) :
    Effect p s i (.running { s with pc := pc, entropy := s.entropy.drop (i.cost s.stack) }) :=
  .shift [] [] s.stack rfl nofun next

theorem popping_effect {next : Cell → State σ ε → StepResult σ ε} (unfit : ¬ Fits p [] i)
    (h : ∀ cell rest, s.stack = cell :: rest → Effect p s i (next cell { s with pc := s.pc + 1, stack := rest })) :
    Effect p s i (popping { s with pc := s.pc + 1 } next) := by
  unfold popping
  cases hs : s.stack with
  | nil => exact .misfit (by rwa [hs]) nofun
  | cons cell rest => exact h cell rest hs

/-- Going back may start below some cells of the stack. -/
theorem rescue_effect (fails : i = .rescue ∨ ∃ name discard, i = .capture name discard) (above : List Cell)
    (hs : s.stack = above ++ rest) : Effect p s i (rescue { s with pc := s.pc + 1, stack := rest }) := by
  unfold rescue
  split
  · exact .exhausted fails
  · rename_i point below hu
    obtain ⟨between, hu⟩ := unwind_split hu
    have before : s.stack = above ++ between ++ .rescue point :: below := by
      rw [hs, List.append_assoc]
      exact congrArg (above ++ ·) hu
    split
    · rename_i sink restored
      exact .back (above ++ between) below fails before restored
    · rename_i fault sink refused
      have held : .rescue point ∈ s.stack := by
        rw [before]
        simp
      exact .unrestored fails held rfl refused

theorem write_effect (hs : s.stack = cell :: rest) :
    Effect p s .write (write cell { s with pc := s.pc + 1, stack := rest }) := by
  unfold write
  split
  · rename_i none
    refine .misfit ?_ nofun
    rintro ⟨cell', rest', text, hs', spelled⟩
    rw [hs] at hs'
    cases hs'
    rw [none] at spelled
    cases spelled
  · rename_i text spelled
    split
    · rename_i n sink taken
      exact .write hs spelled taken
    · rename_i fault sink refused
      exact .unwritten refused

theorem choose_effect : Effect p s .choose (choose s.pc { s with pc := s.pc + 1 }) := by
  unfold choose
  split
  · rename_i pool rest hs
    have left := pool.reads_draw.left s.entropy
    split
    · rename_i entropy missed
      refine .misfit ?_ nofun
      rintro ⟨pool', rest', hs', filled⟩
      obtain ⟨rfl, -⟩ : pool = pool' ∧ rest = rest' := by simpa using hs.symm.trans hs'
      obtain ⟨x, items, entropy', drawn, -⟩ := pool.draw_spec s.entropy filled
      rw [show pool.draw s.entropy = _ from missed] at drawn
      cases drawn
    · rename_i target pool' entropy drawn
      have drawn : pool.draw s.entropy = (some (target, pool'), entropy) := drawn
      rw [drawn] at left
      obtain rfl : entropy = s.entropy.drop pool.cost := left
      exact .choose hs drawn
  · rename_i other
    refine .misfit ?_ nofun
    rintro ⟨pool, rest, hs, -⟩
    exact other pool rest hs

theorem capture_effect (name : String) (discard : Bool) :
    Effect p s (.capture name discard) (capture name discard { s with pc := s.pc + 1 }) := by
  have unfit (other : ∀ start rest, s.stack ≠ .offset start :: rest) : ¬ Fits p s.stack (.capture name discard) := by
    rintro ⟨start, rest, hs⟩
    exact other start rest hs
  cases hs : s.stack with
  | nil =>
    simp only [capture]
    exact .misfit (unfit (by simp [hs])) nofun
  | cons cell rest =>
    cases cell with
    | offset start =>
      simp only [capture]
      cases read : Sink.writtenSince s.sink start with
      | none => exact .unread hs read
      | some bytes =>
        simp only
        cases spelled : Utf8.toString? bytes with
        | none => exact rescue_effect (.inr ⟨name, discard, rfl⟩) [.offset start] hs
        | some text =>
          cases discard with
          | false => exact .keep hs read spelled
          | true =>
            simp only [if_true]
            split
            · rename_i sink restored
              exact .discard hs read spelled restored
            · rename_i fault sink refused
              exact .unrestored (.inr ⟨name, true, rfl⟩) (by rw [hs]; exact List.mem_cons_self) rfl refused
    | _ =>
      simp only [capture]
      exact .misfit (unfit (by simp [hs])) nofun

theorem evaluate_effect {index : Nat} {code : String} (script : p.scripts[index]? = some code) :
    Effect p s (.eval index) (Machine.evaluate code { s with pc := s.pc + 1 }) := by
  unfold evaluate
  rcases he : Evaluator.evaluate s.evaluator code s.bindings with ⟨⟨⟩ | ⟨v⟩, b, e⟩
  · exact .unevaluated
  · exact .evaluate script he

theorem step_effect (hi : p.code[s.pc]? = some i) : Effect p s i (step p s) := by
  simp only [step, hi]
  cases i with
  | pushLiteral index =>
    simp only [execute]
    split
    · exact .push _ rfl rfl rfl
    · rename_i missing
      refine .misfit (fun within => ?_) nofun
      exact absurd within (by simpa [Fits] using missing)
  | pushInteger low high =>
    simp only [execute, Machine.push, (Entropy.reads_integer low high).left]
    exact .push _ rfl rfl rfl
  | pushFloat low high =>
    simp only [execute, Machine.push, (Entropy.reads_float low high).left]
    exact .push _ rfl rfl rfl
  | pushCount n => exact .push _ rfl rfl rfl
  | pushCandidates cs => exact .offer cs
  | pop => exact popping_effect (by simp [Fits]) fun cell rest hs => .pop hs (.inl ⟨rfl, rfl, rfl⟩)
  | dec =>
    simp only [execute]
    split
    · rename_i n rest hs
      exact .shift [.int n] [.int (n - 1)] rest hs (by simp [Cell.isBare]) (.inl ⟨rfl, rfl, rfl⟩)
    · rename_i other
      refine .misfit ?_ nofun
      rintro ⟨n, rest, hs, -⟩
      exact other n rest hs
  | jumpIfZero target =>
    simp only [execute]
    split
    · split
      · exact .same (.inr (List.mem_singleton.2 rfl))
      · exact .same (.inl ⟨rfl, rfl, rfl⟩)
    · rename_i other
      refine .misfit ?_ nofun
      rintro ⟨n, rest, hs, -⟩
      exact other n rest hs
  | jumpIf target =>
    simp only [execute]
    refine popping_effect (by simp [Fits]) fun cell rest hs => ?_
    split
    · split
      · exact .pop hs (.inr (List.mem_singleton.2 rfl))
      · exact .pop hs (.inl ⟨rfl, rfl, rfl⟩)
    · rename_i other
      refine .misfit ?_ nofun
      rintro ⟨v, rest', hs'⟩
      rw [hs] at hs'
      cases hs'
      exact other v rfl
  | flip target =>
    simp only [execute, Entropy.reads_coin.left]
    split
    · exact .same (.inl ⟨rfl, rfl, rfl⟩)
    · exact .same (.inr (List.mem_singleton.2 rfl))
  | jump target => exact .same (.inr (List.mem_singleton.2 rfl))
  | call target => exact .call target
  | ret =>
    simp only [execute]
    refine popping_effect (by simp [Fits]) fun cell rest hs => ?_
    split
    · exact .ret hs
    · rename_i other
      refine .misfit ?_ nofun
      rintro ⟨a, rest', hs'⟩
      rw [hs] at hs'
      cases hs'
      exact other a rfl
  | write => exact popping_effect (by simp [Fits]) fun _ _ => write_effect
  | eval index =>
    simp only [execute]
    split
    · rename_i code script
      exact evaluate_effect script
    · rename_i missing
      refine .misfit (fun within => ?_) nofun
      exact absurd within (by simpa [Fits] using missing)
  | choose => exact choose_effect
  | pushRescuePoint resume => exact .guard resume
  | rescue => exact rescue_effect (.inl rfl) [] rfl
  | pushOffset => exact .mark
  | capture name discard => exact capture_effect name discard
  | halt => exact .halt

theorem exists_effect (h : step p s = .running t) : ∃ i, p.code[s.pc]? = some i ∧ Effect p s i (.running t) := by
  cases hi : p.code[s.pc]? with
  | none =>
    simp only [step, hi] at h
    cases h
  | some i => exact ⟨i, rfl, h ▸ step_effect hi⟩

end Machine
end TextGrammar
