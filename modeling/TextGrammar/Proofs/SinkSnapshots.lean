import TextGrammar.Proofs.StackSafety
import TextGrammar.Proofs.TransactionalSinks
set_option autoImplicit false

/-!
# Snapshots in stack order

Rescue points and offsets hold positions of the sink. Each is the position of a state in which that cell was on top of
the stack, and from that state on the cell has stood with all cells below it. Nothing but text has been appended since,
apart from what was taken back again. So to go back to the position of a cell is to go back to the output of its state.
-/
namespace TextGrammar
open Grammar Machine TransactionalSink

variable {σ ε : Type} [Sink σ]

namespace Machine

def Saves (s : State σ ε) : Cell → Prop
  | .rescue point => point.position = Sink.position s.sink ∧ point.bindings = s.bindings
  | .offset position => position = Sink.position s.sink
  | _ => False

theorem Saves.position_eq {s : State σ ε} {cell : Cell} (h : Saves s cell) :
    cell.position? = some (Sink.position s.sink) := by
  match cell, h with
  | .rescue point, h => exact congrArg some h.1
  | .offset position, h => exact congrArg some h

section
variable [TransactionalSink σ]

/-- What a step does to the stack and to the sink, as far as positions of the sink are concerned. -/
inductive Moves (s t : State σ ε) : Prop where
  /-- Some cells give way to others that hold no position. -/
  | plain (gone new below : List Cell) (before : s.stack = gone ++ below) (after : t.stack = new ++ below)
      (unmarked : ∀ c ∈ new, c.position? = none) (kept : Extends s.sink t.sink)
  /-- A cell with a position is pushed on top of such an exchange. -/
  | mark (gone new below : List Cell) (cell : Cell) (before : s.stack = gone ++ below)
      (after : t.stack = cell :: (new ++ below)) (unmarked : ∀ c ∈ new, c.position? = none)
      (same : gone.length = new.length) (saves : Saves t cell) (kept : t.sink = s.sink)
  /-- The sink goes back to the position of a cell, which is taken off with all cells above it. -/
  | back (above below : List Cell) (cell : Cell) (position : Nat) (before : s.stack = above ++ cell :: below)
      (after : t.stack = below) (held : cell.position? = some position)
      (restored : Sink.restore s.sink position = (.ok (), t.sink))

variable {s t : State σ ε} {cell : Cell}

theorem Moves.push (after : t.stack = cell :: s.stack) (unmarked : cell.position? = none) (kept : t.sink = s.sink) :
    Moves s t :=
  .plain [] [cell] s.stack rfl after (by simpa using unmarked) (.of_eq (by rw [kept]))

theorem Moves.pop (before : s.stack = cell :: t.stack) (kept : Extends s.sink t.sink) : Moves s t :=
  .plain [cell] [] t.stack before rfl nofun kept

theorem step_moves [Evaluator ε] {p : Program} (h : step p s = .running t) : Moves s t := by
  obtain ⟨i, -, effect⟩ := exists_effect h
  cases effect with
  | shift gone new below before bare _ =>
    exact .plain gone new below before rfl (fun c hc => Cell.position?_of_isBare (bare c hc)) (.refl _)
  | offer _ => exact .push rfl rfl rfl
  | @choose pool pool' _ rest before _ =>
    by_cases one : pool.size = 1
    · refine .plain [.candidates pool] [.placeholder, .candidates pool'] rest before ?_ ?_ (.refl _)
      · simp only [one, if_true]
        rfl
      · simp [Cell.position?]
    · refine .mark [.candidates pool] [.candidates pool'] rest (.rescue (rescuePoint s.pc s)) before ?_ ?_ rfl
        ⟨rfl, rfl⟩ rfl
      · simp only [one, if_false]
        rfl
      · simp [Cell.position?]
  | call _ => exact .push rfl rfl rfl
  | ret before => exact .pop before (.refl _)
  | write before _ taken => exact .pop before ⟨_, content_write taken⟩
  | evaluate _ _ => exact .push rfl rfl rfl
  | guard resume => exact .mark [] [] s.stack (.rescue (rescuePoint resume s)) rfl rfl nofun rfl ⟨rfl, rfl⟩ rfl
  | mark => exact .mark [] [] s.stack (.offset _) rfl rfl nofun rfl rfl rfl
  | keep before _ _ => exact .pop before (.refl _)
  | discard before _ _ restored => exact .back [] _ (.offset _) _ before rfl rfl restored
  | back above rest _ before restored => exact .back above rest (.rescue _) _ before rfl rfl restored

end

variable [Evaluator ε]

/-- A part of a run in all of whose states the stack ends in the same cells. -/
inductive Stands (p : Program) (cells : List Cell) : State σ ε → State σ ε → Prop where
  | here {s : State σ ε} (h : cells <:+ s.stack) : Stands p cells s s
  | next {s u v : State σ ε} (before : Stands p cells s u) (last : step p u = .running v) (h : cells <:+ v.stack) :
      Stands p cells s v

structure Pushed (p : Program) (first s : State σ ε) (cell : Cell) (below : List Cell) : Prop where
  pushes : ∃ u, Reachable p first u ∧ step p u = .running s ∧ u.stack.length = below.length
  stack : s.stack = cell :: below
  saves : Saves s cell

variable {p : Program} {first m s t u : State σ ε} {cell : Cell} {cells below above : List Cell} {position : Nat}

theorem Stands.tail (h : Stands p (cell :: cells) s t) : Stands p cells s t := by
  have ends := List.suffix_cons cell cells
  induction h with
  | here h => exact .here (ends.trans h)
  | next _ last h ih => exact .next ih last (ends.trans h)

theorem Stands.trans (h : Stands p cells s t) (h' : Stands p cells t u) : Stands p cells s u := by
  induction h' with
  | here _ => exact h
  | next _ last hv ih => exact .next ih last hv

variable [TransactionalSink σ]

/-- Where the cells with positions on the stack of a state come from. -/
inductive History (p : Program) (first : State σ ε) : List Cell → State σ ε → Prop where
  | bottom {s : State σ ε} (kept : Extends first.sink s.sink) : History p first [] s
  | plain {s : State σ ε} {cell : Cell} {below : List Cell} (unmarked : cell.position? = none)
      (rest : History p first below s) : History p first (cell :: below) s
  | mark {m s : State σ ε} {cell : Cell} {below : List Cell} (pushed : Pushed p first m cell below)
      (rest : History p first below m) (stands : Stands p (cell :: below) m s) (kept : Extends m.sink s.sink) :
      History p first (cell :: below) s

/-- A history goes on as long as its cells stand and nothing but text is appended. -/
theorem History.onward (h : History p first cells m) (stands : Stands p cells m s) (kept : Extends m.sink s.sink) :
    History p first cells s := by
  induction h with
  | bottom before => exact .bottom (before.trans kept)
  | plain unmarked _ ih => exact .plain unmarked (ih stands.tail kept)
  | mark pushed rest before kept' _ => exact .mark pushed rest (before.trans stands) (kept'.trans kept)

theorem History.tail (h : History p first (cell :: cells) s) : History p first cells s := by
  cases h with
  | plain _ rest => exact rest
  | mark _ rest stands kept => exact rest.onward stands.tail kept

theorem History.drop (h : History p first (above ++ cells) s) : History p first cells s := by
  induction above with
  | nil => exact h
  | cons cell above ih => exact ih h.tail

theorem History.cover (h : History p first cells s) (unmarked : ∀ c ∈ above, c.position? = none) :
    History p first (above ++ cells) s := by
  induction above with
  | nil => exact h
  | cons cell above ih =>
    exact .plain (unmarked cell List.mem_cons_self) (ih fun c hc => unmarked c (List.mem_cons_of_mem _ hc))

/-- A cell with a position was pushed in a state whose output is still there. -/
theorem History.pushed (h : History p first (cell :: below) s) (held : cell.position? = some position) :
    ∃ m, Pushed p first m cell below ∧ History p first below m ∧ Stands p (cell :: below) m s ∧
      Extends m.sink s.sink ∧ position = Sink.position m.sink := by
  cases h with
  | plain unmarked _ =>
    rw [unmarked] at held
    cases held
  | mark pushed rest stands kept =>
    refine ⟨_, pushed, rest, stands, kept, ?_⟩
    exact Option.some.inj (held.symm.trans pushed.saves.position_eq)

theorem History.step (h : History p first s.stack s) (hs : Reachable p first s)
    (last : Machine.step p s = .running t) : History p first t.stack t := by
  cases step_moves last with
  | plain gone new below before after unmarked kept =>
    have stands : Stands p below s t := .next (.here ⟨gone, before.symm⟩) last ⟨new, after.symm⟩
    rw [before] at h
    rw [after]
    exact (h.drop.onward stands kept).cover unmarked
  | mark gone new below cell before after unmarked same saves kept =>
    have stands : Stands p below s t := .next (.here ⟨gone, before.symm⟩) last ⟨cell :: new, after.symm⟩
    have pushed : Pushed p first t cell (new ++ below) :=
      ⟨⟨s, hs, last, by rw [before, List.length_append, List.length_append, same]⟩, after, saves⟩
    rw [before] at h
    rw [after]
    have rest := (h.drop.onward stands (.of_eq (by rw [kept]))).cover unmarked
    exact .mark pushed rest (.here ⟨[], after.symm⟩) (.refl _)
  | back above below cell position before after held restored =>
    rw [before] at h
    rw [after]
    -- the sink goes back to the state of the cell, from where the cells below have their history
    obtain ⟨m, -, rest, stands, ⟨text, ht⟩, rfl⟩ := h.drop.pushed held
    obtain ⟨sink, hr, hc⟩ := restore_eq ht
    have same : t.sink = sink := congrArg Prod.snd (restored.symm.trans hr)
    exact rest.onward (.next stands.tail last ⟨[], after.symm⟩) (.of_eq (by rw [same, hc]))

theorem history_initial (p : Program) (start : Option Nat) (sink : σ) (evaluator : ε) (entropy : Entropy) :
    History p (initial p start sink evaluator entropy) (initial p start sink evaluator entropy).stack
      (initial p start sink evaluator entropy) := by
  cases start with
  | none => exact .bottom (.refl _)
  | some a => exact .plain rfl (.bottom (.refl _))

theorem history_of_reachable {start : Option Nat} {sink : σ} {evaluator : ε} {entropy : Entropy}
    (hs : Reachable p (initial p start sink evaluator entropy) s) :
    History p (initial p start sink evaluator entropy) s.stack s :=
  hs.induct (fun s => History p _ s.stack s) (history_initial p start sink evaluator entropy)
    fun _ _ reached h last => h.step reached last

def positions (stack : List Cell) : List Nat := stack.reverse.filterMap Cell.position?

omit [Sink σ] [Evaluator ε] [TransactionalSink σ] in
theorem positions_cons (cell : Cell) (below : List Cell) :
    positions (cell :: below) = positions below ++ cell.position?.toList := by
  rw [positions, List.reverse_cons, List.filterMap_append, positions]
  cases h : cell.position? <;> simp [h]

theorem pairwise_le_concat {l : List Nat} {a b : Nat} (h : (l ++ [a]).Pairwise (· ≤ ·)) (hab : a ≤ b) :
    (l ++ [a] ++ [b]).Pairwise (· ≤ ·) := by
  refine List.pairwise_append.2 ⟨h, List.pairwise_singleton _ _, fun x hx y hy => ?_⟩
  rw [List.mem_singleton] at hy
  subst hy
  rcases List.mem_append.1 hx with hx | hx
  · exact Nat.le_trans ((List.pairwise_append.1 h).2.2 x hx a (List.mem_singleton_self a)) hab
  · rw [List.mem_singleton.1 hx]
    exact hab

theorem History.ordered (h : History p first cells s) :
    (Sink.position first.sink :: positions cells ++ [Sink.position s.sink]).Pairwise (· ≤ ·) := by
  induction h with
  | bottom kept =>
    simpa [positions] using kept.position_le
  | plain unmarked _ ih =>
    rw [positions_cons, unmarked]
    simpa using ih
  | mark pushed _ _ kept ih =>
    rw [positions_cons, pushed.saves.position_eq]
    have more := pairwise_le_concat ih kept.position_le
    simpa using more

/-- What holds of the stack and the sink in a state, and of what the machine asks of the sink there. -/
structure Transacted (p : Program) (first s : State σ ε) : Prop where
  ordered : (Sink.position first.sink :: positions s.stack ++ [Sink.position s.sink]).Pairwise (· ≤ ·)
  saved : ∀ above point below, s.stack = above ++ .rescue point :: below →
    ∃ m, Pushed p first m (.rescue point) below ∧ Stands p (.rescue point :: below) m s ∧
      content m.sink = (content s.sink).take point.position
  restores : ∀ cell ∈ s.stack, ∀ position, cell.position? = some position →
    ∃ sink, Sink.restore s.sink position = (.ok (), sink) ∧ content sink = (content s.sink).take position
  readsBack : ∀ start, .offset start ∈ s.stack →
    ∃ text, Sink.writtenSince s.sink start = some (Utf8.ofString text) ∧
      content s.sink = (content s.sink).take start ++ Utf8.ofString text
  captures : ∀ name discard, p.code[s.pc]? = some (.capture name discard) →
    ∃ start rest text t, s.stack = .offset start :: rest ∧
      Sink.writtenSince s.sink start = some (Utf8.ofString text) ∧ step p s = .running t ∧ t.pc = s.pc + 1 ∧
      t.stack = rest ∧ t.bindings = s.bindings.set name (.str text) ∧
      content t.sink = if discard then (content s.sink).take start else content s.sink
  faults : ∀ fault t, step p s = .faulted fault t →
    (∃ code f, fault = .eval code f) ∨ p.code[s.pc]? = some .write ∧ ∃ f, fault = .sink f

theorem History.restores (h : History p first s.stack s) (hc : cell ∈ s.stack)
    (held : cell.position? = some position) :
    ∃ sink, Sink.restore s.sink position = (.ok (), sink) ∧ content sink = (content s.sink).take position := by
  obtain ⟨above, below, hs⟩ := List.append_of_mem hc
  rw [hs] at h
  obtain ⟨m, -, -, -, kept, rfl⟩ := h.drop.pushed held
  obtain ⟨text, ht⟩ := kept
  obtain ⟨sink, hr, same⟩ := restore_eq ht
  exact ⟨sink, hr, by rw [same, Extends.content_eq ⟨text, ht⟩]⟩

theorem History.readsBack {start : Nat} (h : History p first s.stack s) (hc : .offset start ∈ s.stack) :
    ∃ text, Sink.writtenSince s.sink start = some (Utf8.ofString text) ∧
      content s.sink = (content s.sink).take start ++ Utf8.ofString text := by
  obtain ⟨above, below, hs⟩ := List.append_of_mem hc
  rw [hs] at h
  obtain ⟨m, -, -, -, kept, rfl⟩ := h.drop.pushed rfl
  obtain ⟨text, ht⟩ := kept
  exact ⟨text, writtenSince_eq ht, by rw [← Extends.content_eq ⟨text, ht⟩, ht]⟩

theorem History.captures {name : String} {discard : Bool} (h : History p first s.stack s) (safe : Safe p s)
    (hi : p.code[s.pc]? = some (.capture name discard)) :
    ∃ start rest text t, s.stack = .offset start :: rest ∧
      Sink.writtenSince s.sink start = some (Utf8.ofString text) ∧ Machine.step p s = .running t ∧ t.pc = s.pc + 1 ∧
      t.stack = rest ∧ t.bindings = s.bindings.set name (.str text) ∧
      content t.sink = if discard then (content s.sink).take start else content s.sink := by
  obtain ⟨i, hi', fits⟩ := safe
  rw [hi] at hi'
  cases hi'
  obtain ⟨start, rest, hs⟩ := fits
  have held : .offset start ∈ s.stack := by rw [hs]; exact List.mem_cons_self
  obtain ⟨text, hr, -⟩ := h.readsBack held
  obtain ⟨sink, back, hc⟩ := h.restores held rfl
  cases discard with
  | false =>
    refine ⟨start, rest, text, ⟨s.pc + 1, rest, s.bindings.set name (.str text), s.sink, s.evaluator, s.entropy⟩,
      hs, hr, ?_, rfl, rfl, rfl, rfl⟩
    simp only [Machine.step, hi, execute, capture, hs, hr, Utf8.toString?_ofString]
    rfl
  | true =>
    refine ⟨start, rest, text, ⟨s.pc + 1, rest, s.bindings.set name (.str text), sink, s.evaluator, s.entropy⟩,
      hs, hr, ?_, rfl, rfl, rfl, hc⟩
    simp only [Machine.step, hi, execute, capture, hs, hr, Utf8.toString?_ofString, back]
    rfl

theorem History.faults {fault : RunFault} (h : History p first s.stack s) (safe : Safe p s)
    (last : Machine.step p s = .faulted fault t) :
    (∃ code f, fault = .eval code f) ∨ p.code[s.pc]? = some .write ∧ ∃ f, fault = .sink f := by
  have order := step_inOrder safe
  rw [last] at order
  match fault, order with
  | .eval code f, _ => exact .inl ⟨code, f, rfl⟩
  | .sink f, .inl hi => exact .inr ⟨hi, f, rfl⟩
  | .sink f, .inr ⟨cell, hc, position, held, refused⟩ =>
    obtain ⟨sink, hr, -⟩ := h.restores hc held
    rw [hr] at refused
    cases refused
  | .invariant v, ⟨_, start, rest, hs, missing⟩ =>
    have held : .offset start ∈ s.stack := by rw [hs]; exact List.mem_cons_self
    obtain ⟨text, hr, -⟩ := h.readsBack held
    rw [hr] at missing
    cases missing

end Machine

variable [Evaluator ε]

/-- In every state of a run of a compiled program the positions on the stack are in order, the output and the bindings
of every rescue point can be gone back to, and no restoring, reading back or capturing fails. -/
theorem compiled_run_transacted {source : String} {p : Program} {start : Option String} {address : Option Nat}
    (hp : Program.compile source = .ok p) (ha : p.start? start = some address) (sink : σ) [TransactionalSink σ]
    (evaluator : ε) (entropy : Entropy) (s : State σ ε)
    (hs : Reachable p (initial p address sink evaluator entropy) s) :
    Transacted p (initial p address sink evaluator entropy) s := by
  have history := history_of_reachable hs
  have safe := safe_of_reachable hp ha hs
  refine ⟨history.ordered, fun above point below split => ?_, fun cell hc position held => history.restores hc held,
    fun start hc => history.readsBack hc, fun name discard hi => history.captures safe hi,
    fun fault t last => history.faults safe last⟩
  rw [split] at history
  obtain ⟨m, pushed, -, stands, kept, hpos⟩ := history.drop.pushed rfl
  exact ⟨m, pushed, stands, by rw [hpos, ← kept.content_eq]⟩

/-- A run on output that was there before, which goes back once and ends. -/
theorem compiled_run_transacted_undone : ∃ p s x,
    Program.compile "'a' \x7bcapture x\x7d ('b' \x7b?nil\x7d)? \x7b=x\x7d" = .ok p ∧
    Reachable p (initial p none ([33] : Bytes) Script.Engine.empty [1]) s ∧
    (step p s).ending? = some x ∧ x.state.sink = [33, 97, 97] ∧
    Transacted p (initial p none ([33] : Bytes) Script.Engine.empty [1]) s := by
  obtain ⟨p, u, hp, hrun, hu⟩ := @Program.exists_run Bytes Script.Engine _ _
    "'a' \x7bcapture x\x7d ('b' \x7b?nil\x7d)? \x7b=x\x7d" 40 [33] [33, 97, 97] .empty [1] true (by decide +kernel)
  obtain ⟨n, s, hn, hx⟩ := run_eq_some hrun
  have transacted := @compiled_run_transacted Bytes Script.Engine _ _ _ p none none hp rfl [33] _ .empty [1] s ⟨n, hn⟩
  exact ⟨p, s, _, hp, ⟨n, hn⟩, hx, hu, transacted⟩

end TextGrammar
