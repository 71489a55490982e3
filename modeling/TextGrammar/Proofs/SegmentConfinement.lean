import TextGrammar.Output.Memory
import TextGrammar.Proofs.Segments
import TextGrammar.Script.Engine
set_option autoImplicit false

/-!
# Control stays in its segment

What is on the stack in a run leads back to where it was pushed: a return address to the instruction behind a call, and
a rescue point to a segment that pushed it. So control leaves a segment by a call, a return or a failure only, and is
never past the end of the code.
-/
namespace TextGrammar
open Grammar Emission Machine

variable {σ ε : Type}

/-- An address behind a call, or that of the halt. -/
def Program.ReturnsTo (p : Program) (a : Nat) : Prop :=
  a = p.haltAt ∨ ∃ b c, a = b + 1 ∧ p.code[b]? = some (.call c)

/-- An address that a rescue point is pushed for, or that of a choice. -/
def Program.ResumesAt (p : Program) (a : Nat) : Prop :=
  (∃ b : Nat, p.code[b]? = some (.pushRescuePoint a)) ∨ p.code[a]? = some .choose

namespace Machine

def StepResult.next? : StepResult σ ε → Option (State σ ε)
  | .running t => some t
  | _ => none

theorem StepResult.next?_eq_some {r : StepResult σ ε} {t : State σ ε} : r.next? = some t ↔ r = .running t := by
  cases r <;> simp [next?]

/-- How control gets from one state to the next. -/
inductive Passes (p : Program) (s t : State σ ε) : Prop where
  | within {seg : Segment} (among : seg ∈ p.segments) (here : s.pc ∈ seg) (there : t.pc ∈ seg)
  | call {name : String} (calls : p.code[s.pc]? = some (.call t.pc)) (rule : p.rule? name = some t.pc)
  | ret (returns : p.code[s.pc]? = some .ret) (popped : s.stack = .address t.pc :: t.stack)
      (behind : p.ReturnsTo t.pc)
  | failure {i : Instruction} {point : RescuePoint} (fails : p.code[s.pc]? = some i)
      (kind : i = .rescue ∨ ∃ name discard, i = .capture name discard) (pushed : .rescue point ∈ s.stack)
      (resumed : t.pc = point.resume) (resumes : p.ResumesAt t.pc)

def Offers (p : Program) (a : Nat) (stack : List Cell) : Prop :=
  ∃ b cs pool rest, a = b + 1 ∧ p.code[b]? = some (.pushCandidates cs) ∧ stack = .candidates pool :: rest ∧
    (candidatePool cs).LeftOver pool

theorem target_mem_of_leftOver {cs : List Candidate} {pool : Pool Nat} (h : (candidatePool cs).LeftOver pool)
    {x : Float × Nat} (hx : x ∈ pool.items) : x.2 ∈ cs.map Candidate.target := by
  obtain ⟨c, hc, rfl⟩ := List.mem_map.1 (h.sublist.subset hx)
  exact List.mem_map_of_mem hc

def Recalls (p : Program) (below : List Cell) : Cell → Prop
  | .address a => p.ReturnsTo a
  | .rescue point => (∃ b : Nat, p.code[b]? = some (.pushRescuePoint point.resume)) ∨
      p.code[point.resume]? = some .choose ∧ Offers p point.resume below
  | _ => True

def Remembers (p : Program) : List Cell → Prop
  | [] => True
  | cell :: below => Recalls p below cell ∧ Remembers p below

/-- The invariant of a run. -/
structure InPlace (p : Program) (s : State σ ε) : Prop where
  remembers : Remembers p s.stack
  offers : p.code[s.pc]? = some .choose → Offers p s.pc s.stack
  inside : ∃ seg ∈ p.segments, s.pc ∈ seg

theorem remembers_below {p : Program} {above below : List Cell} (h : Remembers p (above ++ below)) :
    Remembers p below := by
  induction above with
  | nil => exact h
  | cons cell above ih => exact ih h.2

theorem remembers_bare {p : Program} {new below : List Cell} (bare : ∀ c ∈ new, c.isBare = true)
    (h : Remembers p below) : Remembers p (new ++ below) := by
  induction new with
  | nil => exact h
  | cons cell new ih =>
    refine ⟨?_, ih fun c hc => bare c (List.mem_cons_of_mem _ hc)⟩
    have bare := bare cell List.mem_cons_self
    cases cell <;> trivial

end Machine

namespace Closed

variable {p : Program} {g : Grammar} {e : Expr} {a b : Nat} {i : Instruction} {seg : Segment} {s t : State σ ε}

theorem segment (h : Closed p g e) (hi : p.code[a]? = some i) : ∃ seg ∈ p.segments, a ∈ seg ∧
    (∃ f, Confined p (symbols g) seg f) ∧ (i.ends = false → a + 1 ∈ seg) := by
  obtain ⟨seg, ⟨among, here⟩, -⟩ := h.covered a (Array.getElem?_eq_some_iff.1 hi).choose
  obtain ⟨k, hk⟩ := List.mem_iff_getElem?.1 among
  have within : k < p.segments.length := (List.getElem?_eq_some_iff.1 hk).choose
  have rules : p.rules.length = g.rules.length := by
    have same := congrArg List.length h.names
    rwa [List.length_map, Grammar.names, List.length_map] at same
  have root : k < (e :: g.rules.map Rule.body).length := by
    rw [p.length_segments, rules] at within
    simpa using within
  refine ⟨seg, among, here, ⟨_, h.confined k seg _ hk (List.getElem?_eq_getElem root)⟩, fun on => ?_⟩
  by_contra out
  have last : a + 1 = seg.stop := by
    have from_first := here.1
    have to_last := here.2
    rw [Segment.mem_iff] at out
    omega
  cases k with
  | zero =>
    have first := h.first
    rw [List.head?_eq_getElem?, hk] at first
    cases first
    have end_of_entry : p.code[a]? = some .halt := (h.halt a).2 (by simpa using last)
    rw [hi] at end_of_entry
    cases end_of_entry
    cases on
  | succ k =>
    obtain ⟨⟨name, start⟩, rule⟩ : ∃ r, p.rules[k]? = some r := by
      rw [p.length_segments] at within
      exact ⟨_, List.getElem?_eq_getElem (by omega)⟩
    obtain ⟨-, stop, there, -, leaves⟩ := h.rules k name start rule
    rw [hk] at there
    cases there
    obtain rfl : a = stop := by simpa using last
    rw [hi] at leaves
    cases leaves
    cases on

theorem unique (h : Closed p g e) {seg' : Segment} (among : seg ∈ p.segments) (among' : seg' ∈ p.segments)
    (here : a ∈ seg) (here' : a ∈ seg') : seg = seg' := by
  have within : a < p.size := Nat.lt_of_lt_of_le here.2 (h.within seg among)
  exact (h.covered a within).unique ⟨among, here⟩ ⟨among', here'⟩

/-- A rule starts a segment, and not with a choice. -/
theorem rule_starts (h : Closed p g e) {name : String} (ha : p.rule? name = some a) :
    (∃ seg ∈ p.segments, a ∈ seg) ∧ p.code[a]? ≠ some .choose := by
  obtain ⟨before, after, split, -⟩ := List.lookup_eq_some_iff.1 ha
  have rule : p.rules[before.length]? = some (name, a) := by rw [split]; simp
  obtain ⟨-, stop, there, nonempty, -⟩ := h.rules _ name a rule
  have among := List.mem_of_getElem? there
  have here : a ∈ (⟨a, stop + 1⟩ : Segment) := ⟨Nat.le_refl a, Nat.lt_succ_of_le nonempty⟩
  refine ⟨⟨_, among, here⟩, fun choice => ?_⟩
  -- the candidates before it would be in the same segment
  obtain ⟨b, cs, rfl, push⟩ := h.led a choice
  obtain ⟨seg, among', from_first, -, next⟩ := h.segment push
  have same := h.unique among among' here (next rfl)
  rw [← same] at from_first
  exact absurd from_first.1 (Nat.not_succ_le_self b)

theorem call_lands (h : Closed p g e) (hi : p.code[a]? = some (.call b)) :
    ((∃ name, p.rule? name = some b) ∨ ∃ seg ∈ p.segments, a ∈ seg ∧ b ∈ seg) ∧
      (∃ seg ∈ p.segments, b ∈ seg) ∧ p.code[b]? ≠ some .choose := by
  obtain ⟨seg, among, here, ⟨f, confined⟩, -⟩ := h.segment hi
  rcases confined.calls a here b hi with ⟨name, rule⟩ | ⟨body, least, most, pos, -, there, -, subroutine⟩
  · exact ⟨.inl ⟨name, rule⟩, h.rule_starts rule⟩
  · obtain ⟨c, rfl, jump⟩ := subroutine.skipped
    exact ⟨.inr ⟨seg, among, here, there⟩, ⟨seg, among, there⟩, h.led.not_choose jump rfl⟩

theorem return_lands (h : Closed p g e) (ha : p.ReturnsTo a) :
    (∃ seg ∈ p.segments, a ∈ seg) ∧ p.code[a]? ≠ some .choose := by
  rcases ha with rfl | ⟨b, c, rfl, call⟩
  · have halt := (h.halt p.haltAt).2 rfl
    obtain ⟨seg, among, here, -⟩ := h.segment halt
    exact ⟨⟨seg, among, here⟩, by simp [halt]⟩
  · obtain ⟨seg, among, -, -, next⟩ := h.segment call
    exact ⟨⟨seg, among, next rfl⟩, h.led.not_choose call rfl⟩

/-- Where a target leads: on in the segment. -/
theorem target_lands (h : Closed p g e) (hi : p.code[a]? = some i) (hb : b ∈ i.targets) :
    (∃ seg ∈ p.segments, a ∈ seg ∧ b ∈ seg) ∧ p.code[b]? ≠ some .choose := by
  obtain ⟨seg, among, here, ⟨f, confined⟩, -⟩ := h.segment hi
  exact ⟨⟨seg, among, here, confined.targets a here i hi b hb⟩, h.entered a i hi b hb⟩

variable (h : Closed p g e)
include h

/-- The machine goes on with the next instruction, which is a choice only if its candidates have been pushed. -/
theorem goes_on (hi : p.code[s.pc]? = some i) (on : i.ends = false) (ht : t.pc = s.pc + 1)
    (offers : i.offers = true → Offers p t.pc t.stack) (remembers : Remembers p t.stack) :
    InPlace p t ∧ Passes p s t := by
  obtain ⟨seg, among, here, -, next⟩ := h.segment hi
  have there : t.pc ∈ seg := by
    rw [ht]
    exact next on
  refine ⟨⟨remembers, fun choice => ?_, seg, among, there⟩, .within among here there⟩
  rw [ht] at choice
  by_contra without
  exact h.led.not_choose hi (Bool.eq_false_iff.2 fun pushed => without (offers pushed)) choice

theorem goes_behind (hi : p.code[s.pc]? = some i) (on : i.ends = false) (other : i.offers = false)
    (ht : t.pc = s.pc + 1) (remembers : Remembers p t.stack) : InPlace p t ∧ Passes p s t :=
  h.goes_on hi on ht (fun offers => absurd (other.symm.trans offers) Bool.false_ne_true) remembers

theorem goes_to (hi : p.code[s.pc]? = some i) (ht : t.pc ∈ i.targets) (remembers : Remembers p t.stack) :
    InPlace p t ∧ Passes p s t := by
  obtain ⟨⟨seg, among, here, there⟩, entered⟩ := h.target_lands hi ht
  exact ⟨⟨remembers, fun choice => absurd choice entered, seg, among, there⟩, .within among here there⟩

/-- A failure leads to where the latest rescue point says. -/
theorem fails (hi : p.code[s.pc]? = some i) (kind : i = .rescue ∨ ∃ name discard, i = .capture name discard)
    {above : List Cell} {point : RescuePoint} (before : s.stack = above ++ .rescue point :: t.stack)
    (resumed : t.pc = point.resume) (remembers : Remembers p s.stack) : InPlace p t ∧ Passes p s t := by
  have pushed : .rescue point ∈ s.stack := by
    rw [before]
    simp
  rw [before] at remembers
  obtain ⟨recalls, below⟩ := remembers_below remembers
  simp only [Recalls, ← resumed] at recalls
  rcases recalls with ⟨b, point_at⟩ | ⟨choice, offers⟩
  · obtain ⟨⟨seg, among, -, there⟩, entered⟩ := h.target_lands point_at (List.mem_singleton.2 rfl)
    exact ⟨⟨below, fun choice => absurd choice entered, seg, among, there⟩,
      .failure hi kind pushed resumed (.inl ⟨b, point_at⟩)⟩
  · obtain ⟨seg, among, here, -⟩ := h.segment choice
    exact ⟨⟨below, fun _ => offers, seg, among, here⟩, .failure hi kind pushed resumed (.inr choice)⟩

theorem chooses (hi : p.code[s.pc]? = some .choose) (hs : InPlace p s) {pool pool' : Pool Nat} {rest : List Cell}
    {entropy : Entropy} (before : s.stack = .candidates pool :: rest)
    (drawn : pool.draw s.entropy = (some (t.pc, pool'), entropy)) {cell : Cell}
    (after : t.stack = cell :: .candidates pool' :: rest)
    (held : cell = .placeholder ∨ ∃ point, cell = .rescue point ∧ point.resume = s.pc) : InPlace p t ∧ Passes p s t := by
  obtain ⟨b, cs, offered, below, at_b, push, stack, left⟩ := hs.offers hi
  obtain ⟨rfl, rfl⟩ : offered = pool ∧ below = rest := by simpa using stack.symm.trans before
  have remembers := hs.remembers
  rw [before] at remembers
  have offers : Offers p s.pc (.candidates pool' :: below) := ⟨b, cs, pool', below, at_b, push, rfl, left.draw drawn⟩
  obtain ⟨among, -⟩ := Pool.mem_of_draw drawn
  obtain ⟨x, hx, target⟩ := List.mem_map.1 among
  obtain ⟨⟨seg, among, here, there⟩, entered⟩ := h.target_lands push (target_mem_of_leftOver left hx)
  rw [target] at there entered
  obtain ⟨seg', among', here', -, next⟩ := h.segment push
  obtain rfl := h.unique among among' here here'
  have inside : s.pc ∈ seg := by
    rw [at_b]
    exact next rfl
  refine ⟨⟨?_, fun choice => absurd choice entered, seg, among, there⟩, .within among inside there⟩
  rw [after]
  refine ⟨?_, trivial, remembers.2⟩
  obtain rfl | ⟨point, rfl, resume⟩ := held
  · trivial
  · simp only [Recalls, resume]
    exact .inr ⟨hi, offers⟩

theorem step_inPlace [Sink σ] [Evaluator ε] (hs : InPlace p s) (first : step p s = .running t) :
    InPlace p t ∧ Passes p s t := by
  obtain ⟨i, hi, effect⟩ := exists_effect first
  have remembers := hs.remembers
  cases effect with
  | shift gone new below before bare next =>
    rw [before] at remembers
    have remembers := remembers_bare bare (remembers_below remembers)
    rcases next with ⟨next, on, other⟩ | target
    · exact h.goes_behind hi on other next remembers
    · exact h.goes_to hi target remembers
  | offer cs => exact h.goes_on hi rfl rfl (fun _ => ⟨s.pc, cs, _, _, rfl, hi, rfl, .all⟩) ⟨trivial, remembers⟩
  | @choose pool pool' target rest before drawn =>
    refine h.chooses hi hs before drawn rfl ?_
    split
    · exact .inl rfl
    · exact .inr ⟨_, rfl, rfl⟩
  | call target =>
    obtain ⟨passes, inside, entered⟩ := h.call_lands hi
    refine ⟨⟨⟨.inr ⟨s.pc, target, rfl, hi⟩, remembers⟩, fun choice => absurd choice entered, inside⟩, ?_⟩
    rcases passes with ⟨name, rule⟩ | ⟨seg, among, here, there⟩
    · exact .call hi rule
    · exact .within among here there
  | ret before =>
    rw [before] at remembers
    obtain ⟨inside, entered⟩ := h.return_lands remembers.1
    exact ⟨⟨remembers.2, fun choice => absurd choice entered, inside⟩, .ret hi before remembers.1⟩
  | write before _ _ =>
    rw [before] at remembers
    exact h.goes_behind hi rfl rfl rfl remembers.2
  | evaluate _ _ => exact h.goes_behind hi rfl rfl rfl ⟨trivial, remembers⟩
  | guard resume => exact h.goes_behind hi rfl rfl rfl ⟨.inl ⟨s.pc, hi⟩, remembers⟩
  | mark => exact h.goes_behind hi rfl rfl rfl ⟨trivial, remembers⟩
  | keep before _ _ =>
    rw [before] at remembers
    exact h.goes_behind hi rfl rfl rfl remembers.2
  | discard before _ _ _ =>
    rw [before] at remembers
    exact h.goes_behind hi rfl rfl rfl remembers.2
  | back above rest kind before _ => exact h.fails hi kind before rfl remembers

theorem initial_inPlace {start : Option String} {address : Option Nat} (ha : p.start? start = some address)
    (sink : σ) (evaluator : ε) (entropy : Entropy) : InPlace p (initial p address sink evaluator entropy) := by
  cases start with
  | none =>
    cases ha
    have among : (⟨0, p.haltAt + 1⟩ : Segment) ∈ p.segments := List.mem_of_head? h.first
    refine ⟨trivial, fun choice => ?_, _, among, ⟨Nat.le_refl 0, Nat.succ_pos _⟩⟩
    obtain ⟨b, cs, before, -⟩ := h.led 0 choice
    cases before
  | some name =>
    obtain ⟨a, rule, rfl⟩ := Option.map_eq_some_iff.1 ha
    obtain ⟨inside, entered⟩ := h.rule_starts rule
    exact ⟨⟨.inl rfl, trivial⟩, fun choice => absurd choice entered, inside⟩

/-- A run of a closed program stays where it is told to. -/
theorem run_inPlace [Sink σ] [Evaluator ε] {start : Option String} {address : Option Nat}
    (ha : p.start? start = some address) {sink : σ} {evaluator : ε} {entropy : Entropy}
    (hs : Reachable p (initial p address sink evaluator entropy) s) : InPlace p s :=
  hs.induct (InPlace p) (h.initial_inPlace ha sink evaluator entropy) fun _ _ _ there first =>
    (h.step_inPlace there first).1

end Closed

/-- The program of any source falls into the entry and its rules. Every jump stays in its segment, and every call leads
to a rule or to a repetition in its own segment; so in every run control leaves a segment by a call of a rule, a return or
a failure only, and never runs past the end of the code. -/
theorem compiled_closed {source : String} {p : Program} (hp : Program.compile source = .ok p) :
    ∃ items entry, Grammar.parse source.toList = .ok items ∧
      Assembly.assemble items (Parsing.Parser.byteLength source.toList) = .ok p ∧
      (Grammar.ofItems items).start? none = some entry ∧ Closed p (.ofItems items) entry ∧
      ∀ (σ ε : Type) [Sink σ] [Evaluator ε] (start : Option String) (address : Option Nat) (sink : σ) (evaluator : ε)
        (entropy : Entropy) (s t : State σ ε), p.start? start = some address →
        Reachable p (initial p address sink evaluator entropy) s →
        (∃! seg, seg ∈ p.segments ∧ s.pc ∈ seg) ∧ (step p s = .running t → Passes p s t) := by
  obtain ⟨g, read, sound, rfl⟩ := Program.compile_eq_ok hp
  obtain ⟨items, spelled, fine, same, assembled⟩ := Assembly.assemble_of_compile hp
  obtain rfl : g = .ofItems items := by
    rw [Grammar.read, spelled] at read
    exact (Except.ok.inj read).symm
  obtain ⟨entry, start⟩ := start?_none (isEmpty_of_fault? fine)
  have closed := closed_ofGrammar sound fine start
  refine ⟨items, entry, spelled, assembled, start, closed,
    fun σ ε _ _ name address sink evaluator entropy s t ha hs => ?_⟩
  have there := closed.run_inPlace ha hs
  refine ⟨?_, fun first => (closed.step_inPlace there first).2⟩
  obtain ⟨seg, among, here⟩ := there.inside
  exact closed.covered s.pc (Nat.lt_of_lt_of_le here.2 (closed.within seg among))

/-- A rule with a repetition, called by an entry that spells nothing else. -/
theorem compiled_closed_called : ∃ p items entry t,
    Program.compile "r = 'b'+ \x7b?false\x7d ;" = .ok p ∧ (Grammar.ofItems items).start? none = some entry ∧
    Closed p (.ofItems items) entry ∧ p.segments.map (fun seg => (seg.first, seg.stop)) = [(0, 2), (2, 21)] ∧
    step p (initial p none ([] : Bytes) Script.Engine.empty []) = .running t ∧ t.pc = 2 ∧
    Passes p (initial p none ([] : Bytes) Script.Engine.empty []) t := by
  have parts : (Program.compile "r = 'b'+ \x7b?false\x7d ;").toOption.map (fun p =>
      p.segments.map fun seg => (seg.first, seg.stop)) = some [(0, 2), (2, 21)] := by decide +kernel
  have called : (Program.compile "r = 'b'+ \x7b?false\x7d ;").toOption.bind (fun p =>
      (step p (initial p none ([] : Bytes) Script.Engine.empty [])).next?.map State.pc) = some 2 := by decide +kernel
  cases hp : Program.compile "r = 'b'+ \x7b?false\x7d ;" with
  | error fault => rw [hp] at parts; cases parts
  | ok p =>
    rw [hp] at parts called
    obtain ⟨t, next, at_rule⟩ := Option.map_eq_some_iff.1 called
    have first := StepResult.next?_eq_some.1 next
    obtain ⟨items, entry, -, -, start, closed, stays⟩ := compiled_closed hp
    have passes := (stays Bytes Script.Engine none none [] .empty [] _ t rfl (.refl _)).2 first
    exact ⟨p, items, entry, t, rfl, start, closed, Option.some.inj parts, first, at_rule, passes⟩

end TextGrammar
