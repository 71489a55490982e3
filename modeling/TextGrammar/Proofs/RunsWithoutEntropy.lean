import TextGrammar.Proofs.SegmentConfinement
import TextGrammar.Proofs.LowestExpansions
import TextGrammar.Proofs.Refinement
import TextGrammar.Proofs.EntropyUse
import TextGrammar.Proofs.StackSafety
set_option autoImplicit false

/-!
# Runs without entropy

Once the entropy has run out, a run is a lowest expansion: of every expression whose code it comes to from then on, and
of what is left of those it is in, as the candidates on the stack have been drawn from the pool of a fair choice.
-/
namespace TextGrammar
open Grammar Emission Machine Meaning

def Instruction.Light : Instruction → Prop
  | .pushCandidates cs => ∀ c ∈ cs, Binary64.Light c.weight
  | _ => True

namespace Emission

def LightCode (code : List Instruction) : Prop := ∀ i ∈ code, i.Light

variable {xs ys : List Instruction} {i : Instruction}

theorem light_nil : LightCode [] := nofun

theorem light_cons (hi : i.Light) (h : LightCode xs) : LightCode (i :: xs) := List.forall_mem_cons.2 ⟨hi, h⟩

theorem light_append (hx : LightCode xs) (hy : LightCode ys) : LightCode (xs ++ ys) := List.forall_mem_append.2 ⟨hx, hy⟩

theorem light_leastLoop (base body : Nat) (least : UInt32) : LightCode (leastLoop base body least) := by
  unfold leastLoop
  split
  · exact light_nil
  · repeat refine light_cons trivial ?_
    exact light_nil

theorem light_furtherLoop (base body : Nat) (least : UInt32) (most : Option UInt32) :
    LightCode (furtherLoop base body least most) := by
  cases most with
  | none =>
    repeat refine light_cons trivial ?_
    exact light_nil
  | some most =>
    rw [furtherLoop]
    split
    · exact light_nil
    · repeat refine light_cons trivial ?_
      exact light_nil

theorem light_candidates {alternatives : List (Alternative Expr)} (h : Fair alternatives) (base : Nat) :
    (Instruction.pushCandidates (candidates base alternatives)).Light := by
  intro c hc
  obtain ⟨k, here⟩ := List.mem_iff_getElem?.1 hc
  rw [candidates, List.getElem?_zipWith_eq_some] at here
  obtain ⟨w, a, hw, -, rfl⟩ := here
  exact h.light w (List.mem_of_getElem? hw)

mutual

theorem light_emit (t : Symbols) : ∀ (e : Expr) (base : Nat), e.Every Expr.Fair → LightCode (emit t base e)
  | .literal text, base, _ => light_cons trivial (light_cons trivial light_nil)
  | .generate code, base, _ => light_cons trivial (light_cons trivial light_nil)
  | .action code, base, _ => light_cons trivial (light_cons trivial light_nil)
  | .check code, base, _ => light_cons trivial (light_cons trivial (light_cons trivial light_nil))
  | .range low high pos, base, _ => by
    rw [emit]
    cases span low high <;> exact light_cons trivial (light_cons trivial light_nil)
  | .reference name pos, base, _ => by
    rw [emit, Symbols.callOf]
    cases t.rules.lookup name <;> exact light_cons trivial light_nil
  | .sequence es, base, fair => light_emitAll t es base fair.2
  | .capture body name discard, base, fair => by
    rw [emit]
    exact light_cons trivial (light_append (light_emit t body _ fair.2) (light_cons trivial light_nil))
  | .repetition body least most pos, base, fair => by
    rw [emit]
    split
    · exact light_nil
    · refine light_cons trivial (light_append (light_append (light_emit t body _ fair.2) (light_cons trivial ?_)) ?_)
      · exact light_leastLoop _ _ _
      · exact light_furtherLoop _ _ _ _
  | .choice alternatives pos, base, fair => by
    rw [emit]
    refine light_cons (light_candidates fair.1 _) (light_cons trivial (light_append ?_ ?_))
    · exact light_emitBranches t alternatives _ _ fair.2
    · exact light_cons trivial (light_cons trivial light_nil)

theorem light_emitAll (t : Symbols) :
    ∀ (es : List Expr) (base : Nat), EveryIn Expr.Fair es → LightCode (emitAll t base es)
  | [], _, _ => light_nil
  | e :: es, base, fair => light_append (light_emit t e base fair.1) (light_emitAll t es _ fair.2)

theorem light_emitBranches (t : Symbols) :
    ∀ (as : List (Alternative Expr)) (base done : Nat), EveryBranch Expr.Fair as →
      LightCode (emitBranches t base done as)
  | [], _, _, _ => light_nil
  | [a], base, _, fair => light_emit t a.body base fair.1
  | a :: b :: as, base, done, fair => by
    rw [emitBranches]
    · exact light_append (light_emit t a.body base fair.1)
        (light_cons trivial (light_emitBranches t (b :: as) _ done fair.2))
    · simp

end

theorem light_emitRules (t : Symbols) (rs : List Rule) (base : Nat) (fair : ∀ r ∈ rs, r.body.Every Expr.Fair) :
    LightCode (emitRules t base rs) := by
  induction rs generalizing base with
  | nil => exact light_nil
  | cons r rs ih =>
    refine light_append (light_emit t r.body base (fair r List.mem_cons_self)) (light_cons trivial (ih _ ?_))
    exact fun q hq => fair q (List.mem_cons_of_mem _ hq)

theorem light_ofGrammar {g : Grammar} (fair : ∀ e ∈ g.entry ++ g.rules.map Rule.body, e.Every Expr.Fair) :
    LightCode (Program.ofGrammar g).code.toList := by
  rw [ofGrammar_code]
  refine light_append ?_ (light_cons trivial (light_emitRules _ _ _ fun r hr => ?_))
  · rw [emitEntry]
    split
    · exact light_cons trivial light_nil
    · exact light_emitAll _ _ _ (everyIn_iff.2 fun e he => fair e (List.mem_append_left _ he))
  · exact fair _ (List.mem_append_right _ (List.mem_map_of_mem hr))

end Emission

variable {σ ε : Type} [Sink σ] [Evaluator ε]

namespace Machine

/-- A state from which the machine expands as little as it can. -/
structure Canonical (p : Program) (g : Grammar) (s : State σ ε) : Prop where
  spent : s.entropy = []
  /-- Wherever the code of an expression starts, its lowest expansion is what the machine comes to. -/
  expands : ∀ e ∈ g.parts, Placed p (symbols g) s.pc e → ∀ fuel,
    Leads p s fuel (s.pc + size e) s.stack (Lowest.run g fuel e s.world)
  /-- The next candidate is the first of those that are left, which are in the order in which they are written. -/
  chooses : p.code[s.pc]? = some .choose → ∃ a cs pool below x others total, s.pc = a + 1 ∧
    p.code[a]? = some (.pushCandidates cs) ∧ s.stack = .candidates pool :: below ∧ pool.items = x :: others ∧
    (x :: others).Sublist (cs.map fun c => (c.weight, c.target)) ∧
    step p s = .running { s with
      pc := x.2
      stack := (if others = [] then .placeholder else .rescue (rescuePoint s.pc s)) ::
        .candidates ⟨others, total⟩ :: below }
  /-- A choice under way tries what is left of its alternatives until one succeeds. -/
  tries : ∀ alternatives pos base, .choice alternatives pos ∈ g.parts →
    Placed p (symbols g) base (.choice alternatives pos) → s.pc = base + 1 →
    ∃ pool below bodies, s.stack = .candidates pool :: below ∧ bodies.length = pool.size ∧
      bodies.Sublist (alternatives.map Alternative.body) ∧ ∀ fuel,
        Leads p s fuel (base + size (.choice alternatives pos)) below
          (Lowest.firstOf (Lowest.run g fuel) bodies s.world)
  /-- A repetition that has run as often as it must is left behind. -/
  stops : ∀ body least most pos base, .repetition body least most pos ∈ g.parts →
    Placed p (symbols g) base (.repetition body least most pos) →
    s.pc + furtherSize least most = base + size (.repetition body least most pos) →
    ∃ steps, SafeRuns p steps s { s with pc := base + size (.repetition body least most pos) }
  /-- A number that is drawn is the lowest. -/
  draws : ∀ low high, p.code[s.pc]? = some (.pushInteger low high) →
    step p s = .running { s with pc := s.pc + 1, stack := .int low :: s.stack }

variable {p : Program} {s t : State σ ε}

theorem spent_of_reachable (h : Reachable p s t) (hs : s.entropy = []) : t.entropy = [] := by
  refine h.induct (fun u => u.entropy = []) hs fun u v _ hu first => ?_
  have less := length_step_le first
  rw [hu, List.length_nil] at less
  exact List.eq_nil_of_length_eq_zero (by omega)

end Machine

theorem Pool.LeftOver.steady {τ : Type} {p q : Pool τ} (h : p.LeftOver q) (hp : p.Steady) : q.Steady := by
  induction h with
  | all => exact hp
  | draw _ drawn ih => exact ih.draw drawn

structure Compiled (p : Program) (g : Grammar) : Prop where
  sound : g.Sound
  fair : ∀ e ∈ g.entry ++ g.rules.map Rule.body, e.Every Expr.Fair
  closed : ∃ entry, Closed p g entry
  same : p = .ofGrammar g

theorem compiled_of_compile {source : String} {p : Program} (hp : Program.compile source = .ok p) :
    ∃ g, Grammar.read source.toList = .ok g ∧ Compiled p g := by
  obtain ⟨g, read, fine, rfl⟩ := Program.read_of_compile hp
  have sound := sound_of_fault? fine (filled_of_read read)
  obtain ⟨entry, start⟩ := start?_none (isEmpty_of_fault? fine)
  exact ⟨g, read, sound, fair_of_read read fine, ⟨entry, closed_ofGrammar sound fine start⟩, rfl⟩

namespace Compiled

variable {p : Program} {g : Grammar} {s : State σ ε} (h : Compiled p g)
include h

theorem steady_of_leftOver {a : Nat} {cs : List Candidate} {pool : Pool Nat}
    (push : p.code[a]? = some (.pushCandidates cs))
    (left : (candidatePool cs).LeftOver pool) : pool.Steady := by
  refine left.steady (Pool.steady_ofList fun i hi => ?_)
  obtain ⟨c, hc, rfl⟩ := List.mem_map.1 hi
  rw [h.same, ← Array.getElem?_toList] at push
  exact light_ofGrammar h.fair _ (List.mem_of_getElem? push) c hc

theorem rules_fair (name : String) (body : Expr) (hr : g.rule? name = some body) : body.Every Expr.Fair := by
  obtain ⟨r, found, rfl⟩ := Option.map_eq_some_iff.1 hr
  exact h.fair _ (List.mem_append_right _ (List.mem_map_of_mem (List.mem_of_find?_eq_some found)))

theorem parts_fair {e : Expr} (he : e ∈ g.parts) : e.Every Expr.Fair :=
  every_partOfAll _ (everyIn_iff.2 h.fair) e he

theorem start_fair {start : Option String} {e : Expr} (he : g.start? start = some e) : e.Every Expr.Fair := by
  have entry_fair : EveryIn Expr.Fair g.entry := everyIn_iff.2 fun e he => h.fair e (List.mem_append_left _ he)
  unfold Grammar.start? at he
  split at he
  · exact h.rules_fair _ e he
  · split at he <;> cases he
    · exact trivial
    · exact ⟨trivial, entry_fair⟩

theorem realizes (fuel : Nat) : Realizes p (symbols g) fuel (Meaning.run g fuel : Runner σ ε) := by
  rw [h.same]
  exact realizes_run (rulesPlaced h.sound) fuel

theorem expands (spent : s.entropy = []) {e : Expr} (he : e ∈ g.parts) (placed : Placed p (symbols g) s.pc e)
    (fuel : Nat) :
    Leads p s fuel (s.pc + size e) s.stack (Lowest.run g fuel e s.world) := by
  rw [← (agree_run h.rules_fair fuel e (h.parts_fair he) s.world spent).same]
  exact h.realizes fuel e s.pc s.stack s.world placed

theorem stops (spent : s.entropy = []) {body : Expr} {least : UInt32} {most : Option UInt32} {pos base : Nat}
    (placed : Placed p (symbols g) base (.repetition body least most pos))
    (here : s.pc + furtherSize least most = base + size (.repetition body least most pos)) :
    ∃ steps, SafeRuns p steps s { s with pc := base + size (.repetition body least most pos) } := by
  rw [size] at here ⊢
  by_cases hn : never least most = true
  · rw [if_pos hn] at here ⊢
    simp only [never, Bool.and_eq_true, beq_iff_eq] at hn
    obtain ⟨rfl, rfl⟩ := hn
    obtain rfl : s.pc = base := here
    exact ⟨0, .zero s⟩
  · rw [if_neg hn] at here ⊢
    obtain ⟨-, inside, ret, -, code⟩ := placed.repeated (Bool.eq_false_iff.2 hn)
    have ordered (m : UInt32) (hm : most = some m) : least ≤ m := by
      subst hm
      exact placed.feasible.1.1
    have at_further : s.pc = base + size body + 2 + leastSize least := by omega
    rw [← at_further] at code
    have leads : Leads p s 1 (s.pc + furtherSize least most) s.stack
        (further (Meaning.run g 1) 1 body least most s.world) :=
      leads_furtherLoop ((h.realizes 1).subroutine inside ret) ordered code
    rw [(agree_further 1 body least most spent).same, Lowest.stop, if_neg (by omega), here] at leads
    exact leads

theorem chooses {a : Nat} {cs : List Candidate} {pool : Pool Nat} {below : List Cell} {x : Float × Nat}
    {others : List (Float × Nat)} (spent : s.entropy = []) (hi : p.code[s.pc]? = some .choose)
    (push : p.code[a]? = some (.pushCandidates cs)) (left : (candidatePool cs).LeftOver pool)
    (stack : s.stack = .candidates pool :: below) (items : pool.items = x :: others) : ∃ total,
    step p s = .running { s with
      pc := x.2
      stack := (if others = [] then .placeholder else .rescue (rescuePoint s.pc s)) ::
        .candidates ⟨others, total⟩ :: below } := by
  obtain ⟨total, drawn⟩ := (h.steady_of_leftOver push left).draw_nil items
  have last : pool.size = 1 ↔ others = [] := by
    rw [Pool.size, items, List.length_cons, Nat.succ_inj, List.length_eq_zero_iff]
  obtain ⟨pc, stack', bindings, sink, evaluator, entropy⟩ := s
  subst spent stack
  refine ⟨total, ?_⟩
  simp only [step, hi, execute, choose, drawn, last]
  rfl

/-- A choice at its dispatch, with some of its alternatives left. -/
theorem tries {alternatives : List (Alternative Expr)} {pos base : Nat} {pool : Pool Nat} {below : List Cell}
    (spent : s.entropy = []) (he : .choice alternatives pos ∈ g.parts)
    (placed : Placed p (symbols g) base (.choice alternatives pos)) (here : s.pc = base + 1)
    (left : (candidatePool (candidates (base + 2) alternatives)).LeftOver pool)
    (stack : s.stack = .candidates pool :: below) (some_left : pool.items ≠ []) :
    ∃ bodies, bodies.length = pool.size ∧ bodies.Sublist (alternatives.map Alternative.body) ∧ ∀ fuel,
      Leads p s fuel (base + size (.choice alternatives pos)) below
        (Lowest.firstOf (Lowest.run g fuel) bodies s.world) := by
  obtain ⟨push, choice, -, branches, pop, pop'⟩ := placed.chosen
  have fair := everyBranch_iff.1 (h.parts_fair he).2
  have steady := h.steady_of_leftOver push left
  rw [candidatePool, ← branchPool_targets] at left
  obtain ⟨q, before, rfl⟩ := Pool.leftOver_map left
  have ordered : ((q.map Prod.snd).items.map Prod.snd).Sublist (alternatives.map Alternative.body) := by
    rw [← alternativePool_bodies, ← branchPool_bodies (base + 2)]
    exact (before.sublist.map _).map _
  have size_of_bodies : ((q.map Prod.snd).items.map Prod.snd).length = q.size := by
    rw [List.length_map, Pool.map, List.length_map, Pool.size]
  refine ⟨_, size_of_bodies.trans (Pool.map_size Prod.fst q).symm, ordered, fun fuel => ?_⟩
  obtain ⟨n, hn⟩ : ∃ n, q.size = n + 1 := Nat.exists_eq_succ_of_ne_zero fun none_left => some_left (by
    rw [Pool.size, List.length_eq_zero_iff] at none_left
    rw [Pool.map, none_left]
    rfl)
  have all_fair : ∀ i ∈ (q.map Prod.snd).items, i.2.Every Expr.Fair := fun i hi => by
    obtain ⟨a, ha, same⟩ := List.mem_map.1 (ordered.subset (List.mem_map_of_mem hi))
    rw [← same]
    exact fair a ha
  have agree : Agree (draws (Meaning.run g fuel) (n + 1) (q.map Prod.snd) s.world)
      (Lowest.firstOf (Lowest.run g fuel) ((q.map Prod.snd).items.map Prod.snd) s.world) :=
    agree_draws (agree_run h.rules_fair fuel) (Pool.steady_map.2 (Pool.steady_map.1 steady))
      ((Pool.map_size _ q).trans hn) all_fair spent
  have leads : Leads p (s.world.state (base + 1) (.candidates (q.map Prod.fst) :: below)) fuel
      (base + 2 + sizeBranches alternatives + 2) below (draws (Meaning.run g fuel) (n + 1) (q.map Prod.snd) s.world) :=
    leads_draws (h.realizes fuel) choice pop pop' hn fun i hi => branches _ (branchPool_mem (before.sublist.subset hi))
  rw [agree.same, ← here, ← stack] at leads
  rw [size, ← Nat.add_assoc, ← Nat.add_assoc]
  exact leads

section
variable {source : String} {start : Option String} {address : Option Nat} {sink : σ} {evaluator : ε} {entropy : Entropy}
  (hp : Program.compile source = .ok p) (ha : p.start? start = some address)
  (hs : Reachable p (initial p address sink evaluator entropy) s)
include hp ha hs

theorem at_dispatch (hi : p.code[s.pc]? = some .choose) : ∃ a cs pool below x others, s.pc = a + 1 ∧
    p.code[a]? = some (.pushCandidates cs) ∧ s.stack = .candidates pool :: below ∧
    (candidatePool cs).LeftOver pool ∧ pool.items = x :: others := by
  obtain ⟨entry, closed⟩ := h.closed
  obtain ⟨a, cs, pool, below, behind, push, stack, left⟩ := (closed.run_inPlace ha hs).offers hi
  obtain ⟨i, found, fits⟩ := safe_of_reachable hp ha hs
  obtain rfl : i = .choose := Option.some.inj (found.symm.trans hi)
  obtain ⟨pool', below', stack', some_left⟩ := fits
  rw [stack] at stack'
  cases stack'
  obtain ⟨x, others, items⟩ := List.exists_cons_of_ne_nil some_left
  exact ⟨a, cs, pool, below, x, others, behind, push, stack, left, items⟩

theorem canonical (spent : s.entropy = []) : Canonical p g s where
  spent := spent
  expands e he placed fuel := h.expands spent he placed fuel
  chooses hi := by
    obtain ⟨a, cs, pool, below, x, others, behind, push, stack, left, items⟩ := h.at_dispatch hp ha hs hi
    obtain ⟨total, first⟩ := h.chooses spent hi push left stack items
    exact ⟨a, cs, pool, below, x, others, total, behind, push, stack, items, items ▸ left.sublist, first⟩
  tries alternatives pos base he placed here := by
    obtain ⟨push, choice, -⟩ := placed.chosen
    rw [← here] at choice
    obtain ⟨a, cs, pool, below, x, others, behind, push', stack, left, items⟩ := h.at_dispatch hp ha hs choice
    obtain rfl : a = base := Nat.succ_inj.1 (behind.symm.trans here)
    obtain rfl : cs = candidates (a + 2) alternatives := by
      rw [push] at push'
      cases push'
      rfl
    have some_left : pool.items ≠ [] := by
      rw [items]
      exact List.cons_ne_nil _ _
    obtain ⟨bodies, length, ordered, leads⟩ := h.tries spent he placed here left stack some_left
    exact ⟨pool, below, bodies, stack, length, ordered, leads⟩
  stops body least most pos base _ placed here := h.stops spent placed here
  draws low high hi := by
    obtain ⟨pc, stack, bindings, sink, evaluator, entropy⟩ := s
    subst spent
    simp only [step, hi, execute, Entropy.integer_nil]
    rfl

end

end Compiled

/-- Without entropy a run is the lowest expansion of its grammar, and from where the entropy has run out, every other
run is so as well. -/
theorem compiled_run_lowest {source : String} {p : Program} {start : Option String} {address : Option Nat}
    (hp : Program.compile source = .ok p) (ha : p.start? start = some address) (sink : σ) (evaluator : ε) :
    ∃ g e, Grammar.read source.toList = .ok g ∧ g.start? start = some e ∧
      (∀ (entropy : Entropy) (s u : State σ ε), Reachable p (initial p address sink evaluator entropy) s →
        s.entropy = [] → Reachable p s u → Canonical p g u) ∧
      ∀ (result : Except RunFault Bool) (w : World σ ε),
        (∃ steps s, Machine.run p steps (initial p address sink evaluator []) = some ⟨result, s⟩ ∧ s.world = w) ↔
          ∃ fuel o, Lowest.run g fuel e ⟨[], sink, evaluator, []⟩ = some o ∧ o.ending = (result, w) := by
  obtain ⟨g, hg, compiled⟩ := compiled_of_compile hp
  have leads := leads_initial compiled.sound (compiled.same ▸ ha) sink evaluator []
  rw [← compiled.same] at leads
  obtain ⟨e, he, leads⟩ := leads
  refine ⟨g, e, hg, he, fun entropy s u hs spent hu => ?_, fun result w => ?_⟩
  · exact compiled.canonical hp ha (hs.trans hu) (spent_of_reachable hu spent)
  · have lowest (fuel : Nat) := (agree_run compiled.rules_fair fuel e (compiled.start_fair he)
      (⟨[], sink, evaluator, []⟩ : World σ ε) rfl).same
    simp only [lowest] at leads
    exact run_iff_of_leads leads (compiled.same ▸ halt_codeAt g) result w

/-- The first branch fails its check and the second is taken, with the least number of iterations and the lowest digit. -/
theorem compiled_run_lowest_retried : ∃ p g e fuel o,
    Program.compile "('a' \x7b?nil\x7d | 'b') 'x'*[2...5] 'y'* 3...9" = .ok p ∧ p.start? none = some none ∧
    Grammar.read "('a' \x7b?nil\x7d | 'b') 'x'*[2...5] 'y'* 3...9".toList = .ok g ∧ g.start? none = some e ∧
    Canonical p g (initial p none ([] : Bytes) Script.Engine.empty []) ∧
    Lowest.run g fuel e ⟨[], ([] : Bytes), Script.Engine.empty, []⟩ = some o ∧ o.ending.1 = .ok true ∧
    o.ending.2.sink = [98, 120, 120, 51] := by
  obtain ⟨p, s, hp, hrun, hs⟩ := @Program.exists_run Bytes Script.Engine _ _
    "('a' \x7b?nil\x7d | 'b') 'x'*[2...5] 'y'* 3...9" 60 [] [98, 120, 120, 51] .empty [] true (by decide +kernel)
  obtain ⟨g, e, hg, he, canonical, lowest⟩ :=
    @compiled_run_lowest Bytes Script.Engine _ _ _ _ none none hp rfl [] .empty
  obtain ⟨fuel, o, ho, hend⟩ := (lowest (.ok true) s.world).1 ⟨60, s, hrun, rfl⟩
  exact ⟨p, g, e, fuel, o, hp, rfl, hg, he, canonical [] _ _ (.refl _) rfl (.refl _), ho, by rw [hend],
    by rw [hend]; exact hs⟩

end TextGrammar
