import Mathlib.Data.Set.Finite.List
import Mathlib.Order.WellFoundedSet
import TextGrammar.Proofs.LiveExpressions
import TextGrammar.Proofs.Refinement
import TextGrammar.Proofs.EntropyUse
set_option autoImplicit false

/-!
# Grammars whose runs end

A run can only go on forever through rules that reach themselves. Without such rules there is a bound on the fuel that
an expression takes beyond the length of the entropy: references nest as deep as the rules do, pools and counts are
finite, and every further iteration of an unbounded repetition costs a byte.
-/
namespace TextGrammar
open Machine Meaning

namespace Grammar

/-- A rule names another in something that can run. -/
def Refers (g : Grammar) (name other : String) : Prop :=
  ∃ body, g.rule? name = some body ∧ ∃ pos, .reference other pos ∈ body.live

/-- No rule reaches itself through references. -/
def Acyclic (g : Grammar) : Prop := ∀ name, ¬ Relation.TransGen g.Refers name name

variable {g : Grammar}

theorem mem_of_rule? {name : String} {body : Expr} (h : g.rule? name = some body) :
    ∃ r ∈ g.rules, r.name = name ∧ r.body = body := by
  obtain ⟨r, hr, same⟩ := Option.map_eq_some_iff.1 h
  exact ⟨r, List.mem_of_find?_eq_some hr, by simpa using List.find?_some hr, same⟩

def Rule.descends (rank : String → Nat) (r : Rule) : Bool :=
  r.body.live.all fun
    | .reference other _ => rank other < rank r.name
    | _ => true

/-- A grammar is acyclic if its rules can be ranked so that references only lead down. -/
theorem acyclic_of_rank (rank : String → Nat) (h : ∀ r ∈ g.rules, r.descends rank = true) : g.Acyclic := by
  have down : ∀ name other, g.Refers name other → rank other < rank name := by
    rintro name other ⟨body, found, pos, hm⟩
    obtain ⟨r, hr, rfl, rfl⟩ := mem_of_rule? found
    have lower := List.all_eq_true.1 (h r hr) _ hm
    exact of_decide_eq_true lower
  have far : ∀ name other, Relation.TransGen g.Refers name other → rank other < rank name := by
    intro name other h
    induction h with
    | single h => exact down _ _ h
    | tail _ h ih => exact (down _ _ h).trans ih
  exact fun name cycle => Nat.lt_irrefl _ (far name name cycle)

/-- What holds of a rule as soon as it holds of all that the rule refers to holds of every rule. -/
theorem Acyclic.induct (h : g.Acyclic) {P : String → Prop}
    (step : ∀ name, (∀ other, g.Refers name other → P other) → P name) (name : String) : P name := by
  have before : IsStrictOrder String (flip (Relation.TransGen g.Refers)) :=
    { irrefl := h, trans := fun _ _ _ hab hbc => hbc.trans hab }
  have rules : {name | name ∈ g.names}.WellFoundedOn (flip (Relation.TransGen g.Refers)) :=
    (List.finite_toSet g.names).wellFoundedOn
  have unknown : ∀ name ∉ g.names, P name := by
    refine fun name unknown => step name fun other refers => ?_
    obtain ⟨body, found, -⟩ := refers
    obtain ⟨r, hr, same, -⟩ := mem_of_rule? found
    exact absurd (same ▸ List.mem_map_of_mem hr) unknown
  by_cases known : name ∈ g.names
  · refine rules.induction known fun name _ ih => step name fun other refers => ?_
    by_cases known : other ∈ g.names
    · exact ih other known (.single refers)
    · exact unknown other known
  · exact unknown name known

end Grammar

namespace Meaning
open Grammar Emission

variable {σ ε : Type}

inductive Settled (limit : Nat) : Option (Outcome σ ε) → Prop where
  | done {w : World σ ε} (h : w.entropy.length ≤ limit) : Settled limit (some (.done w))
  | failed {w : World σ ε} (h : w.entropy.length ≤ limit) : Settled limit (some (.failed w))
  | faulted {w : World σ ε} (fault : RunFault) (h : w.entropy.length ≤ limit) : Settled limit (some (.faulted fault w))

variable {limit limit' n : Nat} {o : Option (Outcome σ ε)} {w : World σ ε}

theorem Settled.mono (h : Settled limit o) (le : limit ≤ limit') : Settled limit' o := by
  cases h with
  | done h => exact .done (h.trans le)
  | failed h => exact .failed (h.trans le)
  | faulted fault h => exact .faulted fault (h.trans le)

theorem Settled.some (h : Settled limit o) : ∃ outcome, o = some outcome := by
  cases h with
  | done _ => exact ⟨_, rfl⟩
  | failed _ => exact ⟨_, rfl⟩
  | faulted _ _ => exact ⟨_, rfl⟩

theorem Settled.andThen {next : World σ ε → Option (Outcome σ ε)} (h : Settled limit o)
    (further : ∀ w : World σ ε, w.entropy.length ≤ limit → Settled limit (next w)) :
    Settled limit (Meaning.andThen o next) := by
  cases h with
  | done h => exact further _ h
  | failed h => exact .failed h
  | faulted fault h => exact .faulted fault h

/-- Where there is no more entropy than `limit` bytes, a run of the expression ends and adds none. -/
def Ends (inner : Runner σ ε) (limit : Nat) (e : Expr) : Prop :=
  ∀ w : World σ ε, w.entropy.length ≤ limit → Settled w.entropy.length (inner e w)

variable {inner : Runner σ ε} {body e : Expr}

theorem Ends.settled (h : Ends inner limit e) (hw : w.entropy.length ≤ n) (le : n ≤ limit) : Settled n (inner e w) :=
  (h w (hw.trans le)).mono hw

theorem settled_times (h : Ends inner limit body) (count : Nat) (hw : w.entropy.length ≤ n) (le : n ≤ limit) :
    Settled n (times inner body count w) := by
  induction count generalizing w with
  | zero => exact .done hw
  | succ count ih => exact (h.settled hw le).andThen fun w' hw' => ih hw'

section
variable [Sink σ]

theorem settled_write (text : String) (hw : w.entropy.length ≤ n) : Settled n (some (w.write text)) := by
  unfold World.write
  split
  · exact .done hw
  · exact .faulted _ hw

theorem settled_writeNumber (span : Span) (hw : w.entropy.length ≤ n) : Settled n (some (w.writeNumber span)) := by
  cases span with
  | empty => exact .failed hw
  | single text => exact settled_write text hw
  | ints low high => exact settled_write _ (((Entropy.reads_integer low high).length_le w.entropy).trans hw)
  | floats low high => exact settled_write _ (((Entropy.reads_float low high).length_le w.entropy).trans hw)

theorem settled_putBack {now : World σ ε} (hw : now.entropy.length ≤ n) (earlier : World σ ε) :
    Settled n (some (now.putBack earlier)) := by
  unfold World.putBack
  split
  · exact .done hw
  · exact .faulted _ hw

theorem settled_capture {now : World σ ε} (hw : now.entropy.length ≤ n) (name : String) (discard : Bool)
    (earlier : World σ ε) : Settled n (some (World.capture name discard earlier now)) := by
  unfold World.capture
  split
  · exact .faulted _ hw
  · split
    · exact .failed hw
    · split
      · split
        · exact .done hw
        · exact .faulted _ hw
      · exact .done hw

theorem settled_guarded {more : World σ ε → Option (Outcome σ ε)} (h : Ends inner limit body)
    (hw : w.entropy.length ≤ n) (le : n ≤ limit)
    (further : ∀ w' : World σ ε, w'.entropy.length ≤ n → Settled n (more w')) :
    Settled n (guarded inner body w more) := by
  have first := h.settled hw le
  unfold guarded
  generalize inner body w = o at first ⊢
  cases first with
  | done hw' => exact further _ hw'
  | failed hw' => exact settled_putBack hw' w
  | faulted fault hw' => exact .faulted fault hw'

theorem settled_atMost (h : Ends inner limit body) (count : Nat) (hw : w.entropy.length ≤ n) (le : n ≤ limit) :
    Settled n (atMost inner body count w) := by
  induction count generalizing w with
  | zero => exact .done hw
  | succ count ih => exact settled_guarded h hw le fun w' hw' => ih hw'

/-- Heads are paid for with bytes, so the coin shows tails before the fuel is used up. -/
theorem settled_whileHeads (h : Ends inner limit body) {fuel : Nat} (hw : w.entropy.length ≤ n) (le : n ≤ limit)
    (enough : n < fuel) : Settled n (whileHeads inner body fuel w) := by
  induction fuel generalizing w n with
  | zero => exact absurd enough (Nat.not_lt_zero n)
  | succ fuel ih =>
    rw [whileHeads]
    have left := Entropy.reads_coin.length_le w.entropy
    have spent := @Entropy.length_coin_lt w.entropy
    generalize w.entropy.coin = tossed at left spent ⊢
    obtain ⟨heads, entropy⟩ := tossed
    cases heads with
    | false => exact .done (left.trans hw)
    | true =>
      -- the iteration starts with a byte less, so what is left of the fuel still covers the coin
      have spent : entropy.length < w.entropy.length := spent rfl
      have less : entropy.length ≤ limit := by omega
      refine (settled_guarded h (Nat.le_refl entropy.length) less fun w' hw' => ?_).mono (left.trans hw)
      exact ih hw' less (by omega)

theorem settled_further {fuel : Nat} (h : Ends inner limit body) (least : UInt32) (most : Option UInt32)
    (hw : w.entropy.length ≤ n) (le : n ≤ limit) (enough : n < fuel) :
    Settled n (further inner fuel body least most w) := by
  cases most with
  | none => exact settled_whileHeads h hw le enough
  | some most => exact settled_atMost h _ (((Entropy.reads_integer _ _).length_le w.entropy).trans hw) le

theorem settled_draws {pool : Pool Expr} (h : ∀ i ∈ pool.items, Ends inner limit i.2) (count : Nat)
    (hw : w.entropy.length ≤ n) (le : n ≤ limit) : Settled n (draws inner count pool w) := by
  induction count generalizing pool w with
  | zero => exact .failed hw
  | succ count ih =>
    have left := (pool.reads_draw.length_le w.entropy).trans hw
    rw [draws]
    rcases hd : pool.draw w.entropy with ⟨_ | ⟨body, rest⟩, entropy⟩
    · rw [hd] at left
      exact .failed left
    · rw [hd] at left
      obtain ⟨drawn, others⟩ := Pool.mem_of_draw hd
      obtain ⟨i, hi, rfl⟩ := List.mem_map.1 drawn
      have tried := @Ends.settled _ _ _ n { w with entropy := entropy } _ _ (h i hi) left le
      simp only
      generalize inner i.2 _ = o at tried ⊢
      cases tried with
      | done hw' => exact .done hw'
      | faulted fault hw' => exact .faulted fault hw'
      | failed hw' =>
        simp only
        split
        · exact .failed hw'
        · exact (settled_putBack hw' _).andThen fun w' hw' => ih (fun j hj => h j (others j hj)) hw'

end

theorem settled_evaluate [Evaluator ε] (code : String) {next : Value → World σ ε → Outcome σ ε}
    (hw : w.entropy.length ≤ n)
    (further : ∀ v (w' : World σ ε), w'.entropy.length ≤ n → Settled n (some (next v w'))) :
    Settled n (some (w.evaluate code next)) := by
  unfold World.evaluate
  simp only
  split
  · exact further _ _ hw
  · exact .faulted _ hw

variable [Sink σ] [Evaluator ε] {g : Grammar}

theorem settled_withinAll {fuel : Nat} {es : List Expr} (h : ∀ e ∈ es, Ends (within inner g fuel) limit e)
    (hw : w.entropy.length ≤ n) (le : n ≤ limit) : Settled n (withinAll inner g fuel es w) := by
  induction es generalizing w with
  | nil => exact .done hw
  | cons e es ih =>
    rw [List.forall_mem_cons] at h
    exact (h.1.settled hw le).andThen fun w' hw' => ih h.2 hw'

/-- So much fuel, and a piece more for each byte of entropy, is enough for an expression. -/
def BoundedBy (σ ε : Type) [Sink σ] [Evaluator ε] (g : Grammar) (bound : Nat) (e : Expr) : Prop :=
  ∀ fuel limit, bound + limit ≤ fuel → Ends (run g fuel : Runner σ ε) limit e

def Bounded (σ ε : Type) [Sink σ] [Evaluator ε] (g : Grammar) (e : Expr) : Prop := ∃ bound, BoundedBy σ ε g bound e

theorem BoundedBy.mono {bound bound' : Nat} (h : BoundedBy σ ε g bound e) (le : bound ≤ bound') :
    BoundedBy σ ε g bound' e :=
  fun fuel limit enough => h fuel limit (by omega)

theorem BoundedBy.next {bound : Nat} (h : ∀ fuel limit, bound + limit ≤ fuel → limit < fuel + 1 →
    Ends (within (run g fuel) g fuel : Runner σ ε) limit e) : BoundedBy σ ε g (bound + 1) e := by
  intro fuel limit enough
  cases fuel with
  | zero => omega
  | succ fuel => exact h fuel limit (by omega) (by omega)

def Resolved (σ ε : Type) [Sink σ] [Evaluator ε] (g : Grammar) (name : String) : Prop :=
  ∀ body, g.rule? name = some body → Bounded σ ε g body

theorem bounded_reference {name : String} {pos : Nat} (h : Resolved σ ε g name) :
    Bounded σ ε g (.reference name pos) := by
  cases hr : g.rule? name with
  | none => exact ⟨1, .next fun fuel limit _ _ w hw => by simpa only [within, hr] using .failed (Nat.le_refl _)⟩
  | some body =>
    obtain ⟨bound, hb⟩ := h body hr
    exact ⟨bound + 1, .next fun fuel limit enough _ w hw => by simpa only [within, hr] using hb fuel limit enough w hw⟩

theorem bounded_repetition {least : UInt32} {most : Option UInt32} {pos : Nat}
    (h : never least most = false → Bounded σ ε g body) : Bounded σ ε g (.repetition body least most pos) := by
  cases hn : never least most with
  | true =>
    simp only [never, Bool.and_eq_true, beq_iff_eq] at hn
    obtain ⟨rfl, rfl⟩ := hn
    refine ⟨1, .next fun fuel limit _ _ w hw => ?_⟩
    rw [within, show times (run g fuel) body (0 : UInt32).toNat w = some (.done w) from rfl, andThen, further_self]
    exact .done (Nat.le_refl _)
  | false =>
    obtain ⟨bound, hb⟩ := h hn
    refine ⟨bound + 2, .next fun fuel limit enough _ w hw => ?_⟩
    have body_ends : Ends (run g fuel : Runner σ ε) limit body := hb fuel limit (by omega)
    rw [within]
    exact (settled_times body_ends _ (Nat.le_refl _) hw).andThen fun w' hw' =>
      settled_further body_ends least most hw' hw (by omega)

theorem bounded_choice {alternatives : List (Alternative Expr)} {pos bound : Nat}
    (h : ∀ a ∈ alternatives, BoundedBy σ ε g bound a.body) : Bounded σ ε g (.choice alternatives pos) := by
  refine ⟨bound + 1, .next fun fuel limit enough _ w hw => ?_⟩
  rw [within]
  refine settled_draws (fun i hi => ?_) _ (Nat.le_refl _) hw
  obtain ⟨a, ha, same⟩ := List.mem_map.1 (List.of_mem_zip hi).2
  rw [← same]
  exact h a ha fuel limit enough

theorem bounded_capture {name : String} {discard : Bool} (h : Bounded σ ε g body) :
    Bounded σ ε g (.capture body name discard) := by
  obtain ⟨bound, hb⟩ := h
  refine ⟨bound + 1, .next fun fuel limit enough _ w hw => ?_⟩
  rw [within]
  exact (hb fuel limit enough w hw).andThen fun w' hw' => settled_capture hw' name discard w

mutual

/-- An expression ends if all rules do that are referred to in what can run of it. -/
theorem bounded_of_live : ∀ e : Expr, (∀ name pos, .reference name pos ∈ e.live → Resolved σ ε g name) → Bounded σ ε g e
  | .literal text, _ => ⟨1, .next fun _ _ _ _ w _ => settled_write text (Nat.le_refl _)⟩
  | .range low high pos, _ => ⟨1, .next fun _ _ _ _ w _ => settled_writeNumber (span low high) (Nat.le_refl _)⟩
  | .reference name pos, h => bounded_reference (h name pos List.mem_cons_self)
  | .generate code, _ => ⟨1, .next fun _ _ _ _ w _ =>
      settled_evaluate code (Nat.le_refl _) fun v w' hw' => settled_write v.text hw'⟩
  | .check code, _ => by
    refine ⟨1, .next fun _ _ _ _ w _ => settled_evaluate code (Nat.le_refl _) fun v w' hw' => ?_⟩
    split
    · exact .done hw'
    · exact .failed hw'
  | .action code, _ => ⟨1, .next fun _ _ _ _ w _ => settled_evaluate code (Nat.le_refl _) fun v w' hw' => .done hw'⟩
  | .sequence es, h => by
    obtain ⟨bound, hb⟩ := bounded_of_liveIn es fun name pos hm => h name pos (List.mem_cons_of_mem _ hm)
    -- sequences use no fuel, so their parts have as much as they
    exact ⟨bound + 1, .next fun fuel limit enough _ w hw =>
      settled_withinAll (fun e he => hb e he (fuel + 1) limit (by omega)) (Nat.le_refl _) hw⟩
  | .repetition body least most pos, h => by
    refine bounded_repetition fun hn => bounded_of_live body fun name pos' hm => h name pos' ?_
    rw [Expr.live, hn]
    exact List.mem_cons_of_mem _ hm
  | .choice alternatives pos, h => by
    obtain ⟨bound, hb⟩ := bounded_of_liveInBranches alternatives fun name pos' hm =>
      h name pos' (List.mem_cons_of_mem _ hm)
    exact bounded_choice hb
  | .capture body name discard, h =>
    bounded_capture (bounded_of_live body fun name pos hm => h name pos (List.mem_cons_of_mem _ hm))

theorem bounded_of_liveIn : ∀ es : List Expr, (∀ name pos, .reference name pos ∈ liveIn es → Resolved σ ε g name) →
    ∃ bound, ∀ e ∈ es, BoundedBy σ ε g bound e
  | [], _ => ⟨0, fun e he => by cases he⟩
  | e :: es, h => by
    obtain ⟨bound, hb⟩ := bounded_of_live e fun name pos hm => h name pos (List.mem_append_left _ hm)
    obtain ⟨bound', hb'⟩ := bounded_of_liveIn es fun name pos hm => h name pos (List.mem_append_right _ hm)
    exact ⟨max bound bound', List.forall_mem_cons.2
      ⟨hb.mono (Nat.le_max_left _ _), fun e he => (hb' e he).mono (Nat.le_max_right _ _)⟩⟩

theorem bounded_of_liveInBranches : ∀ as : List (Alternative Expr),
    (∀ name pos, .reference name pos ∈ liveInBranches as → Resolved σ ε g name) →
    ∃ bound, ∀ a ∈ as, BoundedBy σ ε g bound a.body
  | [], _ => ⟨0, fun a ha => by cases ha⟩
  | a :: as, h => by
    obtain ⟨bound, hb⟩ := bounded_of_live a.body fun name pos hm => h name pos (List.mem_append_left _ hm)
    obtain ⟨bound', hb'⟩ := bounded_of_liveInBranches as fun name pos hm => h name pos (List.mem_append_right _ hm)
    exact ⟨max bound bound', List.forall_mem_cons.2
      ⟨hb.mono (Nat.le_max_left _ _), fun a ha => (hb' a ha).mono (Nat.le_max_right _ _)⟩⟩

end

/-- Every rule ends, by induction on the order of references. -/
theorem resolved_of_acyclic (h : g.Acyclic) : ∀ name, Resolved σ ε g name :=
  h.induct fun _ ih body found => bounded_of_live body fun other pos hm => ih other ⟨body, found, pos, hm⟩

theorem bounded_of_acyclic (h : g.Acyclic) (e : Expr) : Bounded σ ε g e :=
  bounded_of_live e fun name _ _ => resolved_of_acyclic h name

end Meaning

/-- If no rule reaches itself through references, every run ends, from whatever start and on whatever sink, evaluator
and entropy. At any time in it, coins have gone on with unbounded repetitions at most as often as there are bytes of
entropy. -/
theorem acyclic_run_ends {σ ε : Type} [Sink σ] [Evaluator ε] {source : String} {p : Program} {g : Grammar}
    {start : Option String} {address : Option Nat} (hp : Program.compile source = .ok p)
    (hg : Grammar.read source.toList = .ok g) (acyclic : g.Acyclic) (ha : p.start? start = some address) (sink : σ)
    (evaluator : ε) (entropy : Entropy) :
    (∃ steps x, Machine.run p steps (initial p address sink evaluator entropy) = some x) ∧
      ∀ steps, heads p steps (initial p address sink evaluator entropy) ≤ entropy.length := by
  obtain ⟨g', hg', sound, rfl⟩ := Program.compile_eq_ok hp
  obtain rfl : g' = g := Except.ok.inj (hg'.symm.trans hg)
  constructor
  · obtain ⟨e, -, leads⟩ := leads_initial sound ha sink evaluator entropy
    obtain ⟨bound, hb⟩ := bounded_of_acyclic (σ := σ) (ε := ε) acyclic e
    have settled := hb (bound + entropy.length) entropy.length (Nat.le_refl _) ⟨[], sink, evaluator, entropy⟩
      (Nat.le_refl _)
    obtain ⟨o, ho⟩ := settled.some
    have halts := run_iff_of_leads leads (Emission.halt_codeAt g') o.ending.1 o.ending.2
    obtain ⟨steps, u, hrun, -⟩ := halts.2 ⟨_, o, ho, rfl⟩
    exact ⟨steps, _, hrun⟩
  · intro steps
    have shown := heads_le (.ofGrammar g') steps (initial (.ofGrammar g') address sink evaluator entropy)
    rwa [initial_entropy] at shown

/-- A run that shows heads twice and ends after it has run out of entropy. -/
theorem acyclic_run_ends_spent : ∃ p g, Program.compile "ab* 'c' ab = b 'y' ; b = 'x' | 'z' {?false} ;" = .ok p ∧
    Grammar.read "ab* 'c' ab = b 'y' ; b = 'x' | 'z' {?false} ;".toList = .ok g ∧ g.Acyclic ∧
    p.start? none = some none ∧
    (∃ steps x, Machine.run p steps (initial p none ([] : Bytes) Script.Engine.empty [1, 0, 0, 0, 0, 1]) = some x) ∧
    (∀ steps, heads p steps (initial p none ([] : Bytes) Script.Engine.empty [1, 0, 0, 0, 0, 1]) ≤ 6) ∧
    heads p 80 (initial p none ([] : Bytes) Script.Engine.empty [1, 0, 0, 0, 0, 1]) = 2 := by
  have tossed : (Program.compile "ab* 'c' ab = b 'y' ; b = 'x' | 'z' {?false} ;").toOption.map (fun p =>
      heads p 80 (initial p none ([] : Bytes) Script.Engine.empty [1, 0, 0, 0, 0, 1])) = some 2 := by decide +kernel
  have ranked : (Grammar.read "ab* 'c' ab = b 'y' ; b = 'x' | 'z' {?false} ;".toList).toOption.map
      (fun g => g.rules.all (Grammar.Rule.descends String.length)) = some true := by decide +kernel
  cases hp : Program.compile "ab* 'c' ab = b 'y' ; b = 'x' | 'z' {?false} ;" with
  | error fault => rw [hp] at tossed; cases tossed
  | ok p =>
    obtain ⟨g, hg, -⟩ := Program.read_of_compile hp
    rw [hp] at tossed
    rw [hg] at ranked
    have acyclic := Grammar.acyclic_of_rank String.length (List.all_eq_true.1 (Option.some.inj ranked))
    obtain ⟨ends, most⟩ := @acyclic_run_ends Bytes Script.Engine _ _ _ p g none none hp hg acyclic rfl [] .empty
      [1, 0, 0, 0, 0, 1]
    exact ⟨p, g, rfl, hg, acyclic, rfl, ends, most, Option.some.inj tossed⟩

end TextGrammar
