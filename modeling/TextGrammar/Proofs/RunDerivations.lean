import TextGrammar.Proofs.Derivation
import TextGrammar.Proofs.PoolDraws
import TextGrammar.Proofs.SampledNumbers
import TextGrammar.Proofs.Subexpressions
import TextGrammar.Proofs.TransactionalSinks
set_option autoImplicit false

/-!
# Runs and derivations

What an expression writes if it is done has a derivation from the bindings before to the bindings after. What it writes
before it fails is text, so that it can be undone, and nothing of it is left when the next attempt starts.
-/
namespace TextGrammar
open Grammar

theorem Grammar.le_of_span {low high : Number} {a b : Int64} (h : span low high = .ints a b) : a ≤ b := by
  unfold span at h
  split at h
  · split at h
    · cases h
    · rename_i hlt
      split at h
      · cases h
      · cases h
        exact Int64.not_lt.1 hlt
  · simp only at h
    split at h
    · cases h
    · split at h <;> cases h

namespace Meaning
open TransactionalSink

variable {g : Grammar} {blocks : Blocks} {body : Expr}
variable {σ ε : Type} [Sink σ] [TransactionalSink σ]

abbrev Account := Bindings → String → Bindings → Prop

/-- An outcome is accounted for if what was written, and what became of the bindings, is as `R` says where it is done,
and is text where it failed. What holds of the evaluator before goes on to hold. -/
def Accounted (good : ε → Prop) (R : Account) (w : World σ ε) : Option (Outcome σ ε) → Prop
  | some (.done w') => good w'.evaluator ∧
      ∃ text, R w.bindings text w'.bindings ∧ content w'.sink = content w.sink ++ Utf8.ofString text
  | some (.failed w') => good w'.evaluator ∧ Extends w.sink w'.sink
  | _ => True

variable {good : ε → Prop} {R S T : Account} {w now : World σ ε} {o : Option (Outcome σ ε)}

theorem Accounted.mono (h : Accounted good R w o) (hRS : ∀ b text c, R b text c → S b text c) :
    Accounted good S w o := by
  match o with
  | none => trivial
  | some (.done w') =>
    obtain ⟨hg, text, hR, hc⟩ := h
    exact ⟨hg, text, hRS _ _ _ hR, hc⟩
  | some (.failed w') => exact h
  | some (.faulted _ _) => trivial

theorem Accounted.from (h : Accounted good R now o) (hb : now.bindings = w.bindings)
    (hc : content now.sink = content w.sink) : Accounted good R w o := by
  match o with
  | none => trivial
  | some (.done w') =>
    obtain ⟨hg, text, hR, ht⟩ := h
    rw [hb] at hR
    rw [hc] at ht
    exact ⟨hg, text, hR, ht⟩
  | some (.failed w') => exact ⟨h.1, (Extends.of_eq hc).trans h.2⟩
  | some (.faulted _ _) => trivial

theorem Accounted.done (hg : good now.evaluator) (hR : R w.bindings "" now.bindings)
    (hc : content now.sink = content w.sink) : Accounted good R w (some (.done now)) :=
  ⟨hg, "", hR, hc.trans (List.append_nil _).symm⟩

theorem Accounted.andThen {next : World σ ε → Option (Outcome σ ε)} (h : Accounted good R w o)
    (h' : ∀ w', good w'.evaluator → Accounted good S w' (next w'))
    (join : ∀ b c d s t, R b s c → S c t d → T b (s ++ t) d) : Accounted good T w (andThen o next) := by
  match o with
  | none => trivial
  | some (.done w') =>
    obtain ⟨hg, s, hR, hs⟩ := h
    have rest := h' w' hg
    change Accounted good T w (next w')
    match hn : next w', rest with
    | none, _ => trivial
    | some (.done w''), ⟨hg', t, hS, ht⟩ =>
      exact ⟨hg', s ++ t, join _ _ _ _ _ hR hS, by rw [ht, hs, Utf8.ofString_append, List.append_assoc]⟩
    | some (.failed w''), ⟨hg', more⟩ => exact ⟨hg', Extends.trans ⟨s, hs⟩ more⟩
    | some (.faulted _ _), _ => trivial
  | some (.failed w') => exact h
  | some (.faulted _ _) => trivial

/-- Going back to a world succeeds if only text was appended since. -/
theorem putBack_eq (h : Extends w.sink now.sink) :
    ∃ sink, now.putBack w = .done { now with bindings := w.bindings, sink := sink } ∧
      content sink = content w.sink := by
  obtain ⟨text, ht⟩ := h
  obtain ⟨sink, hr, hc⟩ := restore_eq ht
  exact ⟨sink, by simp only [World.putBack, hr], hc⟩

theorem accounted_write (hg : good w.evaluator) (text : String) :
    Accounted good (fun b t c => t = text ∧ c = b) w (some (w.write text)) := by
  unfold World.write
  rcases hw : Sink.write w.sink (Utf8.ofString text) with ⟨result, sink⟩
  match result with
  | .ok n => exact ⟨hg, text, ⟨rfl, rfl⟩, content_write hw⟩
  | .error fault => trivial

theorem accounted_capture {name : String} {discard : Bool} (h : Accounted good R w o) :
    Accounted good (fun b t d => ∃ c text, R b text c ∧ t = (if discard then "" else text) ∧
      d = c.set name (.str text)) w (andThen o fun now => some (World.capture name discard w now)) := by
  match o with
  | none => trivial
  | some (.done now) =>
    obtain ⟨hg, text, hR, ht⟩ := h
    change Accounted good _ w (some (World.capture name discard w now))
    simp only [World.capture, writtenSince_eq ht, Utf8.toString?_ofString]
    cases discard with
    | false => exact ⟨hg, text, ⟨_, text, hR, rfl, rfl⟩, ht⟩
    | true =>
      obtain ⟨sink, hr, hc⟩ := restore_eq ht
      simp only [hr, if_true]
      exact .done hg ⟨_, text, hR, rfl, rfl⟩ hc
  | some (.failed w') => exact h
  | some (.faulted _ _) => trivial

def Copies (g : Grammar) (blocks : Blocks) (body : Expr) (allowed : Nat → Prop) : Account :=
  fun b text c => ∃ n, allowed n ∧ Derives g blocks (.sequence (List.replicate n body)) b text c

theorem copies_zero {allowed : Nat → Prop} (h : allowed 0) (b : Bindings) : Copies g blocks body allowed b "" b :=
  ⟨0, h, .nil b⟩

/-- All that an expression ever does is accounted for by its derivations. -/
def Explained (good : ε → Prop) (g : Grammar) (blocks : Blocks) (inner : Runner σ ε) (e : Expr) : Prop :=
  ∀ w, good w.evaluator → Accounted good (Derives g blocks e) w (inner e w)

variable {inner : Runner σ ε} {bodies : List Expr}

theorem accounted_times (hinner : Explained good g blocks inner body) (n : Nat) (hg : good w.evaluator) :
    Accounted good (Derives g blocks (.sequence (List.replicate n body))) w (times inner body n w) := by
  induction n generalizing w with
  | zero => exact .done hg (.nil _) rfl
  | succ n ih => exact (hinner w hg).andThen (fun w' hg' => ih hg') fun b c d s t first rest => .cons first rest

theorem accounted_guarded {allowed : Nat → Prop} {more : World σ ε → Option (Outcome σ ε)}
    (h : Accounted good (Derives g blocks body) w (inner body w)) (h0 : allowed 0)
    (hmore : ∀ w', good w'.evaluator → Accounted good (Copies g blocks body (fun n => allowed (n + 1))) w' (more w')) :
    Accounted good (Copies g blocks body allowed) w (guarded inner body w more) := by
  have join : ∀ b c d s t, Derives g blocks body b s c → Copies g blocks body (fun n => allowed (n + 1)) c t d →
      Copies g blocks body allowed b (s ++ t) d := by
    rintro b c d s t first ⟨n, hn, rest⟩
    exact ⟨n + 1, hn, .cons first rest⟩
  have whole := h.andThen hmore join
  unfold guarded
  match hi : inner body w, h with
  | none, _ => trivial
  | some (.done w'), _ => rwa [hi] at whole
  | some (.failed w'), ⟨hg, more⟩ =>
    obtain ⟨sink, hp, hc⟩ := putBack_eq more
    simp only [hp]
    exact .done hg (copies_zero h0 _) hc
  | some (.faulted _ _), _ => trivial

theorem accounted_atMost (hinner : Explained good g blocks inner body) (n : Nat) (hg : good w.evaluator) :
    Accounted good (Copies g blocks body (· ≤ n)) w (atMost inner body n w) := by
  induction n generalizing w with
  | zero => exact .done hg ⟨0, Nat.le_refl 0, .nil _⟩ rfl
  | succ n ih =>
    refine accounted_guarded (hinner w hg) (Nat.zero_le _) fun w' hg' => (ih hg').mono ?_
    exact fun b text c ⟨k, hk, rest⟩ => ⟨k, Nat.succ_le_succ hk, rest⟩

theorem accounted_whileHeads (hinner : Explained good g blocks inner body) (fuel : Nat) (hg : good w.evaluator) :
    Accounted good (Copies g blocks body (fun _ => True)) w (whileHeads inner body fuel w) := by
  induction fuel generalizing w with
  | zero => trivial
  | succ fuel ih =>
    rw [whileHeads]
    rcases w.entropy.coin with ⟨heads, entropy⟩
    cases heads with
    | false => exact .done hg (copies_zero trivial _) rfl
    | true => exact Accounted.from (accounted_guarded (hinner _ hg) trivial fun w' hg' => ih hg') rfl rfl

theorem accounted_further (hinner : Explained good g blocks inner body) {least : UInt32} {most : Option UInt32}
    {pos : Nat} (ordered : (Expr.repetition body least most pos).Ordered) (fuel : Nat) (hg : good w.evaluator) :
    Accounted good (Copies g blocks body fun n => ∀ m ∈ most, least.toNat + n ≤ m.toNat) w
      (further inner fuel body least most w) := by
  cases most with
  | none =>
    refine (accounted_whileHeads hinner fuel hg).mono ?_
    rintro b text c ⟨n, -, rest⟩
    exact ⟨n, fun m hm => (by cases hm), rest⟩
  | some most =>
    have le : least.toNat ≤ most.toNat := ordered
    have lt : most.toNat - least.toNat < UInt32.size := Nat.lt_of_le_of_lt (Nat.sub_le _ _) most.toNat_lt
    obtain ⟨k, hk, -, clamped⟩ := Machine.counter_of_integer lt w.entropy
    simp only [further, clamped]
    refine Accounted.from ((accounted_atMost hinner k (by exact hg)).mono ?_) rfl rfl
    rintro b text c ⟨n, hn, rest⟩
    refine ⟨n, fun m hm => ?_, rest⟩
    cases hm
    omega

theorem accounted_repetition (hinner : Explained good g blocks inner body) {least : UInt32} {most : Option UInt32}
    {pos : Nat} (ordered : (Expr.repetition body least most pos).Ordered) (fuel : Nat) (hg : good w.evaluator) :
    Accounted good (Derives g blocks (.repetition body least most pos)) w
      (andThen (times inner body least.toNat w) (further inner fuel body least most)) := by
  refine (accounted_times hinner least.toNat hg).andThen (fun w' hg' => accounted_further hinner ordered fuel hg') ?_
  rintro b c d s t first ⟨n, hn, rest⟩
  have copies := first.append rest
  rw [List.replicate_append_replicate] at copies
  exact .repetition (Nat.le_add_right _ n) hn copies

/-- Each alternative that is tried starts from the same bindings and the same output. -/
theorem accounted_draws (hinner : ∀ e ∈ bodies, Explained good g blocks inner e) (n : Nat) (pool : Pool Expr)
    (hp : ∀ i ∈ pool.items, i.2 ∈ bodies) (hg : good w.evaluator) :
    Accounted good (fun b text c => ∃ e ∈ bodies, Derives g blocks e b text c) w (draws inner n pool w) := by
  induction n generalizing pool w with
  | zero => exact ⟨hg, .refl _⟩
  | succ n ih =>
    by_cases h0 : pool.items = []
    · obtain ⟨items, total⟩ := pool
      cases h0
      exact ⟨hg, .refl _⟩
    obtain ⟨e, rest, entropy, drawn, he, hrest, -⟩ := pool.draw_spec w.entropy h0
    obtain ⟨i, hi, rfl⟩ := List.mem_map.1 he
    rw [draws_succ inner drawn]
    have one : Accounted good (fun b text c => ∃ e ∈ bodies, Derives g blocks e b text c) { w with entropy := entropy }
        (inner i.2 { w with entropy := entropy }) :=
      (hinner i.2 (hp i hi) { w with entropy := entropy } hg).mono fun b text c h => ⟨i.2, hp i hi, h⟩
    match inner i.2 { w with entropy := entropy }, one with
    | none, _ => trivial
    | some (.done w'), one => exact Accounted.from one rfl rfl
    | some (.failed w'), one =>
      by_cases hn : n = 0
      · simp only [if_pos hn]
        exact Accounted.from one rfl rfl
      · -- the next draw starts from bindings and output like those of the first
        obtain ⟨sink, hs, hc⟩ := putBack_eq one.2
        simp only [if_neg hn, hs]
        exact Accounted.from (ih rest (fun j hj => hp j (hrest j hj)) one.1) rfl hc
    | some (.faulted _ _), _ => trivial

variable [Evaluator ε]

def Obeys (good : ε → Prop) (blocks : Blocks) : Prop :=
  ∀ (ev : ε) (code : String) (b : Bindings), good ev → good (Evaluator.evaluate ev code b).evaluator ∧
    ∀ v, (Evaluator.evaluate ev code b).result = .ok v → blocks code b v (Evaluator.evaluate ev code b).bindings

theorem accounted_evaluate {code : String} {next : Value → World σ ε → Outcome σ ε} {V : Value → Account}
    (hev : Obeys good blocks) (hg : good w.evaluator)
    (hnext : ∀ v w', good w'.evaluator → Accounted good (V v) w' (some (next v w'))) :
    Accounted good (fun b t d => ∃ v c, blocks code b v c ∧ V v c t d) w (some (w.evaluate code next)) := by
  obtain ⟨kept, allowed⟩ := hev w.evaluator code w.bindings hg
  unfold World.evaluate
  rcases he : Evaluator.evaluate w.evaluator code w.bindings with ⟨result, bindings, evaluator⟩
  rw [he] at kept allowed
  match result with
  | .error fault => trivial
  | .ok v =>
    have rest := hnext v { w with bindings := bindings, evaluator := evaluator } kept
    simp only
    match next v { w with bindings := bindings, evaluator := evaluator }, rest with
    | .done w', ⟨hg', t, hV, ht⟩ => exact ⟨hg', t, ⟨v, _, allowed v rfl, hV⟩, ht⟩
    | .failed w', rest => exact rest
    | .faulted _ _, _ => trivial

omit [TransactionalSink σ] [Evaluator ε] in
theorem exists_sampled {low high : Number} (some_number : (span low high).isEmpty = false) (w : World σ ε) :
    ∃ text entropy, w.writeNumber (span low high) = { w with entropy := entropy }.write text ∧
      Sampled (span low high) text := by
  cases hs : span low high with
  | empty =>
    rw [hs] at some_number
    cases some_number
  | single text => exact ⟨text, w.entropy, rfl, .single text⟩
  | ints a b =>
    have le := le_of_span hs
    exact ⟨_, _, rfl, .int (Entropy.le_integer le w.entropy) (Entropy.integer_le le w.entropy)⟩
  | floats a b => exact ⟨_, _, rfl, .float w.entropy.word_lt rfl⟩

omit [Evaluator ε] in
theorem accounted_range {low high : Number} {pos : Nat} (hg : good w.evaluator) :
    Accounted good (Derives g blocks (.range low high pos)) w (some (w.writeNumber (span low high))) := by
  cases some_number : (span low high).isEmpty with
  | true =>
    have empty : span low high = .empty := by
      cases hs : span low high with
      | empty => rfl
      | _ => rw [hs] at some_number; cases some_number
    rw [empty]
    exact ⟨hg, .refl _⟩
  | false =>
    obtain ⟨text, entropy, written, sampled⟩ := exists_sampled some_number w
    rw [written]
    have account := accounted_write (w := { w with entropy := entropy }) hg text
    refine Accounted.from (account.mono ?_) rfl rfl
    rintro b t c ⟨rfl, rfl⟩
    exact .range _ sampled

theorem explained_check {code : String} (hev : Obeys good blocks) (fuel : Nat) :
    Explained good g blocks (within inner g fuel) (.check code) := by
  intro w hg
  have tested : ∀ (v : Value) (w' : World σ ε), good w'.evaluator →
      Accounted good (fun b t c => v.isTruthy = true ∧ t = "" ∧ c = b) w'
        (some (if v.isTruthy then .done w' else .failed w')) := by
    intro v w' hg'
    cases hv : v.isTruthy with
    | true => exact .done hg' ⟨rfl, rfl, rfl⟩ rfl
    | false => exact ⟨hg', .refl _⟩
  refine (accounted_evaluate hev hg tested).mono ?_
  rintro b t d ⟨v, c, h, truthy, rfl, rfl⟩
  exact .check h truthy

theorem explained_action {code : String} (hev : Obeys good blocks) (fuel : Nat) :
    Explained good g blocks (within inner g fuel) (.action code) := by
  intro w hg
  have ignored : ∀ (v : Value) (w' : World σ ε), good w'.evaluator →
      Accounted good (fun b t c => t = "" ∧ c = b) w' (some (.done w')) :=
    fun _ _ hg' => .done hg' ⟨rfl, rfl⟩ rfl
  refine (accounted_evaluate hev hg ignored).mono ?_
  rintro b t d ⟨v, c, h, rfl, rfl⟩
  exact .action h

omit [Evaluator ε] in
theorem accounted_choice {alternatives : List (Alternative Expr)} {pos : Nat}
    (hinner : ∀ a ∈ alternatives, Explained good g blocks inner a.body) (hg : good w.evaluator) :
    Accounted good (Derives g blocks (.choice alternatives pos)) w
      (draws inner alternatives.length (alternativePool alternatives) w) := by
  have each : ∀ e ∈ alternatives.map Alternative.body, Explained good g blocks inner e := by
    intro e hm
    obtain ⟨a, ha, rfl⟩ := List.mem_map.1 hm
    exact hinner a ha
  have among : ∀ i ∈ (alternativePool alternatives).items, i.2 ∈ alternatives.map Alternative.body :=
    fun i hi => (List.of_mem_zip hi).2
  refine (accounted_draws each alternatives.length (alternativePool alternatives) among hg).mono ?_
  rintro b t c ⟨e, hm, h⟩
  obtain ⟨a, ha, rfl⟩ := List.mem_map.1 hm
  exact .choice ha h

mutual

/-- What an expression does is accounted for if that holds of all that its parts do. -/
theorem explained_within (hev : Obeys good blocks)
    (hrules : ∀ name body, g.rule? name = some body → body.Every Expr.Feasible)
    (hinner : ∀ e : Expr, e.Every Expr.Feasible → Explained good g blocks inner e) (fuel : Nat) :
    ∀ e : Expr, e.Every Expr.Feasible → Explained good g blocks (within inner g fuel) e
  | .literal text, _ => by
    intro w hg
    refine (accounted_write hg text).mono ?_
    rintro b t c ⟨rfl, rfl⟩
    exact .literal t c
  | .range _ _ _, _ => fun _ hg => accounted_range hg
  | .reference name pos, _ => by
    intro w hg
    simp only [within]
    cases hr : g.rule? name with
    | none => exact ⟨hg, .refl _⟩
    | some body => exact (hinner body (hrules name body hr) w hg).mono fun b t c h => .reference hr h
  | .sequence es, he => explained_withinAll hev hrules hinner fuel es he.2
  | .repetition body least most pos, he => fun _ hg => accounted_repetition (hinner body he.2) he.1.1 fuel hg
  | .choice alternatives pos, he => by
    intro w hg
    exact accounted_choice (fun a ha => hinner a.body (everyBranch_iff.1 he.2 a ha)) hg
  | .generate code, _ => by
    intro w hg
    refine (accounted_evaluate hev hg fun v w' hg' => accounted_write hg' v.text).mono ?_
    rintro b t d ⟨v, c, h, rfl, rfl⟩
    exact .generate h
  | .check code, _ => explained_check hev fuel
  | .action code, _ => explained_action hev fuel
  | .capture body name discard, he => by
    intro w hg
    refine (accounted_capture (hinner body he.2 w hg)).mono ?_
    rintro b t d ⟨c, text, h, rfl, rfl⟩
    exact .capture h

theorem explained_withinAll (hev : Obeys good blocks)
    (hrules : ∀ name body, g.rule? name = some body → body.Every Expr.Feasible)
    (hinner : ∀ e : Expr, e.Every Expr.Feasible → Explained good g blocks inner e) (fuel : Nat) :
    ∀ es : List Expr, EveryIn Expr.Feasible es → Explained good g blocks (within inner g fuel) (.sequence es)
  | [], _ => fun _ hg => .done hg (.nil _) rfl
  | e :: es, he => by
    intro w hg
    have first := explained_within hev hrules hinner fuel e he.1 w hg
    have rest := explained_withinAll hev hrules hinner fuel es he.2
    exact first.andThen rest fun b c d s t => .cons

end

theorem explained_run (hev : Obeys good blocks)
    (hrules : ∀ name body, g.rule? name = some body → body.Every Expr.Feasible) (fuel : Nat) (e : Expr)
    (he : e.Every Expr.Feasible) : Explained good g blocks (run g fuel : Runner σ ε) e := by
  induction fuel generalizing e with
  | zero => exact fun _ _ => trivial
  | succ fuel ih => exact explained_within hev hrules ih fuel e he

end Meaning
end TextGrammar
