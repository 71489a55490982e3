import TextGrammar.Proofs.PoolDraws
import TextGrammar.Proofs.Meaning
import TextGrammar.Proofs.Subexpressions
import TextGrammar.Proofs.Weights
set_option autoImplicit false

/-!
# The lowest expansion

Without entropy nothing is drawn: a range gives its lower bound, a repetition runs as often as it must, and a choice
tries its alternatives in the order in which they are written. A draw takes the first item of a pool because its total
is finite, however often a weight has been taken off, so that the target is a zero, and the first weight is more.
-/
namespace TextGrammar

namespace Binary64

/-- A total that is far from infinite. It need not be the sum of any weights. -/
def Level (x : Float) : Prop := ∃ z, Amounts x z ∧ z.natAbs ≤ 2 ^ (places + 60)

variable {x w : Float}

/-- So large a number loses nothing and gains nothing by a weight less or more. -/
theorem rounded_beyond {n : Nat} (h : n ≤ 2 ^ (places + 60) + 2 ^ (places + 2)) : rounded n ≤ 2 ^ (places + 60) := by
  have most : rounded (2 ^ (places + 60) + 2 ^ (places + 2)) = 2 ^ (places + 60) := by decide +kernel
  rw [← most]
  exact rounded_mono h

theorem lt_limit_of_level {n : Nat} (h : n ≤ 2 ^ (places + 60)) : n < limit :=
  Nat.lt_of_lt_of_le (Nat.lt_of_le_of_lt h (Nat.pow_lt_pow_right (by decide) (Nat.lt_succ_self _)))
    (pow_le_limit (by decide))

theorem Level.add (hx : Level x) (hw : Light w) : Level (x + w) := by
  obtain ⟨z, hz, far⟩ := hx
  obtain ⟨n, hn, -, most⟩ := hw
  have near : rounded (z + n).natAbs ≤ 2 ^ (places + 60) := rounded_beyond (by omega)
  exact ⟨_, hz.add hn (lt_limit_of_level near), by rwa [roundedInt, natAbs_apply]⟩

theorem Level.sub (hx : Level x) (hw : Light w) : Level (x - w) := by
  obtain ⟨z, hz, far⟩ := hx
  obtain ⟨n, hn, -, most⟩ := hw
  have near : rounded (z - n).natAbs ≤ 2 ^ (places + 60) := rounded_beyond (by omega)
  exact ⟨_, hz.sub hn (lt_limit_of_level near), by rwa [roundedInt, natAbs_apply]⟩

theorem level_zero : Level 0.0 := ⟨0, amounts_zero, Nat.zero_le _⟩

theorem zero_mul_lt (hx : Level x) (hw : Light w) : 0.0 * x < 0.0 + w := by
  obtain ⟨z, ⟨s, m, hx, -⟩, -⟩ := hx
  obtain ⟨n, hn, positive, most⟩ := hw
  have target : Amounts (0.0 * x) 0 := by
    rw [← apply_zero (.positive * s)]
    refine amounts_of_toModel ?_ (Nat.dvd_zero _) limit_pos
    rw [mul_toModel, unpack_zero, hx.unpacked, ofUnits]
    split <;> rfl
  have short : Short n := hn.short
  have small : n < limit := lt_limit_of_level (Nat.le_trans most (Nat.pow_le_pow_right (by decide) (by decide)))
  have first := amounts_zero.add hn (by rwa [Int.zero_add, Int.natAbs_natCast, rounded_of_short short])
  rw [target.lt_iff first, Int.zero_add, roundedInt_natCast, rounded_of_short short]
  exact Int.natCast_pos.2 positive

end Binary64

namespace Entropy

theorem unit_nil : unit [] = (0.0, []) := by
  have zero : (unit []).1 = 0.0 := by decide +kernel
  exact Prod.ext zero rfl

theorem integer_nil (low high : Int64) : integer low high [] = (low, []) := by
  have nothing (n : Nat) : bigEndian (([] : Bytes).take n) = 0 := by
    rw [List.take_nil]
    rfl
  simp only [integer, nothing, Nat.zero_mod, List.drop_nil]
  rw [Nat.cast_zero, Int.add_zero, Int64.ofInt_toInt]

end Entropy

namespace Pool
open Binary64

variable {τ υ : Type} {p rest : Pool τ} {x : τ} {e e' : Entropy}

structure Steady (p : Pool τ) : Prop where
  light : ∀ i ∈ p.items, Light i.1
  level : Level p.total

theorem steady_ofList {items : List (Float × τ)} (h : ∀ i ∈ items, Light i.1) : (ofList items).Steady := by
  have sums {x : Float} (hx : Level x) (items : List (Float × τ)) (h : ∀ i ∈ items, Light i.1) :
      Level (items.foldl (fun sum i => sum + i.1) x) := by
    induction items generalizing x with
    | nil => exact hx
    | cons i items ih =>
      rw [List.foldl_cons]
      exact ih (hx.add (h i List.mem_cons_self)) fun j hj => h j (List.mem_cons_of_mem _ hj)
  exact ⟨h, sums level_zero items h⟩

theorem steady_map {f : τ → υ} : (p.map f).Steady ↔ p.Steady := by
  have same : (∀ i ∈ (p.map f).items, Light i.1) ↔ ∀ i ∈ p.items, Light i.1 := List.forall_mem_map
  exact ⟨fun h => ⟨same.1 h.light, h.level⟩, fun h => ⟨same.2 h.light, h.level⟩⟩

/-- A draw leaves a pool steady, whatever it takes. -/
theorem Steady.draw (h : p.Steady) (hd : p.draw e = (some (x, rest), e')) : rest.Steady := by
  obtain ⟨items, total⟩ := p
  match items with
  | [] => cases hd
  | [i] =>
    cases hd
    exact ⟨nofun, h.level⟩
  | i :: j :: more =>
    simp only [Pool.draw, takeAt, Prod.mk.injEq, Option.map_eq_some_iff] at hd
    obtain ⟨⟨k, hk, -, rfl⟩, -⟩ := hd
    have among := List.mem_of_getElem? hk
    exact ⟨fun i hi => h.light i (List.mem_of_mem_eraseIdx hi), h.level.sub (h.light k among)⟩

/-- Without entropy the first item is drawn, and the others stay in their order. -/
theorem Steady.draw_nil (h : p.Steady) {i : Float × τ} {items : List (Float × τ)} (hi : p.items = i :: items) :
    ∃ total, p.draw [] = (some (i.2, ⟨items, total⟩), []) := by
  obtain ⟨_, total⟩ := p
  cases hi
  cases items with
  | nil => exact ⟨total, rfl⟩
  | cons j items =>
    have first := zero_mul_lt h.level (h.light i List.mem_cons_self)
    refine ⟨total - i.1, ?_⟩
    simp only [Pool.draw, Entropy.unit_nil, scan, first, if_true]
    rfl

end Pool

namespace Meaning
open Grammar

variable {σ ε : Type}

def Spent : Option (Outcome σ ε) → Prop
  | some (.done w) | some (.failed w) | some (.faulted _ w) => w.entropy = []
  | none => True

section
variable [Sink σ] [Evaluator ε]

namespace Lowest

variable (inner : Runner σ ε)

def writeNumber (w : World σ ε) : Span → Outcome σ ε
  | .ints low _ => w.write (Decimal.integerText low)
  | span => w.writeNumber span

/-- The first of some alternatives that does not fail. What those before it did is undone. -/
def firstOf : List Expr → World σ ε → Option (Outcome σ ε)
  | [], w => some (.failed w)
  | [e], w => inner e w
  | e :: es, w => match inner e w with
    | some (.failed w') => andThen (some (w'.putBack w)) (firstOf es)
    | o => o

/-- No iteration past the least number. Without a bound, it takes some fuel to find the coin on tails. -/
def stop (fuel : Nat) (most : Option UInt32) (w : World σ ε) : Option (Outcome σ ε) :=
  if most = none ∧ fuel = 0 then none else some (.done w)

mutual

def within (g : Grammar) (fuel : Nat) : Runner σ ε
  | .literal text, w => some (w.write text)
  | .range low high _, w => some (writeNumber w (span low high))
  | .reference name _, w => match g.rule? name with
    | some body => inner body w
    | none => some (.failed w)
  | .sequence es, w => withinAll g fuel es w
  | .repetition body least most _, w => andThen (times inner body least.toNat w) (stop fuel most)
  | .choice alternatives _, w => firstOf inner (alternatives.map Alternative.body) w
  | .generate code, w => some (w.evaluate code fun v w => w.write v.text)
  | .check code, w => some (w.evaluate code fun v w => if v.isTruthy then .done w else .failed w)
  | .action code, w => some (w.evaluate code fun _ w => .done w)
  | .capture body name discard, w => andThen (inner body w) fun now => some (World.capture name discard w now)

def withinAll (g : Grammar) (fuel : Nat) : List Expr → World σ ε → Option (Outcome σ ε)
  | [], w => some (.done w)
  | e :: es, w => andThen (within g fuel e w) (withinAll g fuel es)

end

/-- The expansion with as few iterations, as low numbers and as early alternatives as there can be. -/
def run (g : Grammar) : Nat → Runner σ ε
  | 0 => fun _ _ => none
  | fuel + 1 => within (run g fuel) g fuel

end Lowest
end

structure Agree (o o' : Option (Outcome σ ε)) : Prop where
  same : o = o'
  spent : Spent o'

variable [Sink σ] [Evaluator ε] {g : Grammar} {inner inner' : Runner σ ε} {o o' : Option (Outcome σ ε)}
    {w now : World σ ε}
  {body : Expr}

omit [Sink σ] [Evaluator ε] in
theorem agree_self (h : Spent o) : Agree o o := ⟨rfl, h⟩

omit [Sink σ] [Evaluator ε] in
theorem Agree.andThen {next next' : World σ ε → Option (Outcome σ ε)} (h : Agree o o')
    (further : ∀ w, w.entropy = [] → Agree (next w) (next' w)) :
    Agree (Meaning.andThen o next) (Meaning.andThen o' next') := by
  obtain ⟨rfl, spent⟩ := h
  match o, spent with
  | none, _ => exact agree_self trivial
  | some (.done w), spent => exact further w spent
  | some (.failed w), spent => exact agree_self spent
  | some (.faulted fault w), spent => exact agree_self spent

omit [Evaluator ε] in
theorem spent_write (text : String) (hw : w.entropy = []) : Spent (some (w.write text)) := by
  unfold World.write
  split <;> exact hw

omit [Evaluator ε] in
theorem spent_putBack (earlier : World σ ε) (hw : now.entropy = []) : Spent (some (now.putBack earlier)) := by
  unfold World.putBack
  split <;> exact hw

omit [Evaluator ε] in
theorem spent_capture (name : String) (discard : Bool) (earlier : World σ ε) (hw : now.entropy = []) :
    Spent (some (World.capture name discard earlier now)) := by
  unfold World.capture
  split
  · exact hw
  · split
    · exact hw
    · simp only
      split
      · split <;> exact hw
      · exact hw

omit [Sink σ] in
theorem spent_evaluate {code : String} {next : Value → World σ ε → Outcome σ ε} (hw : w.entropy = [])
    (further : ∀ v w, w.entropy = [] → Spent (some (next v w))) : Spent (some (w.evaluate code next)) := by
  unfold World.evaluate
  simp only
  split
  · exact further _ _ hw
  · exact hw

omit [Evaluator ε] in
theorem agree_writeNumber (span : Span) (hw : w.entropy = []) :
    Agree (some (w.writeNumber span)) (some (Lowest.writeNumber w span)) := by
  obtain ⟨bindings, sink, evaluator, _⟩ := w
  subst hw
  cases span with
  | empty => exact agree_self rfl
  | single text => exact agree_self (spent_write text rfl)
  | ints low high =>
    simp only [World.writeNumber, Entropy.integer_nil]
    exact agree_self (spent_write _ rfl)
  | floats low high => exact agree_self (spent_write _ rfl)

def Agreeing (inner inner' : Runner σ ε) : Prop :=
  ∀ e : Expr, e.Every Expr.Fair → ∀ w : World σ ε, w.entropy = [] → Agree (inner e w) (inner' e w)

omit [Sink σ] [Evaluator ε] in
theorem agree_times (h : Agreeing inner inner') (fair : body.Every Expr.Fair) (n : Nat) (hw : w.entropy = []) :
    Agree (times inner body n w) (times inner' body n w) := by
  induction n generalizing w with
  | zero => exact agree_self hw
  | succ n ih => exact (h body fair w hw).andThen fun w' hw' => ih hw'

omit [Evaluator ε] in
theorem agree_further (fuel : Nat) (body : Expr) (least : UInt32) (most : Option UInt32) (hw : w.entropy = []) :
    Agree (further inner fuel body least most w) (Lowest.stop fuel most w) := by
  obtain ⟨bindings, sink, evaluator, _⟩ := w
  subst hw
  cases most with
  | some most =>
    simp only [further, Entropy.integer_nil]
    exact agree_self rfl
  | none =>
    cases fuel with
    | zero => exact agree_self trivial
    | succ fuel => exact agree_self rfl

omit [Evaluator ε] in
theorem agree_draws (h : Agreeing inner inner') {n : Nat} {pool : Pool Expr} (steady : pool.Steady) (hn : pool.size = n)
    (fair : ∀ i ∈ pool.items, i.2.Every Expr.Fair) (hw : w.entropy = []) :
    Agree (draws inner n pool w) (Lowest.firstOf inner' (pool.items.map Prod.snd) w) := by
  induction n generalizing pool w with
  | zero =>
    rw [Pool.size, List.length_eq_zero_iff] at hn
    rw [hn]
    exact agree_self hw
  | succ n ih =>
    obtain ⟨i, items, hi⟩ := List.exists_cons_of_length_eq_add_one hn
    obtain ⟨total, drawn⟩ := steady.draw_nil hi
    rw [hi] at fair ⊢
    rw [Pool.size, hi, List.length_cons, Nat.succ_inj] at hn
    obtain ⟨bindings, sink, evaluator, _⟩ := w
    subst hw
    rw [draws_succ inner drawn]
    obtain ⟨same, spent⟩ := h i.2 (fair i List.mem_cons_self) ⟨bindings, sink, evaluator, []⟩ rfl
    rw [same]
    cases items with
    | nil =>
      obtain rfl : n = 0 := hn.symm
      simp only [List.map_cons, List.map_nil, Lowest.firstOf, if_true]
      match inner' i.2 _, spent with
      | none, spent => exact agree_self spent
      | some (.done w'), spent => exact agree_self spent
      | some (.failed w'), spent => exact agree_self spent
      | some (.faulted fault w'), spent => exact agree_self spent
    | cons j items =>
      have others {w : World σ ε} (hw : w.entropy = []) : Agree (draws inner n ⟨j :: items, total⟩ w)
          (Lowest.firstOf inner' ((j :: items).map Prod.snd) w) :=
        ih (steady.draw drawn) hn (fun k hk => fair k (List.mem_cons_of_mem _ hk)) hw
      have some_left : n ≠ 0 := by
        rintro rfl
        cases hn
      simp only [List.map_cons, Lowest.firstOf, some_left, if_false] at others ⊢
      match inner' i.2 _, spent with
      | none, spent => exact agree_self spent
      | some (.done w'), spent => exact agree_self spent
      | some (.failed w'), spent => exact (agree_self (spent_putBack _ spent)).andThen fun _ hw => others hw
      | some (.faulted fault w'), spent => exact agree_self spent

theorem alternativePool_bodies (alternatives : List (Alternative Expr)) :
    (alternativePool alternatives).items.map Prod.snd = alternatives.map Alternative.body :=
  List.map_snd_zip (Nat.le_of_eq (by rw [weights, List.length_map, List.length_map]))

omit [Evaluator ε] in
theorem agree_choice (h : Agreeing inner inner') {alternatives : List (Alternative Expr)} (weighted : Fair alternatives)
    (fair : EveryBranch Expr.Fair alternatives) (hw : w.entropy = []) :
    Agree (draws inner alternatives.length (alternativePool alternatives) w)
      (Lowest.firstOf inner' (alternatives.map Alternative.body) w) := by
  have length : (weights alternatives).length = (alternatives.map Alternative.body).length := by
    rw [weights, List.length_map, List.length_map]
  have steady : (alternativePool alternatives).Steady :=
    Pool.steady_ofList fun i hi => weighted.light i.1 (List.of_mem_zip (b := i.2) hi).1
  have size : (alternativePool alternatives).size = alternatives.length := by
    simp only [alternativePool, Pool.size, Pool.ofList, List.length_zip, length, List.length_map, Nat.min_self]
  rw [← alternativePool_bodies]
  refine agree_draws h steady size (fun i hi => ?_) hw
  obtain ⟨a, ha, same⟩ := List.mem_map.1 (List.of_mem_zip (a := i.1) hi).2
  rw [← same]
  exact everyBranch_iff.1 fair a ha

mutual

theorem agree_within (h : Agreeing inner inner') (hg : ∀ name body, g.rule? name = some body → body.Every Expr.Fair)
    (fuel : Nat) : ∀ e : Expr, e.Every Expr.Fair → ∀ w : World σ ε, w.entropy = [] →
      Agree (within inner g fuel e w) (Lowest.within inner' g fuel e w)
  | .literal text, _, w, hw => agree_self (spent_write text hw)
  | .range low high pos, _, w, hw => agree_writeNumber (span low high) hw
  | .reference name pos, _, w, hw => by
    rw [within, Lowest.within]
    cases hr : g.rule? name with
    | none => exact agree_self hw
    | some body => exact h body (hg name body hr) w hw
  | .sequence es, fair, w, hw => agree_withinAll h hg fuel es fair.2 w hw
  | .repetition body least most pos, fair, _, hw =>
    (agree_times h fair.2 least.toNat hw).andThen fun _ hw' => agree_further fuel body least most hw'
  | .choice alternatives pos, fair, w, hw => agree_choice h fair.1 fair.2 hw
  | .generate code, _, w, hw => agree_self (spent_evaluate hw fun v w' hw' => spent_write v.text hw')
  | .check code, _, w, hw => agree_self (spent_evaluate hw fun v w' hw' => by split <;> exact hw')
  | .action code, _, w, hw => agree_self (spent_evaluate hw fun _ _ hw' => hw')
  | .capture body name discard, fair, w, hw =>
    (h body fair.2 w hw).andThen fun now hnow => agree_self (spent_capture name discard w hnow)

theorem agree_withinAll (h : Agreeing inner inner') (hg : ∀ name body, g.rule? name = some body → body.Every Expr.Fair)
    (fuel : Nat) : ∀ es : List Expr, EveryIn Expr.Fair es → ∀ w : World σ ε, w.entropy = [] →
      Agree (withinAll inner g fuel es w) (Lowest.withinAll inner' g fuel es w)
  | [], _, _, hw => agree_self hw
  | e :: es, fair, w, hw =>
    (agree_within h hg fuel e fair.1 w hw).andThen fun w' hw' => agree_withinAll h hg fuel es fair.2 w' hw'

end

/-- Without entropy, what a grammar means is its lowest expansion. -/
theorem agree_run (hg : ∀ name body, g.rule? name = some body → body.Every Expr.Fair) (fuel : Nat) :
    Agreeing (run g fuel : Runner σ ε) (Lowest.run g fuel) := by
  induction fuel with
  | zero => exact fun _ _ _ _ => agree_self trivial
  | succ fuel ih => exact fun e fair w hw => agree_within ih hg fuel e fair w hw

end Meaning
end TextGrammar
