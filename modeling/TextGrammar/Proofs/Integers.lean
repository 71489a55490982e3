import Mathlib.Algebra.Group.Int.Defs
import TextGrammar.Script.Evaluation
set_option autoImplicit false

namespace TextGrammar.Script

def Fits (n : Int) : Prop := -2 ^ 63 ≤ n ∧ n < 2 ^ 63

instance : DecidablePred Fits := fun n => inferInstanceAs (Decidable (-2 ^ 63 ≤ n ∧ n < 2 ^ 63))

inductive Act where
  | negate (x : Int)
  | operate (op : Operation) (x y : Int)

namespace Act

/-- The exact result. A quotient is truncated toward zero, and a remainder has the sign of the dividend. -/
def result : Act → Int
  | .negate x => -x
  | .operate .add x y => x + y
  | .operate .sub x y => x - y
  | .operate .mul x y => x * y
  | .operate .div x y => x.tdiv y
  | .operate .rem x y => x.tmod y

def divisor? : Act → Option Int
  | .operate .div _ y | .operate .rem _ y => some y
  | _ => none

def leastRemainder : Act := .operate .rem (-2 ^ 63) (-1)

structure Sound (a : Act) : Prop where
  divisor : a.divisor? ≠ some 0
  fits : Fits a.result
  regular : a ≠ leastRemainder

inductive Fails (a : Act) : EvalFault → Prop
  | byZero (h : a.divisor? = some 0) : Fails a .divisionByZero
  | overflow (divisor : a.divisor? ≠ some 0) (h : ¬ Fits a.result ∨ a = leastRemainder) : Fails a .integerOverflow

end Act

/-- Terms over integer constants, and over variables that are bound to integers. -/
inductive Integral (b : Bindings) : Term → Prop
  | constant (n : Int64) : Integral b (.constant (.int n))
  | named {name : String} {n : Int64} (h : b.get? name = some (.int n)) : Integral b (.variable name)
  | negate {x : Term} (h : Integral b x) : Integral b (.negate x)
  | operate (op : Operation) {x y : Term} (hx : Integral b x) (hy : Integral b y) : Integral b (.operate op x y)

/-- The exact value of a term, and its operations in the order in which they are met. -/
inductive Exact (b : Bindings) : Term → Int → List Act → Prop
  | constant (n : Int64) : Exact b (.constant (.int n)) n.toInt []
  | named {name : String} {n : Int64} (h : b.get? name = some (.int n)) : Exact b (.variable name) n.toInt []
  | negate {x : Term} {m : Int} {acts : List Act} (h : Exact b x m acts) :
      Exact b (.negate x) (Act.negate m).result (acts ++ [.negate m])
  | operate (op : Operation) {x y : Term} {m n : Int} {acts acts' : List Act} (hx : Exact b x m acts)
      (hy : Exact b y n acts') :
      Exact b (.operate op x y) (Act.operate op m n).result (acts ++ acts' ++ [.operate op m n])

variable {b : Bindings} {t x y : Term} {m n : Int} {a : Act} {acts acts' : List Act} {outcome : Except EvalFault Value}

theorem Integral.exists_exact (h : Integral b t) : ∃ n acts, Exact b t n acts := by
  induction h with
  | constant n => exact ⟨_, _, .constant n⟩
  | named h => exact ⟨_, _, .named h⟩
  | negate _ ih =>
    obtain ⟨m, acts, exactly⟩ := ih
    exact ⟨_, _, .negate exactly⟩
  | operate op _ _ ihx ihy =>
    obtain ⟨m, acts, left⟩ := ihx
    obtain ⟨n, acts', right⟩ := ihy
    exact ⟨_, _, .operate op left right⟩

theorem fits_toInt (w : Int64) : Fits w.toInt := ⟨w.le_toInt, w.toInt_lt⟩

theorem exactly_of_fits (h : Fits n) : ∃ w : Int64, exactly n = .ok (.int w) ∧ w.toInt = n := by
  refine ⟨Int64.ofInt n, ?_, Int64.toInt_ofInt_of_le h.1 h.2⟩
  have bounds : Int64.minValue.toInt ≤ n ∧ n ≤ Int64.maxValue.toInt := ⟨h.1, Int.le_of_lt_add_one h.2⟩
  rw [exactly, Decimal.int64?, if_pos bounds]

theorem exactly_of_not_fits (h : ¬ Fits n) : exactly n = .error .integerOverflow := by
  have bounds : ¬ (Int64.minValue.toInt ≤ n ∧ n ≤ Int64.maxValue.toInt) :=
    fun both => h ⟨both.1, Int.lt_add_one_of_le both.2⟩
  rw [exactly, Decimal.int64?, if_neg bounds]

theorem int64?_isNone_iff : (Decimal.int64? n).isNone ↔ ¬ Fits n := by
  by_cases h : Fits n
  · obtain ⟨w, hw, -⟩ := exactly_of_fits h
    rw [exactly] at hw
    cases found : Decimal.int64? n with
    | some w => simp [h]
    | none => simp [found] at hw
  · have none := exactly_of_not_fits h
    rw [exactly] at none
    cases found : Decimal.int64? n with
    | some w => simp [found] at none
    | none => simp [h]

/-- Only the least integer by minus one has a quotient that is out of range. -/
theorem fits_tdiv_iff (hm : Fits m) (hn : n ≠ 0) : Fits (m.tdiv n) ↔ ¬ (m = -2 ^ 63 ∧ n = -1) := by
  constructor
  · rintro fits ⟨rfl, rfl⟩
    exact absurd fits.2 (by decide)
  intro other
  have size : (m.tdiv n).natAbs = m.natAbs / n.natAbs := Int.natAbs_tdiv m n
  unfold Fits at hm ⊢
  by_cases unit : n.natAbs = 1
  · obtain rfl | rfl : n = 1 ∨ n = -1 := by omega
    · rw [Int.tdiv_one]
      exact hm
    · rw [Int.tdiv_neg, Int.tdiv_one]
      omega
  · have half : m.natAbs / n.natAbs ≤ m.natAbs / 2 := Nat.div_le_div_left (by omega) (by decide)
    omega

/-- What becomes of an operation: its exact result, or the reason why there is none. -/
def Act.Gives (a : Act) (outcome : Except EvalFault Value) : Prop :=
  (a.Sound ∧ ∃ w : Int64, outcome = .ok (.int w) ∧ w.toInt = a.result) ∨ ∃ f, a.Fails f ∧ outcome = .error f

theorem gives_exactly (divisor : a.divisor? ≠ some 0) (regular : a ≠ .leastRemainder) : a.Gives (exactly a.result) := by
  by_cases fits : Fits a.result
  · exact .inl ⟨⟨divisor, fits, regular⟩, exactly_of_fits fits⟩
  · exact .inr ⟨_, .overflow divisor (.inl fits), exactly_of_not_fits fits⟩

theorem gives_negate (w : Int64) : (Act.negate w.toInt).Gives (negate (.int w)) := gives_exactly nofun nofun

theorem gives_remainder (v w : Int64) : (Act.operate .rem v.toInt w.toInt).Gives (onIntegers .rem v.toInt w.toInt) := by
  by_cases zero : w.toInt = 0
  · exact .inr ⟨_, .byZero (congrArg some zero), by simp only [onIntegers, if_pos zero]⟩
  have divisor : (Act.operate .rem v.toInt w.toInt).divisor? ≠ some 0 := fun h => zero (Option.some.inj h)
  simp only [onIntegers, if_neg zero]
  split
  · rename_i beyond
    have quotient : ¬ Fits (v.toInt.tdiv w.toInt) := int64?_isNone_iff.1 beyond
    rw [fits_tdiv_iff (fits_toInt v) zero, Decidable.not_not] at quotient
    exact .inr ⟨_, .overflow divisor (.inr (by rw [quotient.1, quotient.2]; rfl)), rfl⟩
  · rename_i within
    have quotient : Fits (v.toInt.tdiv w.toInt) := Decidable.not_not.1 fun beyond => within (int64?_isNone_iff.2 beyond)
    refine gives_exactly divisor fun same => ?_
    injection same with _ left right
    exact (fits_tdiv_iff (fits_toInt v) zero).1 quotient ⟨left, right⟩

theorem gives_operate (op : Operation) (v w : Int64) :
    (Act.operate op v.toInt w.toInt).Gives (operate op (.int v) (.int w)) := by
  have numbers : operate op (.int v) (.int w) = onIntegers op v.toInt w.toInt := if_neg fun h => Bool.false_ne_true h.2
  rw [numbers]
  cases op with
  | add => exact gives_exactly nofun nofun
  | sub => exact gives_exactly nofun nofun
  | mul => exact gives_exactly nofun nofun
  | div =>
    by_cases zero : w.toInt = 0
    · exact .inr ⟨_, .byZero (congrArg some zero), by simp only [onIntegers, if_pos zero]⟩
    · simp only [onIntegers, if_neg zero]
      exact gives_exactly (a := .operate .div v.toInt w.toInt) (fun h => zero (Option.some.inj h)) nofun
  | rem => exact gives_remainder v w

/-- Either every operation is sound, and the outcome is the exact value, or it is the fault of the first that is not. -/
def Follows (acts : List Act) (n : Int) (outcome : Except EvalFault Value) : Prop :=
  ((∀ a ∈ acts, a.Sound) ∧ ∃ w : Int64, outcome = .ok (.int w) ∧ w.toInt = n) ∨
    ∃ before a after f, acts = before ++ a :: after ∧ (∀ c ∈ before, c.Sound) ∧ a.Fails f ∧ outcome = .error f

theorem Act.Gives.follows (sound : ∀ c ∈ acts, c.Sound) (h : a.Gives outcome) :
    Follows (acts ++ [a]) a.result outcome := by
  obtain ⟨ha, exactly⟩ | ⟨f, ha, failed⟩ := h
  · refine .inl ⟨fun c hc => ?_, exactly⟩
    rcases List.mem_append.1 hc with hc | hc
    · exact sound c hc
    · rwa [List.mem_singleton.1 hc]
  · exact .inr ⟨acts, a, [], f, rfl, sound, ha, failed⟩

theorem follows_of_fails {before after : List Act} {f : EvalFault} (sound : ∀ c ∈ before, c.Sound) (ha : a.Fails f)
    (m : Int) (more : List Act) : Follows (before ++ a :: after ++ more) m (.error f) :=
  .inr ⟨before, a, after ++ more, f, by simp, sound, ha, rfl⟩

theorem follows_eval (h : Exact b t n acts) : Follows acts n (t.eval b) := by
  induction h with
  | constant n => exact .inl ⟨nofun, n, by rw [Term.eval], rfl⟩
  | @named name n h => exact .inl ⟨nofun, n, by rw [Term.eval, h], rfl⟩
  | @negate x m acts _ ih =>
    rw [Term.eval]
    obtain ⟨sound, w, value, rfl⟩ | ⟨before, a, after, f, rfl, sound, ha, failed⟩ := ih
    · rw [value]
      exact (gives_negate w).follows sound
    · rw [failed]
      exact follows_of_fails sound ha _ _
  | @operate op x y m n acts acts' _ _ ihx ihy =>
    rw [Term.eval]
    obtain ⟨left, v, value, rfl⟩ | ⟨before, a, after, f, rfl, sound, ha, failed⟩ := ihx
    · rw [value]
      obtain ⟨right, w, value', rfl⟩ | ⟨before, a, after, f, rfl, sound, ha, failed⟩ := ihy
      · change Follows _ _ (y.eval b >>= operate op (.int v))
        rw [value']
        refine (gives_operate op v w).follows fun c hc => ?_
        exact (List.mem_append.1 hc).elim (left c) (right c)
      · change Follows _ _ (y.eval b >>= operate op (.int v))
        rw [failed, ← List.append_assoc]
        exact follows_of_fails (fun c hc => (List.mem_append.1 hc).elim (left c) (sound c)) ha _ _
    · rw [failed, List.append_assoc]
      exact follows_of_fails sound ha _ _

theorem Act.Sound.not_fails {f : EvalFault} (h : a.Sound) (fails : a.Fails f) : False := by
  cases fails with
  | byZero divisor => exact h.divisor divisor
  | overflow _ reason => exact reason.elim (fun beyond => beyond h.fits) h.regular

/-- A term over integers has its exact value if and only if every operation in it is sound. It never has another value, and
a fault is that of the first operation that is not sound. -/
theorem eval_integral (h : Integral b t) : ∃ n acts, Exact b t n acts ∧
    ((∀ a ∈ acts, a.Sound) ↔ ∃ w : Int64, t.eval b = .ok (.int w) ∧ w.toInt = n) ∧
    (∀ v, t.eval b = .ok v → ∃ w : Int64, v = .int w ∧ w.toInt = n) ∧
    ∀ f, t.eval b = .error f →
      ∃ before a after, acts = before ++ a :: after ∧ (∀ c ∈ before, c.Sound) ∧ a.Fails f := by
  obtain ⟨n, acts, exactly⟩ := h.exists_exact
  refine ⟨n, acts, exactly, ?_⟩
  obtain ⟨sound, w, value, same⟩ | ⟨before, a, after, f, rfl, sound, ha, failed⟩ := follows_eval exactly
  · rw [value]
    refine ⟨⟨fun _ => ⟨w, rfl, same⟩, fun _ => sound⟩, ?_, nofun⟩
    rintro _ ⟨⟩
    exact ⟨w, rfl, same⟩
  · rw [failed]
    refine ⟨⟨fun all => ((all a (by simp)).not_fails ha).elim, nofun⟩, nofun, ?_⟩
    rintro _ ⟨⟩
    exact ⟨before, a, after, rfl, sound, ha⟩

/-- The remainder of a negative number by a positive one. -/
theorem eval_integral_remainder :
    Integral [("x", .int 7)] (.operate .rem (.negate (.variable "x")) (.constant (.int 2))) ∧
      ∃ w : Int64, Term.eval [("x", .int 7)] (.operate .rem (.negate (.variable "x")) (.constant (.int 2))) =
        .ok (.int w) ∧ w.toInt = -1 := by
  have integral : Integral [("x", .int 7)] (.operate .rem (.negate (.variable "x")) (.constant (.int 2))) :=
    .operate .rem (.negate (.named rfl)) (.constant 2)
  obtain ⟨n, acts, exactly, value, -⟩ := eval_integral integral
  refine ⟨integral, ?_⟩
  cases exactly with
  | operate _ left right =>
    cases left with
    | negate inner =>
      cases inner with
      | named bound =>
        cases bound
        cases right with
        | constant _ =>
          refine value.1 ?_
          simp only [List.nil_append, List.append_nil, List.singleton_append, List.mem_cons, List.not_mem_nil, or_false]
          rintro a (rfl | rfl)
          · exact ⟨nofun, by decide, nofun⟩
          · exact ⟨by decide, by decide, nofun⟩

/-- No divisor is zero and every exact result fits, and still there is an overflow: that of the quotient. -/
theorem least_remainder_overflows :
    Integral [("x", .int Int64.minValue)] (.operate .rem (.variable "x") (.negate (.constant (.int 1)))) ∧
      Exact [("x", .int Int64.minValue)] (.operate .rem (.variable "x") (.negate (.constant (.int 1)))) 0
        [.negate 1, .operate .rem (-2 ^ 63) (-1)] ∧
      (∀ a ∈ [Act.negate 1, .operate .rem (-2 ^ 63) (-1)], a.divisor? ≠ some 0 ∧ Fits a.result) ∧
      Term.eval [("x", .int Int64.minValue)] (.operate .rem (.variable "x") (.negate (.constant (.int 1)))) =
        .error .integerOverflow := by
  have bound : Bindings.get? [("x", .int Int64.minValue)] "x" = some (.int Int64.minValue) := rfl
  have exactly := Exact.operate .rem (.named bound) (.negate (.constant 1))
  refine ⟨.operate .rem (.named bound) (.negate (.constant 1)), exactly, ?_, rfl⟩
  simp only [List.mem_cons, List.not_mem_nil, or_false]
  rintro a (rfl | rfl)
  · exact ⟨nofun, by decide⟩
  · exact ⟨by decide, by decide⟩

end TextGrammar.Script
