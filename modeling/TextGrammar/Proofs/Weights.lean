import TextGrammar.Proofs.Floats
import TextGrammar.Proofs.WellFormed
import TextGrammar.Proofs.ReaderResults
set_option autoImplicit false

/-!
# Weights and their sums

The weights of a choice that was accepted are positive and not much larger than one, and no sum or difference of them
gets out of the range of floats.
-/
namespace TextGrammar

namespace Binary64
open Float.Model Float.Model.UnpackedFloat

variable {s t : Sign} {m n d k : Nat} {e f : Int} {x y z : Float} {a b c : Int}

theorem log2_div_le (hq : m / d ≠ 0) : (m / d).log2 + d.log2 ≤ m.log2 := by
  have some_divisor : d ≠ 0 := by
    rintro rfl
    exact hq (Nat.div_zero m)
  have some_dividend : m ≠ 0 := by
    rintro rfl
    exact hq (Nat.zero_div d)
  rw [Nat.le_log2 some_dividend, Nat.pow_add]
  calc
    2 ^ (m / d).log2 * 2 ^ d.log2 ≤ m / d * d := Nat.mul_le_mul (Nat.log2_self_le hq) (Nat.log2_self_le some_divisor)
    _ ≤ m := Nat.div_mul_le_self m d

theorem le_log2_div (hm : m ≠ 0) (hd : d ≠ 0) : m.log2 ≤ (m / d).log2 + d.log2 + 1 := by
  have less : m < 2 ^ ((m / d).log2 + d.log2 + 2) := by
    calc
      m < d * (m / d + 1) := Nat.lt_mul_div_succ m (Nat.pos_of_ne_zero hd)
      _ ≤ 2 ^ (d.log2 + 1) * 2 ^ ((m / d).log2 + 1) :=
        Nat.mul_le_mul (Nat.le_of_lt Nat.lt_log2_self) Nat.lt_log2_self
      _ = 2 ^ ((m / d).log2 + d.log2 + 2) := by
        rw [← Nat.pow_add]
        congr 1
        omega
  have := (Nat.log2_lt hm).2 less
  omega

theorem div_units (hm : 0 < m) (hd : 0 < d) (hk : (k : Int) = max (m.log2 - d.log2 + (e - f) + 1022) 0) :
    ∃ n, UnpackedFloat.div Format.binary64 (.finite s m e hm) (.finite t d f hd) = ofUnits (s / t) n ∧
      Short n ∧ n ≤ 2 ^ (53 + k) := by
  -- the quotient `q` is formed on the grid of the exponent `g`
  obtain ⟨g, hg⟩ :
    ∃ g : Int, g = min (e - f) (Format.binary64.targetExponent (totalExponent m e - totalExponent d f)) :=
    ⟨_, rfl⟩
  have grid := hg
  rw [targetExponent_sub] at grid
  obtain ⟨q, hq⟩ : ∃ q, q = m * 2 ^ (e - f - g).toNat / d := ⟨_, rfl⟩
  have longer : m * 2 ^ (e - f - g).toNat ≠ 0 := Nat.mul_ne_zero (Nat.ne_of_gt hm) (Nat.ne_of_gt (Nat.two_pow_pos _))
  have least := le_log2_div longer (Nat.ne_of_gt hd)
  have most : q ≠ 0 → q.log2 + d.log2 ≤ (m * 2 ^ (e - f - g).toNat).log2 := by
    rw [hq]
    exact log2_div_le
  rw [log2_shift (Nat.ne_of_gt hm)] at least most
  rw [← hq] at least
  obtain ⟨j, hj⟩ : ∃ j : Nat, (j : Int) = max (q.log2 + g - 52) (-1074) + 1074 :=
    ⟨(max (q.log2 + g - 52) (-1074) + 1074).toNat, by omega⟩
  have target : Format.binary64.targetExponent (totalExponent q g) = j - 1074 := by
    rw [targetExponent_eq, hj]
    omega
  have bits : g ≤ j - 1074 := by omega
  have within : j ≤ k := by
    by_cases none : q = 0
    · rw [none, Nat.log2_zero] at hj least
      omega
    · have := most none
      omega
  simp only [UnpackedFloat.div, divCore, ← hg, Nat.shiftLeft_eq, ← hq]
  rw [roundWithAccuracy_eq (s / t) _ bits target]
  have bounds := roundedMantissa_bounds (ExtendedMantissa.ofMantissaAndAccuracy q
    (accuracyOfFraction (m * 2 ^ (e - f - g).toNat % d) d) >>> (j - 1074 - g).toNat)
  rw [mantissa_shifted, mantissa_ofMantissaAndAccuracy] at bounds
  have short : q / 2 ^ (j - 1074 - g).toNat < 2 ^ 53 := by
    rw [Nat.div_lt_iff_lt_mul (Nat.two_pow_pos _), ← Nat.pow_add]
    refine Nat.lt_of_lt_of_le Nat.lt_log2_self (Nat.pow_le_pow_right (by decide) ?_)
    omega
  refine ⟨_, rfl, short_mul (Nat.le_trans bounds.2 short) j, ?_⟩
  rw [Nat.pow_add]
  exact Nat.mul_le_mul (Nat.le_trans bounds.2 short) (Nat.pow_le_pow_right (by decide) within)

theorem log2_significand (hn : n ≠ 0) (h : Short n) : (n / 2 ^ excess n).log2 + excess n = n.log2 := by
  rw [← log2_shift (Nat.ne_of_gt (quotient_pos hn)), Nat.div_mul_cancel h]

theorem unpack_ofNat (k : Nat) : (Float.ofNat k).toModel.unpack = .infinity .positive ∨
    Measures (Float.ofNat k) .positive (rounded (k * 2 ^ places)) := by
  rw [ofNat_eq_pack]
  by_cases fits : rounded (k * 2 ^ places) < limit
  · exact .inr (measures_pack (short_rounded _) fits _)
  · exact .inl (unpack_pack_infinity (Nat.not_lt.1 fits))

theorem rounded_two_pow (k : Nat) : rounded (2 ^ k) = 2 ^ k := by
  have short := short_mul (q := 1) (by decide) k
  rw [Nat.one_mul] at short
  exact rounded_of_short short

theorem le_rounded_ofNat (hk : k ≠ 0) : 2 ^ places ≤ rounded (k * 2 ^ places) := by
  have one := rounded_mono (Nat.le_mul_of_pos_left (2 ^ places) (Nat.pos_of_ne_zero hk))
  rwa [rounded_two_pow] at one

theorem amounts_of_toModel (hx : x.toModel = Float.Model.pack (ofUnits s n)) (short : Short n) (bounded : n < limit) :
    Amounts x (s.apply n) :=
  (Measures.mk (by rw [hx, unpack_pack bounded]) short bounded).amounts

theorem amounts_div (hx : Amounts x a) (ha : a.natAbs ≤ 2 ^ (places + 1)) (hk : k ≠ 0) :
    ∃ b, Amounts (x / Float.ofNat k) b ∧ b.natAbs ≤ 2 ^ (places + 2) := by
  have hp := places_eq
  obtain ⟨s, m, hx, rfl⟩ := hx
  rw [natAbs_apply] at ha
  have nothing {t : Sign}
      (h : UnpackedFloat.div Format.binary64 x.toModel.unpack (Float.ofNat k).toModel.unpack = .zero t) :
      ∃ b, Amounts (x / Float.ofNat k) b ∧ b.natAbs ≤ 2 ^ (places + 2) := by
    refine ⟨t.apply (0 : Nat), amounts_of_toModel ?_ (Nat.dvd_zero _) limit_pos, ?_⟩
    · rw [div_toModel, h, ofUnits_zero]
    · rw [natAbs_apply]
      exact Nat.zero_le _
  have hy := unpack_ofNat k
  have one := le_rounded_ofNat hk
  obtain ⟨d, hd⟩ : ∃ d, d = rounded (k * 2 ^ places) := ⟨_, rfl⟩
  rw [← hd] at hy one
  have some_divisor : d ≠ 0 := Nat.ne_of_gt (Nat.lt_of_lt_of_le (Nat.two_pow_pos _) one)
  by_cases zero : m = 0
  · subst zero
    rcases hy with endless | hy
    · exact nothing (by rw [hx.unpacked, endless]; rfl)
    · exact nothing (by rw [hx.unpacked, hy.unpacked, ofUnits_pos _ (quotient_pos some_divisor)]; rfl)
  rcases hy with endless | hy
  · exact nothing (by rw [hx.unpacked, endless, ofUnits_pos _ (quotient_pos zero)]; rfl)
  obtain ⟨j, hj⟩ : ∃ j : Nat, (j : Int) = max ((m / 2 ^ excess m).log2 - (d / 2 ^ excess d).log2 +
      ((excess m - 1074 : Int) - (excess d - 1074)) + 1022) 0 := ⟨_, Int.toNat_of_nonneg (Int.le_max_right _ _)⟩
  obtain ⟨n, quotient, short, most⟩ :=
    div_units (s := s) (t := .positive) (quotient_pos zero) (quotient_pos some_divisor) hj
  have exponent : 53 + j ≤ places + 2 := by
    have above := log2_significand zero hx.short
    have below := log2_significand some_divisor hy.short
    have most := (Nat.log2_lt zero).2 (Nat.lt_of_le_of_lt ha (Nat.pow_lt_pow_right (by decide) (Nat.lt_succ_self _)))
    have least := (Nat.le_log2 some_divisor).2 one
    omega
  have heaviest := Nat.le_trans most (Nat.pow_le_pow_right (by decide) exponent)
  have bounded : n < limit := Nat.lt_of_lt_of_le (Nat.lt_of_le_of_lt heaviest (Nat.pow_lt_pow_right (by decide)
    (Nat.lt_succ_self _))) (pow_le_limit (by omega))
  refine ⟨(s / .positive).apply n, amounts_of_toModel ?_ short bounded, by rwa [natAbs_apply]⟩
  rw [div_toModel, hx.unpacked, hy.unpacked, ofUnits_pos _ (quotient_pos zero),
    ofUnits_pos _ (quotient_pos some_divisor), quotient]

theorem amounts_of_nonneg (h : 0.0 ≤ x) : x.toModel.unpack = .infinity .positive ∨ ∃ n : Nat, Amounts x n := by
  rcases nonneg_cases h with endless | ⟨s, nothing⟩ | ⟨n, -, measures⟩
  · exact .inl endless
  · refine .inr ⟨0, s, 0, ⟨nothing, Nat.dvd_zero _, limit_pos⟩, (apply_zero s).symm⟩
  · exact .inr ⟨n, measures.amounts⟩

theorem lt_infinity (hc : Amounts y c) (hx : x.toModel.unpack = .infinity .positive) : y < x := by
  obtain ⟨s, n, hc, -⟩ := hc
  have less : y < x ↔ y.toModel.unpack.lt x.toModel.unpack = true := decide_eq_true_iff
  rw [less, hx, hc.unpacked, ofUnits]
  split <;> cases s <;> rfl

theorem add_toModel (x y : Float) : (x + y).toModel =
    Float.Model.pack (UnpackedFloat.add Format.binary64 x.toModel.unpack y.toModel.unpack) := rfl

theorem add_infinity {u v : UnpackedFloat} (hu : u = .infinity .positive)
    (hv : Signed .positive v ∨ v = .zero .negative) :
    UnpackedFloat.add Format.binary64 u v = .infinity .positive ∧
      UnpackedFloat.add Format.binary64 v u = .infinity .positive := by
  subst hu
  cases v with
  | notANumber => exact absurd hv (not_or.2 ⟨not_false, nofun⟩)
  | infinity s =>
    obtain rfl : s = .positive := hv.resolve_right nofun
    exact ⟨rfl, rfl⟩
  | zero s => exact ⟨rfl, rfl⟩
  | finite s m e h => exact ⟨rfl, rfl⟩

theorem unpack_of_infinity {u : UnpackedFloat} (hu : u = .infinity .positive) :
    (Float.Model.pack u).unpack = .infinity .positive := by
  rw [hu]
  exact unpack_packedInfinity .positive

theorem roundedInt_natCast (n : Nat) : roundedInt n = rounded n := by
  rw [roundedInt, signOf, if_neg (Int.not_lt.2 (Int.natCast_nonneg n))]
  rfl

theorem sum_cases (hx : 0.0 ≤ x) (hy : 0.0 ≤ y) : (x + y).toModel.unpack = .infinity .positive ∨
    ∃ m n : Nat, Amounts x m ∧ Amounts y n ∧ Amounts (x + y) (rounded (m + n) : Nat) := by
  rcases amounts_of_nonneg hx with endless | ⟨m, hm⟩
  · exact .inl (unpack_of_infinity (add_infinity endless (nonneg_iff.1 hy)).1)
  rcases amounts_of_nonneg hy with endless | ⟨n, hn⟩
  · exact .inl (unpack_of_infinity (add_infinity endless (nonneg_iff.1 hx)).2)
  by_cases fits : rounded (m + n) < limit
  · refine .inr ⟨m, n, hm, hn, ?_⟩
    rw [← roundedInt_natCast, Nat.cast_add]
    refine hm.add hn ?_
    rwa [← Nat.cast_add, Int.natAbs_natCast]
  · obtain ⟨s, m', mx, same_m⟩ := hm
    obtain ⟨t, n', my, same_n⟩ := hn
    obtain ⟨u, sum, value⟩ := add_units mx.short my.short s t
    rw [← same_m, ← same_n, ← Nat.cast_add, roundedInt_natCast, Int.natAbs_natCast] at value
    rw [← same_m, ← same_n, ← Nat.cast_add, Int.natAbs_natCast, ← mx.unpacked, ← my.unpacked] at sum
    refine .inl ?_
    rw [add_toModel, sum, unpack_pack_infinity (Nat.not_lt.1 fits)]
    cases u with
    | positive => rfl
    | negative =>
      have := limit_pos
      change -(rounded (m + n) : Int) = rounded (m + n) at value
      omega

theorem amounts_zero : Amounts 0.0 0 := ⟨.positive, 0, ⟨unpack_zero, Nat.dvd_zero _, limit_pos⟩, rfl⟩

theorem add_nonneg (hx : 0.0 ≤ x) (hy : 0.0 ≤ y) : 0.0 ≤ x + y := by
  rcases sum_cases hx hy with endless | ⟨m, n, -, -, sum⟩
  · exact nonneg_iff.2 (.inl (by rw [endless]; rfl))
  · exact (amounts_zero.le_iff sum).2 (Int.natCast_nonneg _)

/-- A finite float that is neither negative nor larger than so many units. -/
def Within (c : Nat) (x : Float) : Prop := ∃ n : Nat, Amounts x n ∧ n ≤ c

theorem Within.mono {c d : Nat} (h : Within c x) (hd : c ≤ d) : Within d x := by
  obtain ⟨n, hn, most⟩ := h
  exact ⟨n, hn, Nat.le_trans most hd⟩

theorem within_of_sum {c : Nat} (hx : 0.0 ≤ x) (hy : 0.0 ≤ y) (h : Within c (x + y)) : Within c x ∧ Within c y := by
  obtain ⟨whole, hw, most⟩ := h
  rcases sum_cases hx hy with endless | ⟨m, n, hm, hn, sum⟩
  · exact absurd ((hw.lt_iff hw).1 (lt_infinity hw endless)) (Int.lt_irrefl _)
  have short_m : Short m := hm.short
  have short_n : Short n := hn.short
  have same : whole = rounded (m + n) := Int.ofNat_inj.1 (hw.unique sum)
  have first := rounded_mono (Nat.le_add_right m n)
  have second := rounded_mono (Nat.le_add_left n m)
  rw [rounded_of_short short_m] at first
  rw [rounded_of_short short_n] at second
  exact ⟨⟨m, hm, by omega⟩, n, hn, by omega⟩

theorem within_of_not_lt {c : Nat} (hz : Amounts z c) (hx : 0.0 ≤ x) (h : ¬ z < x) : Within c x := by
  rcases amounts_of_nonneg hx with endless | ⟨n, hn⟩
  · exact absurd (lt_infinity hz endless) h
  · rw [hz.lt_iff hn] at h
    exact ⟨n, hn, by omega⟩

theorem pow_mul_pow {i j k : Nat} (h : i + j = k) : 2 ^ i * 2 ^ j = 2 ^ k := by rw [← Nat.pow_add, h]

theorem amounts_one : Amounts 1.0 (2 ^ places : Nat) := by
  have one := measures_one
  rw [pow_mul_pow (by decide : 52 + 1022 = places)] at one
  exact one.amounts

theorem within_part (hx : Within (2 ^ (places + 1)) x) (hk : k ≠ 0) (positive : ¬ (1.0 - x) / Float.ofNat k ≤ 0.0) :
    Within (2 ^ (places + 2)) ((1.0 - x) / Float.ofNat k) := by
  obtain ⟨n, hn, most⟩ := hx
  have less : ((2 ^ places : Nat) - n : Int).natAbs ≤ 2 ^ (places + 1) := by
    have := Nat.pow_succ (n := 2) (m := places)
    omega
  have near := rounded_mono less
  rw [rounded_two_pow] at near
  have bounded := Nat.lt_of_le_of_lt near (Nat.pow_lt_pow_right (by decide) (Nat.lt_succ_self _))
  have rest := amounts_one.sub hn (Nat.lt_of_lt_of_le bounded (pow_le_limit (by decide)))
  obtain ⟨b, hb, small⟩ := amounts_div rest (by rwa [roundedInt, natAbs_apply]) hk
  rw [hb.le_iff amounts_zero] at positive
  refine ⟨b.toNat, ?_, by omega⟩
  rwa [Int.toNat_of_nonneg (by omega)]

/-- A weight that is positive and not much larger than one. -/
def Light (w : Float) : Prop := ∃ n : Nat, Amounts w n ∧ 0 < n ∧ n ≤ 2 ^ (places + 2)

theorem light_of_within (h : Within (2 ^ (places + 2)) x) (positive : ¬ x ≤ 0.0) : Light x := by
  obtain ⟨n, hn, most⟩ := h
  rw [hn.le_iff amounts_zero] at positive
  exact ⟨n, hn, by omega, most⟩

end Binary64

namespace Grammar
open Binary64 Parsing Parser Token

variable {alternatives : List (Alternative Expr)} {s z p : Float}

theorem nonneg_of_number {n : Number} (h : nonNegative? n = some p) : 0.0 ≤ p := by
  cases n with
  | int i =>
    rw [nonNegative?] at h
    split at h
    · rename_i hi
      cases h
      exact ofInt64_nonneg hi
    · cases h
  | float x =>
    rw [nonNegative?] at h
    split at h
    · rename_i hx
      cases h
      exact hx
    · cases h

theorem yields_nonneg : probability.Yields (0.0 ≤ ·) := by
  refine yields_after _ fun _ => yields_after _ fun _ => yields_after _ fun n => ?_
  have value : (require "non-negative number" (nonNegative? n)).Yields (0.0 ≤ ·) := by
    intro c p c' h
    rw [outcome_require, Option.map_eq_some_iff] at h
    obtain ⟨q, hq, same⟩ := h
    cases same
    exact nonneg_of_number hq
  refine value.bind fun p hp => yields_after _ fun _ => yields_after _ fun percent => yields_after _ fun _ =>
    yields_after _ fun _ => yields_pure ?_
  split
  · exact percent_nonneg hp
  · exact hp

/-- No weight is too small or too large: the probabilities of a choice are in bounds, and those that are written are not
negative. -/
structure Fair (alternatives : List (Alternative Expr)) : Prop where
  weighted : Weighted alternatives
  nonneg : ∀ a ∈ alternatives, ∀ p, a.probability = .explicit p → 0.0 ≤ p

def Alternative.addTo (sum : Float) (a : Alternative Expr) : Float :=
  match a.probability with
  | .explicit p => sum + p
  | .automatic => sum

theorem within_of_fold {c : Nat} (hz : Amounts z c) {as : List (Alternative Expr)} (hs : 0.0 ≤ s)
    (nonneg : ∀ a ∈ as, ∀ p, a.probability = .explicit p → 0.0 ≤ p) (h : ¬ z < as.foldl Alternative.addTo s) :
    Within c s ∧ Within c (as.foldl Alternative.addTo s) ∧ ∀ a ∈ as, ∀ p, a.probability = .explicit p → Within c p := by
  induction as generalizing s with
  | nil => exact ⟨within_of_not_lt hz hs h, within_of_not_lt hz hs h, nofun⟩
  | cons a as ih =>
    rw [List.foldl_cons] at h ⊢
    have others : ∀ b ∈ as, ∀ p, b.probability = .explicit p → 0.0 ≤ p :=
      fun b hb => nonneg b (List.mem_cons_of_mem _ hb)
    rw [List.forall_mem_cons]
    cases probability : a.probability with
    | automatic =>
      rw [Alternative.addTo, probability] at h ⊢
      obtain ⟨start, sum, rest⟩ := ih hs others h
      exact ⟨start, sum, nofun, rest⟩
    | explicit p =>
      rw [Alternative.addTo, probability] at h ⊢
      have hp := nonneg a List.mem_cons_self p probability
      obtain ⟨first, sum, rest⟩ := ih (add_nonneg hs hp) others h
      obtain ⟨start, part⟩ := within_of_sum hs hp first
      refine ⟨start, sum, ?_, rest⟩
      rintro _ ⟨⟩
      exact part

theorem within_cap : Within (2 ^ (places + 1)) (1.0 + tolerance) := by
  have two : Measures 2.0 .positive (2 ^ 52 * 2 ^ 1023) := by
    have packed : (2.0 : Float) = .ofModel (Float.Model.pack (.finite .positive (2 ^ 52) (-51) (by decide))) := by
      decide +kernel
    rw [packed]
    exact measures_of_parts (by decide) (by decide) (by decide) (by decide)
  rw [pow_mul_pow (by decide : 52 + 1023 = places + 1)] at two
  exact within_of_not_lt two.amounts (by decide +kernel) (by decide +kernel)

theorem Fair.light (h : Fair alternatives) : ∀ w ∈ weights alternatives, Light w := by
  intro w hw
  have positive := h.weighted.positive w hw
  refine light_of_within ?_ positive
  obtain ⟨c, hc, most⟩ := within_cap
  have start : (0.0 : Float) ≤ 0.0 := by decide +kernel
  have wider : 2 ^ (places + 1) ≤ 2 ^ (places + 2) := Nat.pow_le_pow_right (by decide) (Nat.le_succ _)
  obtain ⟨-, sum, parts⟩ := within_of_fold hc start h.nonneg h.weighted.sum
  obtain ⟨a, ha, rfl⟩ := List.mem_map.1 hw
  cases probability : a.probability with
  | explicit p => exact (parts a ha p probability).mono (Nat.le_trans most wider)
  | automatic =>
    rw [probability] at positive
    change ¬ automaticShare alternatives ≤ 0.0 at positive
    change Within _ (automaticShare alternatives)
    unfold automaticShare at positive ⊢
    simp only at positive ⊢
    split at positive
    · rename_i all
      rw [if_pos all]
      exact ⟨_, amounts_one, Nat.pow_le_pow_right (by decide) (Nat.le_add_right _ _)⟩
    · rename_i some_explicit
      rw [if_neg some_explicit]
      have some_automatic : alternatives.countP Alternative.isAutomatic ≠ 0 := by
        refine Nat.ne_of_gt (List.countP_pos_iff.2 ⟨a, ha, ?_⟩)
        rw [Alternative.isAutomatic, probability]
      exact within_part (sum.mono most) some_automatic positive

def Expr.Fair : Expr → Prop
  | .choice alternatives _ => Grammar.Fair alternatives
  | _ => True

def Expr.Nonneg : Expr → Prop
  | .choice alternatives _ => ∀ a ∈ alternatives, ∀ p, a.probability = .explicit p → 0.0 ≤ p
  | _ => True

/-- The choices of a grammar that was read and has no fault are fair. -/
theorem fair_of_read {source : List Char} {g : Grammar} {length : Nat} (h : read source = .ok g)
    (fine : g.fault? length = none) : ∀ e ∈ g.entry ++ g.rules.map Rule.body, e.Every Expr.Fair := by
  have nonneg : ∀ e ∈ g.entry ++ g.rules.map Rule.body, e.Every Expr.Nonneg := by
    refine every_of_read (closed_every (fun e other => ?_) fun as pos _ tags => tags) yields_nonneg h
    cases e with
    | choice as pos => exact absurd trivial other
    | _ => trivial
  rw [Grammar.fault?, Option.or_eq_none_iff] at fine
  obtain ⟨-, fine⟩ := fine
  split at fine
  · cases fine
  have acceptable := everyIn_iff.1 (everyIn_of_parts _ (faultInAll?_eq_none.1 fine))
  intro e he
  refine every_imp (fun e both => ?_) e (every_and e (acceptable e he) (nonneg e he))
  cases e with
  | choice as pos => exact ⟨both.1.1, both.1.2⟩
  | _ => trivial

end Grammar
end TextGrammar
