import TextGrammar.Proofs.FloatOrder
import TextGrammar.Proofs.Weights
set_option autoImplicit false

namespace TextGrammar.Binary64
open Float.Model Float.Model.UnpackedFloat

variable {m n k b : Nat}

/-- The number nearest to `n / 2 ^ k` that a significand has room for. -/
def roundedQuotient (n k : Nat) : Nat := nearest n (k + excess (n / 2 ^ k)) * 2 ^ excess (n / 2 ^ k)

theorem nearest_close (n k : Nat) :
    2 * n ≤ 2 * (nearest n k * 2 ^ k) + 2 ^ k ∧ 2 * (nearest n k * 2 ^ k) ≤ 2 * n + 2 ^ k := by
  have split := Nat.div_add_mod' n (2 ^ k)
  have less := Nat.mod_lt n (Nat.two_pow_pos k)
  rw [nearest]
  cases h : compare (2 * (n % 2 ^ k)) (2 ^ k) with
  | lt =>
    rw [Nat.compare_eq_lt] at h
    simp only
    omega
  | eq =>
    rw [Nat.compare_eq_eq] at h
    simp only
    rw [Nat.add_mul]
    rcases Nat.mod_two_eq_zero_or_one (n / 2 ^ k) with even | odd
    · rw [even]
      omega
    · rw [odd]
      omega
  | gt =>
    rw [Nat.compare_eq_gt] at h
    simp only
    rw [Nat.add_mul]
    omega

theorem roundedQuotient_mul_pow (n k : Nat) :
    roundedQuotient n k * 2 ^ k = nearest n (k + excess (n / 2 ^ k)) * 2 ^ (k + excess (n / 2 ^ k)) := by
  rw [roundedQuotient, Nat.mul_assoc, ← Nat.pow_add, Nat.add_comm k]

theorem nearest_quotient_le (n k : Nat) : nearest n (k + excess (n / 2 ^ k)) ≤ 2 ^ 53 := by
  have small := quotient_lt (n / 2 ^ k)
  rw [Nat.div_div_eq_div_mul, ← Nat.pow_add] at small
  exact Nat.le_trans (nearest_le _ _) small

theorem le_nearest_quotient (h : excess (n / 2 ^ k) ≠ 0) : 2 ^ 52 ≤ nearest n (k + excess (n / 2 ^ k)) := by
  have room := le_quotient h
  rw [Nat.div_div_eq_div_mul, ← Nat.pow_add] at room
  exact Nat.le_trans room (div_le_nearest _ _)

theorem roundedQuotient_mono (h : m ≤ n) (k : Nat) : roundedQuotient m k ≤ roundedQuotient n k := by
  have quotients : m / 2 ^ k ≤ n / 2 ^ k := Nat.div_le_div_right h
  rw [roundedQuotient, roundedQuotient]
  rcases Nat.eq_or_lt_of_le (excess_mono quotients) with same | less
  · rw [same]
    exact Nat.mul_le_mul_right _ (nearest_mono h _)
  · exact finer_le_coarser less (nearest_quotient_le m k) (le_nearest_quotient (by omega))

theorem roundedQuotient_mul (n k : Nat) : roundedQuotient (n * 2 ^ k) k = rounded n := by
  rw [roundedQuotient, Nat.mul_div_cancel _ (Nat.two_pow_pos k), Nat.add_comm, nearest_shift, rounded]

theorem zero_roundedQuotient (k : Nat) : roundedQuotient 0 k = 0 := by
  have zero := roundedQuotient_mul 0 k
  rwa [Nat.zero_mul] at zero

theorem short_roundedQuotient (n k : Nat) : Short (roundedQuotient n k) := short_mul (nearest_quotient_le n k) _

theorem roundedQuotient_le (hm : Short m) (hb : b ≤ 2 ^ k) : roundedQuotient (m * b) k ≤ m := by
  have whole := roundedQuotient_mono (Nat.mul_le_mul_left m hb) k
  rwa [roundedQuotient_mul, rounded_of_short hm] at whole

/-- A quotient is rounded by at most half of its last bit. -/
theorem roundedQuotient_close {e : Nat} (h : excess (n / 2 ^ k) ≤ e) :
    2 * n ≤ 2 * (roundedQuotient n k * 2 ^ k) + 2 ^ e * 2 ^ k ∧
      2 * (roundedQuotient n k * 2 ^ k) ≤ 2 * n + 2 ^ e * 2 ^ k := by
  have close := nearest_close n (k + excess (n / 2 ^ k))
  rw [← roundedQuotient_mul_pow] at close
  have wider : 2 ^ (k + excess (n / 2 ^ k)) ≤ 2 ^ e * 2 ^ k := by
    rw [← Nat.pow_add]
    exact Nat.pow_le_pow_right (by decide) (by omega)
  omega

/-- A quotient that has all bits of a significand is rounded by less than its 2 ^ 53rd part. -/
theorem roundedQuotient_near (normal : 2 ^ 52 ≤ n / 2 ^ k) :
    2 ^ 53 * n < 2 ^ 53 * (roundedQuotient n k * 2 ^ k) + n ∧
      2 ^ 53 * (roundedQuotient n k * 2 ^ k) < 2 ^ 53 * n + n := by
  obtain ⟨unit, hu⟩ : ∃ unit, unit = 2 ^ (k + excess (n / 2 ^ k)) := ⟨_, rfl⟩
  have positive : 0 < unit := hu ▸ Nat.two_pow_pos _
  have large : 2 ^ 52 * unit ≤ n := by
    have room : 2 ^ (52 + excess (n / 2 ^ k)) ≤ n / 2 ^ k := by
      by_cases least : excess (n / 2 ^ k) = 0
      · rwa [least]
      · exact room_le least
    calc
      2 ^ 52 * unit = 2 ^ (52 + excess (n / 2 ^ k)) * 2 ^ k := by
        rw [hu, ← Nat.pow_add, ← Nat.pow_add]
        congr 1
        omega
      _ ≤ n / 2 ^ k * 2 ^ k := Nat.mul_le_mul_right _ room
      _ ≤ n := Nat.div_mul_le_self n _
  have close := nearest_close n (k + excess (n / 2 ^ k))
  rw [← roundedQuotient_mul_pow, ← hu] at close
  rcases Nat.eq_or_lt_of_le large with least | more
  · -- a power of two is not rounded at all
    have whole : roundedQuotient n k * 2 ^ k = n := by
      have divides : 2 ^ (k + excess (n / 2 ^ k)) ∣ n := by
        rw [← hu, ← least]
        exact Nat.dvd_mul_left _ _
      rw [roundedQuotient_mul_pow, nearest_of_dvd divides, Nat.div_mul_cancel divides]
    omega
  · omega

theorem add_unit_le (hm : Short m) (hn : 2 ^ excess m ∣ n) (less : m < n) : m + 2 ^ excess m ≤ n := by
  obtain ⟨q, hq⟩ := hm
  obtain ⟨r, hr⟩ := hn
  generalize 2 ^ excess m = unit at hq hr
  have step : q + 1 ≤ r := by
    refine Nat.lt_of_not_le fun le => ?_
    have := Nat.mul_le_mul_left unit le
    omega
  calc
    m + unit = unit * (q + 1) := by rw [Nat.mul_add, Nat.mul_one, ← hq]
    _ ≤ unit * r := Nat.mul_le_mul_left _ step
    _ = n := hr.symm

theorem add_unit_le_of_short (hm : Short m) (hn : Short n) (less : m < n) : m + 2 ^ excess m ≤ n :=
  add_unit_le hm (Nat.dvd_trans (Nat.pow_dvd_pow 2 (excess_mono (Nat.le_of_lt less))) hn) less

theorem add_unit_le_room (hm : Short m) : m + 2 ^ excess m ≤ 2 ^ 53 * 2 ^ excess m := by
  refine add_unit_le hm (Nat.dvd_mul_left _ _) ?_
  rw [← Nat.pow_add]
  exact lt_room m

/-- Two different numbers that significands have room for differ by more than rounding changes them. -/
theorem gap_le (hm : Short m) (hn : Short n) (less : m < n) : 2 ^ 53 * m + n ≤ 2 ^ 53 * n := by
  have apart := add_unit_le_of_short hm hn less
  have room := add_unit_le_room hm
  omega

theorem gap_mul_le (hm : Short m) (hn : Short n) (less : m < n) (b : Nat) :
    2 ^ 53 * (m * b) + n * b ≤ 2 ^ 53 * (n * b) := by
  have scaled := Nat.mul_le_mul_right b (gap_le hm hn less)
  rwa [Nat.add_mul, Nat.mul_assoc, Nat.mul_assoc] at scaled

theorem nearest_unique {a q : Nat} (below : 2 * (q * 2 ^ k) < 2 * a + 2 ^ k) (above : 2 * a < 2 * (q * 2 ^ k) + 2 ^ k) :
    nearest a k = q := by
  have close := nearest_close a k
  generalize nearest a k = r at close
  have up : r * 2 ^ k < (q + 1) * 2 ^ k := by
    rw [Nat.add_mul]
    omega
  have down : q * 2 ^ k < (r + 1) * 2 ^ k := by
    rw [Nat.add_mul]
    omega
  have hr := Nat.lt_of_mul_lt_mul_right up
  have hq := Nat.lt_of_mul_lt_mul_right down
  omega

theorem le_rounded_of_close (hm : Short m) {a : Nat} (close : 2 * m < 2 * a + 2 ^ excess (m - 1)) : m ≤ rounded a := by
  by_cases above : m ≤ a
  · have kept := rounded_mono above
    rwa [rounded_of_short hm] at kept
  by_cases least : excess (m - 1) = 0
  · rw [least] at close
    omega
  obtain ⟨q, hq⟩ : 2 ^ excess (m - 1) ∣ m := Nat.dvd_trans (Nat.pow_dvd_pow 2 (excess_mono (Nat.sub_le m 1))) hm
  have room := room_le least
  have same : excess a = excess (m - 1) := by
    refine Nat.le_antisymm (excess_mono (by omega)) (le_excess ?_)
    -- there is a number of this grid between the least one of as many bits and `m`
    rw [Nat.pow_add] at room ⊢
    generalize 2 ^ excess (m - 1) = unit at hq close room
    have next : 2 ^ 52 + 1 ≤ q := by
      refine Nat.lt_of_not_le fun le => ?_
      have := Nat.mul_le_mul_left unit le
      omega
    have := Nat.mul_le_mul_left unit next
    omega
  have whole : m = q * 2 ^ excess (m - 1) := hq.trans (Nat.mul_comm _ _)
  have unique := nearest_unique (a := a) (q := q) (k := excess (m - 1)) (by omega) (by omega)
  rw [rounded, same, unique]
  exact Nat.le_of_eq whole

theorem rounded_le_of_close (hn : Short n) {a : Nat} (close : 2 * a < 2 * n + 2 ^ excess n) : rounded a ≤ n := by
  by_cases below : a ≤ n
  · have kept := rounded_mono below
    rwa [rounded_of_short hn] at kept
  have room := add_unit_le_room hn
  have same : excess a = excess n := by
    refine Nat.le_antisymm (excess_le ?_) (excess_mono (by omega))
    rw [Nat.pow_add]
    omega
  obtain ⟨q, hq⟩ := hn
  have whole : n = q * 2 ^ excess n := hq.trans (Nat.mul_comm _ _)
  have unique := nearest_unique (a := a) (q := q) (k := excess n) (by omega) (by omega)
  rw [rounded, same, unique]
  exact Nat.le_of_eq whole.symm

section
variable {c : Nat} (hm : Short m) (hn : Short n) (less : m < n)
include hm hn less

theorem product_lt (normal : 2 ^ 52 ≤ m * b / 2 ^ k) : roundedQuotient (m * b) k * 2 ^ k < n * b := by
  have near := (roundedQuotient_near normal).2
  have apart := gap_mul_le hm hn less b
  have more := Nat.mul_le_mul_right b (Nat.le_of_lt less)
  omega

theorem lt_product (normal : 2 ^ 52 ≤ n * b / 2 ^ k) : m * b < roundedQuotient (n * b) k * 2 ^ k := by
  have near := (roundedQuotient_near normal).1
  have apart := gap_mul_le hm hn less b
  omega

theorem le_mean (sum : b + c = 2 ^ k) (part : c ≠ 0) (normal : 2 ^ 52 ≤ n * c / 2 ^ k) :
    m ≤ rounded (roundedQuotient (m * b) k + roundedQuotient (n * c) k) := by
  by_cases zero : m = 0
  · rw [zero]
    exact Nat.zero_le _
  have quotient : m * b / 2 ^ k ≤ m - 1 := by
    refine Nat.le_sub_one_of_lt ((Nat.div_lt_iff_lt_mul (Nat.two_pow_pos k)).2 ?_)
    exact Nat.mul_lt_mul_of_pos_left (by omega) (Nat.pos_of_ne_zero zero)
  -- the first product is off by half of the last bit below `m` at most, and the second is more than its part of `m`
  have first := (roundedQuotient_close (excess_mono quotient)).1
  have second := lt_product hm hn less normal
  have whole : m * b + m * c = m * 2 ^ k := by rw [← Nat.mul_add, sum]
  refine le_rounded_of_close hm ?_
  rw [← Nat.mul_lt_mul_right (Nat.two_pow_pos k), Nat.add_mul, Nat.mul_assoc, Nat.mul_assoc, Nat.add_mul]
  omega

theorem mean_le (sum : b + c = 2 ^ k) (normal : 2 ^ 52 ≤ m * b / 2 ^ k) :
    rounded (roundedQuotient (m * b) k + roundedQuotient (n * c) k) ≤ n := by
  have quotient : n * c / 2 ^ k ≤ n := by
    refine Nat.div_le_of_le_mul ?_
    rw [Nat.mul_comm]
    exact Nat.mul_le_mul_right _ (by omega)
  -- the first product is less than its part of `n`, and the second is off by half of the last bit of `n` at most
  have first := product_lt hm hn less normal
  have second := (roundedQuotient_close (excess_mono quotient)).2
  have whole : n * b + n * c = n * 2 ^ k := by rw [← Nat.mul_add, sum]
  refine rounded_le_of_close hn ?_
  rw [← Nat.mul_lt_mul_right (Nat.two_pow_pos k), Nat.add_mul, Nat.mul_assoc, Nat.mul_assoc, Nat.add_mul]
  omega

/-- A mean of numbers of the least exponent is off by less than one. -/
theorem mean_between_of_small (small : n < 2 ^ 53) (sum : b + c = 2 ^ k) (part : b ≠ 0) (part' : c ≠ 0) :
    m ≤ rounded (roundedQuotient (m * b) k + roundedQuotient (n * c) k) ∧
      rounded (roundedQuotient (m * b) k + roundedQuotient (n * c) k) ≤ n := by
  have least {a d : Nat} (ha : a ≤ n) (hd : d ≤ 2 ^ k) : excess (a * d / 2 ^ k) ≤ 0 := by
    refine excess_le (Nat.lt_of_le_of_lt (Nat.div_le_of_le_mul ?_) small)
    rw [Nat.mul_comm]
    exact Nat.mul_le_mul hd ha
  have first := roundedQuotient_close (least (Nat.le_of_lt less) (show b ≤ 2 ^ k by omega))
  have second := roundedQuotient_close (least (Nat.le_refl n) (show c ≤ 2 ^ k by omega))
  have low : m * b + m * c = m * 2 ^ k := by rw [← Nat.mul_add, sum]
  have high : n * b + n * c = n * 2 ^ k := by rw [← Nat.mul_add, sum]
  have apart : m * b + b ≤ n * b := by
    have := Nat.mul_le_mul_right b (show m + 1 ≤ n from less)
    rwa [Nat.add_mul, Nat.one_mul] at this
  have apart' : m * c + c ≤ n * c := by
    have := Nat.mul_le_mul_right c (show m + 1 ≤ n from less)
    rwa [Nat.add_mul, Nat.one_mul] at this
  rw [Nat.pow_zero, Nat.one_mul] at first second
  generalize roundedQuotient (m * b) k = x at first ⊢
  generalize roundedQuotient (n * c) k = y at second ⊢
  have above : m < x + y + 1 := by
    refine Nat.lt_of_mul_lt_mul_right (a := 2 ^ k) ?_
    rw [Nat.add_mul, Nat.add_mul]
    omega
  have below : x + y < n + 1 := by
    refine Nat.lt_of_mul_lt_mul_right (a := 2 ^ k) ?_
    rw [Nat.add_mul, Nat.add_mul]
    omega
  have lower := rounded_mono (Nat.le_of_lt_succ above)
  have upper := rounded_mono (Nat.le_of_lt_succ below)
  rw [rounded_of_short hm] at lower
  rw [rounded_of_short hn] at upper
  exact ⟨lower, upper⟩

/-- The mean of two numbers is between them if the greater one is so large that its smallest part has all bits of a
significand, or if both have the least exponent. -/
theorem mean_between {grain : Nat} (unit : 2 ^ k = 2 ^ 32 * grain) (sum : b + c = 2 ^ k) (hb : b = 0 ∨ grain ≤ b)
    (hc : c = 0 ∨ grain ≤ c) (h : 2 ^ 85 ≤ n ∨ n < 2 ^ 53) :
    m ≤ rounded (roundedQuotient (m * b) k + roundedQuotient (n * c) k) ∧
      rounded (roundedQuotient (m * b) k + roundedQuotient (n * c) k) ≤ n := by
  by_cases none : b = 0
  · have all : c = 2 ^ k := by omega
    rw [none, all, Nat.mul_zero, zero_roundedQuotient, Nat.zero_add, roundedQuotient_mul, rounded_of_short hn,
      rounded_of_short hn]
    exact ⟨Nat.le_of_lt less, Nat.le_refl n⟩
  by_cases none' : c = 0
  · have all : b = 2 ^ k := by omega
    rw [none', all, Nat.mul_zero, zero_roundedQuotient, Nat.add_zero, roundedQuotient_mul, rounded_of_short hm,
      rounded_of_short hm]
    exact ⟨Nat.le_refl m, Nat.le_of_lt less⟩
  rcases h with large | small
  · have precise {a d : Nat} (ha : 2 ^ 84 ≤ a) (hd : grain ≤ d) : 2 ^ 52 ≤ a * d / 2 ^ k := by
      rw [Nat.le_div_iff_mul_le (Nat.two_pow_pos k), unit]
      calc
        2 ^ 52 * (2 ^ 32 * grain) = 2 ^ 84 * grain := by rw [← Nat.mul_assoc, ← Nat.pow_add]
        _ ≤ a * d := Nat.mul_le_mul ha hd
    have short : Short (2 ^ 84) := short_mul (q := 1) (by decide) 84
    have grain_b := hb.resolve_left none
    refine ⟨le_mean hm hn less sum none' (precise (by omega) (hc.resolve_left none')), ?_⟩
    -- a smaller number is taken for one whose product is precise
    by_cases far : m ≤ 2 ^ 84
    · calc
        rounded (roundedQuotient (m * b) k + roundedQuotient (n * c) k) ≤
            rounded (roundedQuotient (2 ^ 84 * b) k + roundedQuotient (n * c) k) :=
          rounded_mono (Nat.add_le_add_right (roundedQuotient_mono (Nat.mul_le_mul_right b far) k) _)
        _ ≤ n := mean_le short hn (by omega) sum (precise (Nat.le_refl _) grain_b)
    · exact mean_le hm hn less sum (precise (by omega) grain_b)
  · exact mean_between_of_small hm hn less small sum none none'

end

variable {s t : Sign} {x y : Float} {z : Int}

theorem excess_quotient (n k : Nat) : excess (n / 2 ^ k) = n.log2 - k - 52 := by
  by_cases zero : n = 0
  · rw [zero, Nat.zero_div, Nat.log2_zero, Nat.zero_sub, Nat.zero_sub]
    rfl
  refine Nat.le_antisymm (excess_le ?_) ?_
  · rw [Nat.div_lt_iff_lt_mul (Nat.two_pow_pos k), ← Nat.pow_add, ← Nat.log2_lt zero]
    omega
  · by_cases least : n.log2 - k - 52 = 0
    · rw [least]
      exact Nat.zero_le _
    · refine le_excess ?_
      rw [Nat.le_div_iff_mul_le (Nat.two_pow_pos k), ← Nat.pow_add, ← Nat.le_log2 zero]
      omega

/-- The product with a float that is zero, or not one of the least ones, is the product of the units, rounded. -/
theorem mul_units (hm : Short m) (hb : Short b) (room : b = 0 ∨ excess b ≠ 0) (s t : Sign) :
    UnpackedFloat.mul Format.binary64 (ofUnits s m) (ofUnits t b) =
      ofUnits (s * t) (roundedQuotient (m * b) places) := by
  by_cases none : m = 0
  · rw [none, Nat.zero_mul, zero_roundedQuotient, ofUnits_zero, ofUnits_zero, ofUnits]
    split <;> rfl
  by_cases none' : b = 0
  · rw [none', Nat.mul_zero, zero_roundedQuotient, ofUnits_zero, ofUnits_zero, ofUnits]
    split <;> rfl
  have pos := quotient_pos none
  have pos' := quotient_pos none'
  have full := le_quotient (room.resolve_left none')
  have whole : m / 2 ^ excess m * (b / 2 ^ excess b) * 2 ^ (excess m + excess b) = m * b := by
    rw [Nat.pow_add, Nat.mul_mul_mul_comm, Nat.div_mul_cancel hm, Nat.div_mul_cancel hb]
  rw [ofUnits_pos s pos, ofUnits_pos t pos', UnpackedFloat.mul]
  have product := Nat.mul_pos pos pos'
  have enough : 52 ≤ (m / 2 ^ excess m * (b / 2 ^ excess b)).log2 :=
    (Nat.le_log2 (Nat.ne_of_gt product)).2 (Nat.le_trans full (Nat.le_mul_of_pos_left _ pos))
  generalize m / 2 ^ excess m * (b / 2 ^ excess b) = q at whole product enough
  have log := log2_shift (Nat.ne_of_gt product) (excess m + excess b)
  rw [whole] at log
  have last := excess_quotient (m * b) places
  have hp := places_eq
  have target : Format.binary64.targetExponent (totalExponent q (excess m - 1074 + (excess b - 1074))) =
      excess (m * b / 2 ^ places) - 1074 := by
    rw [targetExponent_eq]
    omega
  have amount : ((excess (m * b / 2 ^ places) : Int) - 1074 - (excess m - 1074 + (excess b - 1074))).toNat +
      (excess m + excess b) = places + excess (m * b / 2 ^ places) := by omega
  rw [roundWithAccuracy_eq (s * t) .exact (by omega) target, roundedMantissa_shifted,
    ← nearest_shift q _ (excess m + excess b), whole, amount, roundedQuotient]

def part (a : Int) (b : Nat) : Int := (signOf a).apply (roundedQuotient (a.natAbs * b) places)

theorem signOf_apply (s : Sign) (h : m ≠ 0) : signOf (s.apply m) = s := by
  cases s with
  | negative => exact if_pos (by change -(m : Int) < 0; omega)
  | positive => exact if_neg (by change ¬ (m : Int) < 0; omega)

theorem part_apply (s : Sign) (m b : Nat) : part (s.apply m) b = s.apply (roundedQuotient (m * b) places) := by
  rw [part, natAbs_apply]
  by_cases none : m = 0
  · rw [none, Nat.zero_mul, zero_roundedQuotient, apply_zero, apply_zero]
  · rw [signOf_apply s none]

theorem Amounts.mul {a : Int} (hx : Amounts x a) (hy : Amounts y b) (room : b = 0 ∨ excess b ≠ 0)
    (hb : b ≤ 2 ^ places) : Amounts (x * y) (part a b) := by
  obtain ⟨s, m, hx, rfl⟩ := hx
  obtain ⟨t, d, hy, value⟩ := hy
  obtain rfl : b = d := by
    have size := natAbs_apply t d
    omega
  have fits := Nat.lt_of_le_of_lt (roundedQuotient_le hx.short hb) hx.bounded
  have packed := measures_pack (short_roundedQuotient (m * b) places) fits (s * t)
  rw [← mul_units hx.short hy.short room, ← hx.unpacked, ← hy.unpacked] at packed
  have result : Amounts (x * y) ((s * t).apply (roundedQuotient (m * b) places)) := packed.amounts
  have sign : (s * t).apply (roundedQuotient (m * b) places) = s.apply (roundedQuotient (m * b) places) := by
    cases t with
    | positive => cases s <;> rfl
    | negative =>
      obtain rfl : b = 0 := by
        change (b : Int) = -b at value
        omega
      rw [Nat.mul_zero, zero_roundedQuotient, apply_zero, apply_zero]
  rwa [part_apply, ← sign]

end TextGrammar.Binary64
