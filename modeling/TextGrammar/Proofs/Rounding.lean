import Mathlib
import TextGrammar.Decimal.Binary64
set_option autoImplicit false

namespace TextGrammar.Binary64
open Float.Model Float.Model.UnpackedFloat

def excess (n : Nat) : Nat := n.log2 - 52

/-- The whole number nearest to `n / 2 ^ k`, and the even one of two. -/
def nearest (n k : Nat) : Nat :=
  match compare (2 * (n % 2 ^ k)) (2 ^ k) with
  | .lt => n / 2 ^ k
  | .eq => n / 2 ^ k + n / 2 ^ k % 2
  | .gt => n / 2 ^ k + 1

def rounded (n : Nat) : Nat := nearest n (excess n) * 2 ^ excess n

def Short (n : Nat) : Prop := 2 ^ excess n ∣ n

variable {m n k : Nat}

theorem div_le_nearest (n k : Nat) : n / 2 ^ k ≤ nearest n k := by
  unfold nearest
  split <;> omega

theorem nearest_le (n k : Nat) : nearest n k ≤ n / 2 ^ k + 1 := by
  unfold nearest
  split <;> omega

theorem nearest_mono (h : m ≤ n) (k : Nat) : nearest m k ≤ nearest n k := by
  have quotients : m / 2 ^ k ≤ n / 2 ^ k := Nat.div_le_div_right h
  by_cases same : m / 2 ^ k = n / 2 ^ k
  · have rests : m % 2 ^ k ≤ n % 2 ^ k := by
      have hm := Nat.div_add_mod m (2 ^ k)
      have hn := Nat.div_add_mod n (2 ^ k)
      rw [same] at hm
      omega
    simp only [nearest, same, Nat.compare_eq_ite_lt]
    grind
  · calc
      nearest m k ≤ m / 2 ^ k + 1 := nearest_le m k
      _ ≤ n / 2 ^ k := by omega
      _ ≤ nearest n k := div_le_nearest n k

theorem nearest_of_dvd (h : 2 ^ k ∣ n) : nearest n k = n / 2 ^ k := by
  have pos := Nat.two_pow_pos k
  rw [nearest, Nat.mod_eq_zero_of_dvd h, Nat.compare_eq_lt.2 (by omega)]

theorem nearest_shift (m k j : Nat) : nearest (m * 2 ^ j) (k + j) = nearest m k := by
  have pos := Nat.two_pow_pos j
  have quotient : m * 2 ^ j / 2 ^ (k + j) = m / 2 ^ k := by rw [Nat.pow_add, Nat.mul_div_mul_right _ _ pos]
  have rest : m * 2 ^ j % 2 ^ (k + j) = m % 2 ^ k * 2 ^ j := by rw [Nat.pow_add, Nat.mul_mod_mul_right]
  have compared : compare (2 * (m % 2 ^ k * 2 ^ j)) (2 ^ (k + j)) = compare (2 * (m % 2 ^ k)) (2 ^ k) := by
    rw [Nat.pow_add, ← Nat.mul_assoc]
    simp only [Nat.compare_eq_ite_lt, Nat.mul_lt_mul_right pos]
  simp only [nearest, quotient, rest, compared]

theorem log2_shift (h : n ≠ 0) (k : Nat) : (n * 2 ^ k).log2 = n.log2 + k := by
  rw [Nat.log2_eq_iff (Nat.mul_ne_zero h (Nat.ne_of_gt (Nat.two_pow_pos k))), Nat.add_right_comm, Nat.pow_add,
    Nat.pow_add]
  exact ⟨Nat.mul_le_mul_right _ (Nat.log2_self_le h), Nat.mul_lt_mul_of_pos_right Nat.lt_log2_self (Nat.two_pow_pos k)⟩

theorem lt_room (n : Nat) : n < 2 ^ (53 + excess n) := by
  refine Nat.lt_of_lt_of_le (Nat.lt_log2_self (n := n)) (Nat.pow_le_pow_right (by decide) ?_)
  unfold excess
  omega

theorem room_le (h : excess n ≠ 0) : 2 ^ (52 + excess n) ≤ n := by
  unfold excess at h ⊢
  have nonzero : n ≠ 0 := by
    rintro rfl
    exact h (by decide)
  rw [← Nat.le_log2 nonzero]
  omega

theorem excess_le {e : Nat} (h : n < 2 ^ (53 + e)) : excess n ≤ e := by
  by_cases zero : n = 0
  · rw [zero]
    exact Nat.zero_le _
  · have log := (Nat.log2_lt zero).2 h
    unfold excess
    omega

theorem le_excess {e : Nat} (h : 2 ^ (52 + e) ≤ n) : e ≤ excess n := by
  have zero : n ≠ 0 := Nat.ne_of_gt (Nat.lt_of_lt_of_le (Nat.two_pow_pos _) h)
  have log := (Nat.le_log2 zero).2 h
  unfold excess
  omega

theorem excess_mono (h : m ≤ n) : excess m ≤ excess n := by
  have logs : m.log2 ≤ n.log2 := by
    by_cases hm : m = 0
    · rw [hm, Nat.log2_zero]
      exact Nat.zero_le _
    · exact (Nat.le_log2 (by omega)).2 (Nat.le_trans (Nat.log2_self_le hm) h)
  unfold excess
  omega

theorem quotient_lt (n : Nat) : n / 2 ^ excess n < 2 ^ 53 := by
  rw [Nat.div_lt_iff_lt_mul (Nat.two_pow_pos _), ← Nat.pow_add]
  exact lt_room n

theorem le_quotient (h : excess n ≠ 0) : 2 ^ 52 ≤ n / 2 ^ excess n := by
  rw [Nat.le_div_iff_mul_le (Nat.two_pow_pos _), ← Nat.pow_add]
  exact room_le h

theorem nearest_excess_le (n : Nat) : nearest n (excess n) ≤ 2 ^ 53 := by
  have small := quotient_lt n
  have next := nearest_le n (excess n)
  omega

theorem rounded_of_short (h : Short n) : rounded n = n := by
  rw [rounded, nearest_of_dvd h, Nat.div_mul_cancel h]

/-- Numbers on a coarser grid that have all bits of a significand are not less than numbers on a finer grid. -/
theorem finer_le_coarser {q r i j : Nat} (less : i < j) (hq : q ≤ 2 ^ 53) (hr : 2 ^ 52 ≤ r) :
    q * 2 ^ i ≤ r * 2 ^ j := by
  calc
    q * 2 ^ i ≤ 2 ^ 53 * 2 ^ i := Nat.mul_le_mul_right _ hq
    _ = 2 ^ (52 + (i + 1)) := by rw [← Nat.pow_add, ← Nat.add_assoc, Nat.add_right_comm]
    _ ≤ 2 ^ (52 + j) := Nat.pow_le_pow_right (by decide) (by omega)
    _ = 2 ^ 52 * 2 ^ j := Nat.pow_add ..
    _ ≤ r * 2 ^ j := Nat.mul_le_mul_right _ hr

theorem rounded_mono (h : m ≤ n) : rounded m ≤ rounded n := by
  unfold rounded
  rcases Nat.eq_or_lt_of_le (excess_mono h) with same | less
  · rw [same]
    exact Nat.mul_le_mul_right _ (nearest_mono h _)
  · -- the greater one has more bits than the other can be rounded to
    exact finer_le_coarser less (nearest_excess_le m)
      (Nat.le_trans (le_quotient (by omega)) (div_le_nearest n _))

theorem short_mul {q : Nat} (hq : q ≤ 2 ^ 53) (k : Nat) : Short (q * 2 ^ k) := by
  by_cases zero : q = 0
  · rw [zero, Nat.zero_mul]
    exact Nat.dvd_zero _
  rcases Nat.eq_or_lt_of_le hq with rfl | less
  · -- the one significand too long has only zeros behind its first bit
    rw [Short, ← Nat.pow_add, excess, Nat.log2_two_pow]
    exact Nat.pow_dvd_pow 2 (by omega)
  · have log := (Nat.log2_lt zero).2 less
    rw [Short, excess, log2_shift zero]
    exact Nat.dvd_mul_left_of_dvd (Nat.pow_dvd_pow 2 (by omega)) q

theorem short_rounded (n : Nat) : Short (rounded n) := short_mul (nearest_excess_le n) _

/-- What shifting an exact significand to the right leaves behind: the bit after the last one, and whether any bit
follows. -/
theorem shifted (m k : Nat) : ExtendedMantissa.ofMantissaAndAccuracy m .exact >>> k =
    ⟨m / 2 ^ k, decide (2 ^ k ≤ 2 * (m % 2 ^ k)), decide (2 * (m % 2 ^ k) % 2 ^ k ≠ 0)⟩ := by
  change k.repeat ExtendedMantissa.shiftRightOne ⟨m, false, false⟩ = _
  induction k with
  | zero => simp [Nat.repeat, Nat.mod_one]
  | succ k ih =>
    have pos := Nat.two_pow_pos k
    have less := Nat.mod_lt m pos
    have rest : m % 2 ^ (k + 1) = m % 2 ^ k + 2 ^ k * (m / 2 ^ k % 2) := Nat.mod_pow_succ
    have quotient : m / 2 ^ k / 2 = m / 2 ^ (k + 1) := by rw [Nat.div_div_eq_div_mul, Nat.pow_succ]
    have bit := Nat.mod_two_eq_zero_or_one (m / 2 ^ k)
    rw [Nat.repeat, ih, ExtendedMantissa.shiftRightOne, rest, quotient, Nat.pow_succ]
    generalize m / 2 ^ k % 2 = b at bit
    generalize m % 2 ^ k = r at less
    generalize 2 ^ k = unit at pos less
    have behind : 2 * (r + unit * b) % (unit * 2) = 2 * r := by
      rw [Nat.mul_add, ← Nat.mul_assoc, Nat.mul_comm 2 unit, Nat.add_mul_mod_self_left]
      exact Nat.mod_eq_of_lt (by omega)
    have sticky : (unit ≤ 2 * r ∨ 2 * r % unit ≠ 0) ↔ 2 * r ≠ 0 := by
      by_cases half : unit ≤ 2 * r
      · simp only [half, true_or, true_iff]
        omega
      · rw [Nat.mod_eq_of_lt (by omega)]
        simp [half]
    rw [behind]
    congr 1
    · rcases bit with rfl | rfl
      · simp
        omega
      · simp
        omega
    · rw [← Bool.decide_or]
      exact decide_eq_decide.2 sticky

theorem roundedMantissa_shifted (m k : Nat) :
    (ExtendedMantissa.ofMantissaAndAccuracy m .exact >>> k).roundedMantissa = nearest m k := by
  have pos := Nat.two_pow_pos k
  have less := Nat.mod_lt m pos
  rw [shifted, nearest, ExtendedMantissa.roundedMantissa]
  generalize m % 2 ^ k = r at less
  generalize 2 ^ k = unit at pos less
  rcases Nat.lt_trichotomy (2 * r) unit with half | half | half
  · have zero : 2 * r % unit = 2 * r := Nat.mod_eq_of_lt half
    rw [Nat.compare_eq_lt.2 half, decide_eq_false (by omega), zero]
    by_cases none : 2 * r = 0
    · rw [none]
      rfl
    · rw [decide_eq_true none]
      rfl
  · rw [Nat.compare_eq_eq.2 half, decide_eq_true (by omega), half, Nat.mod_self]
    rfl
  · have more : 2 * r % unit ≠ 0 := by
      rw [Nat.mod_eq_sub_mod (by omega), Nat.mod_eq_of_lt (by omega)]
      omega
    rw [Nat.compare_eq_gt.2 half, decide_eq_true (by omega), decide_eq_true more]
    rfl

def ofUnits (s : Sign) (n : Nat) : UnpackedFloat :=
  if h : n / 2 ^ excess n = 0 then .zero s
  else .finite s (n / 2 ^ excess n) (excess n - 1074) (Nat.pos_of_ne_zero h)

theorem targetExponent_eq (m : Nat) (e : Int) :
    Format.binary64.targetExponent (totalExponent m e) = max (m.log2 + e - 52) (-1074) := by
  have kept : Format.binary64.mantissaBitsWithoutImplicit = 52 := rfl
  have bias : (2 : Int) ^ (Format.binary64.exponentBits - 1) = 1024 := rfl
  rw [Format.targetExponent, totalExponent, Format.minExponent, Format.mantissaBits, kept, bias]
  omega

theorem targetExponent_sub (m d : Nat) (e f : Int) :
    Format.binary64.targetExponent (totalExponent m e - totalExponent d f) =
      max (m.log2 - d.log2 + (e - f) - 53) (-1074) := by
  have kept : Format.binary64.mantissaBitsWithoutImplicit = 52 := rfl
  have bias : (2 : Int) ^ (Format.binary64.exponentBits - 1) = 1024 := rfl
  rw [Format.targetExponent, totalExponent, totalExponent, Format.minExponent, Format.mantissaBits, kept, bias]
  omega

theorem targetExponent_units (hm : m ≠ 0) (k : Nat) :
    Format.binary64.targetExponent (totalExponent m (k - 1074)) = excess (m * 2 ^ k) - 1074 := by
  rw [targetExponent_eq, excess, log2_shift hm]
  omega

theorem mantissa_shifted (em : ExtendedMantissa) (k : Nat) : (em >>> k).mantissa = em.mantissa / 2 ^ k := by
  change (k.repeat ExtendedMantissa.shiftRightOne em).mantissa = _
  induction k with
  | zero => rw [Nat.repeat, Nat.pow_zero, Nat.div_one]
  | succ k ih => rw [Nat.repeat, ExtendedMantissa.shiftRightOne, ih, Nat.div_div_eq_div_mul, Nat.pow_succ]

theorem mantissa_ofMantissaAndAccuracy (m : Nat) (accuracy : Accuracy) :
    (ExtendedMantissa.ofMantissaAndAccuracy m accuracy).mantissa = m := by
  rcases accuracy with _ | o
  · rfl
  · cases o <;> rfl

theorem roundedMantissa_bounds (em : ExtendedMantissa) :
    em.mantissa ≤ em.roundedMantissa ∧ em.roundedMantissa ≤ em.mantissa + 1 := by
  rw [ExtendedMantissa.roundedMantissa]
  generalize em.accuracy = accuracy
  match accuracy with
  | .exact => exact ⟨Nat.le_refl _, Nat.le_succ _⟩
  | .inexact .lt => exact ⟨Nat.le_refl _, Nat.le_succ _⟩
  | .inexact .eq =>
    simp only [Accuracy.roundToNearestEven]
    omega
  | .inexact .gt => exact ⟨Nat.le_succ _, Nat.le_refl _⟩

theorem shiftToTargetExponent_first {e : Int} {k : Nat} (accuracy : Accuracy) (bits : e ≤ k - 1074)
    (target : Format.binary64.targetExponent (totalExponent m e) = k - 1074) :
    shiftToTargetExponent Format.binary64 m e accuracy =
      (ExtendedMantissa.ofMantissaAndAccuracy m accuracy >>> (k - 1074 - e).toNat, (k : Int) - 1074) := by
  rw [shiftToTargetExponent, target, shiftToExponent]
  congr 1
  omega

/-- A significand that has all its bits is rounded, and shifted once more if it has got too long. -/
theorem roundWithAccuracy_eq (s : Sign) {e : Int} {k : Nat} (accuracy : Accuracy) (bits : e ≤ k - 1074)
    (target : Format.binary64.targetExponent (totalExponent m e) = k - 1074) :
    roundWithAccuracy Format.binary64 s m e accuracy = ofUnits s
      ((ExtendedMantissa.ofMantissaAndAccuracy m accuracy >>> (k - 1074 - e).toNat).roundedMantissa * 2 ^ k) := by
  have bounds := roundedMantissa_bounds (ExtendedMantissa.ofMantissaAndAccuracy m accuracy >>> (k - 1074 - e).toNat)
  rw [mantissa_shifted, mantissa_ofMantissaAndAccuracy] at bounds
  rw [roundWithAccuracy, shiftToTargetExponent_first accuracy bits target]
  simp only
  generalize (ExtendedMantissa.ofMantissaAndAccuracy m accuracy >>> (k - 1074 - e).toNat).roundedMantissa = r at bounds
  have kept : k ≤ excess (r * 2 ^ k) ∨ r = 0 := by
    by_cases zero : r = 0
    · exact .inr zero
    rw [targetExponent_eq] at target
    rw [excess, log2_shift zero]
    by_cases least : k = 0
    · omega
    -- past the least exponent the significand has all its bits
    have log : m.log2 = 52 + (k - 1074 - e).toNat := by omega
    have room : 2 ^ 52 ≤ m / 2 ^ (k - 1074 - e).toNat := by
      rw [Nat.le_div_iff_mul_le (Nat.two_pow_pos _), ← Nat.pow_add, ← log]
      refine Nat.log2_self_le ?_
      rintro rfl
      rw [Nat.log2_zero] at log
      omega
    have := (Nat.le_log2 zero).2 (Nat.le_trans room bounds.1)
    omega
  rcases Nat.eq_zero_or_pos r with rfl | positive
  · have amount : (Format.binary64.targetExponent (totalExponent 0 (k - 1074)) - (k - 1074)).toNat = 0 := by
      rw [targetExponent_eq, Nat.log2_zero]
      omega
    simp only [shiftToTargetExponent, shiftToExponent, amount, Nat.zero_mul]
    rfl
  have zero := Nat.ne_of_gt positive
  have more : k ≤ excess (r * 2 ^ k) := kept.resolve_right zero
  have last : r / 2 ^ (excess (r * 2 ^ k) - k) = r * 2 ^ k / 2 ^ excess (r * 2 ^ k) := by
    have power : 2 ^ excess (r * 2 ^ k) = 2 ^ (excess (r * 2 ^ k) - k) * 2 ^ k := by
      rw [← Nat.pow_add, Nat.sub_add_cancel more]
    rw [power]
    exact (Nat.mul_div_mul_right _ _ (Nat.two_pow_pos _)).symm
  have amount : ((excess (r * 2 ^ k) - 1074 : Int) - (k - 1074)).toNat = excess (r * 2 ^ k) - k := by omega
  have exponent : (k - 1074 : Int) + (excess (r * 2 ^ k) - k : Nat) = excess (r * 2 ^ k) - 1074 := by omega
  simp only [shiftToTargetExponent, targetExponent_units zero, shiftToExponent, amount, exponent, mantissa_shifted,
    ExtendedMantissa.ofMantissaAndAccuracy, last, ofUnits]

/-- An exact result is rounded to the nearest number of units. -/
theorem roundWithAccuracy_exact (s : Sign) (hm : m ≠ 0) (bits : k ≤ excess (m * 2 ^ k)) :
    roundWithAccuracy Format.binary64 s m (k - 1074) .exact = ofUnits s (rounded (m * 2 ^ k)) := by
  have amount : ((excess (m * 2 ^ k) : Int) - 1074 - (k - 1074)).toNat = excess (m * 2 ^ k) - k := by omega
  rw [roundWithAccuracy_eq s .exact (by omega) (targetExponent_units hm k), roundedMantissa_shifted, amount,
    ← nearest_shift m _ k, Nat.sub_add_cancel bits, rounded]

theorem round_units (s : Sign) (hm : m ≠ 0) (k : Nat) :
    UnpackedFloat.round Format.binary64 s m (k - 1074) = ofUnits s (rounded (m * 2 ^ k)) := by
  have split : m * 2 ^ (k - excess (m * 2 ^ k)) * 2 ^ min k (excess (m * 2 ^ k)) = m * 2 ^ k := by
    rw [Nat.mul_assoc, ← Nat.pow_add]
    congr 2
    omega
  have longer : m * 2 ^ (k - excess (m * 2 ^ k)) ≠ 0 := Nat.mul_ne_zero hm (Nat.ne_of_gt (Nat.two_pow_pos _))
  have amount : ((k - 1074 : Int) - (excess (m * 2 ^ k) - 1074)).toNat = k - excess (m * 2 ^ k) := by omega
  have exponent :
      (k - 1074 : Int) - (k - excess (m * 2 ^ k) : Nat) = (min k (excess (m * 2 ^ k)) : Nat) - 1074 := by omega
  have exactly := roundWithAccuracy_exact s longer (k := min k (excess (m * 2 ^ k))) (by rw [split]; omega)
  rw [split] at exactly
  rw [UnpackedFloat.round, targetExponent_units hm]
  simp only [decreaseExponent, amount, exponent, Nat.shiftLeft_eq]
  exact exactly

end TextGrammar.Binary64
