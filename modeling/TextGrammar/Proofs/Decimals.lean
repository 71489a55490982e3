import TextGrammar.Decimal.Reading
import TextGrammar.Proofs.Floats
import TextGrammar.Proofs.ParserProgress
set_option autoImplicit false

namespace TextGrammar.Binary64
open Float.Model Float.Model.UnpackedFloat

variable {m n d k : Nat} {x : Float}

theorem log2_mul_le (m n : Nat) : (m * n).log2 ≤ m.log2 + n.log2 + 1 := by
  by_cases zero : m * n = 0
  · rw [zero, Nat.log2_zero]
    exact Nat.zero_le _
  · have less : m * n < 2 ^ (m.log2 + 1) * 2 ^ (n.log2 + 1) := Nat.mul_lt_mul_of_lt_of_le Nat.lt_log2_self
      (Nat.le_of_lt Nat.lt_log2_self) (Nat.two_pow_pos _)
    rw [← Nat.pow_add] at less
    have := (Nat.log2_lt zero).2 less
    omega

theorem div_exact (hm : 0 < m) (hd : 0 < d) (hn : Short n)
    (same : m * 2 ^ places = n * d) :
    UnpackedFloat.div Format.binary64 (.finite .positive m 0 hm) (.finite .positive d 0 hd) = ofUnits .positive n := by
  have hp := places_eq
  have nonzero : n ≠ 0 := by
    rintro rfl
    have := Nat.mul_pos hm (Nat.two_pow_pos places)
    omega
  have logs : m.log2 + places ≤ n.log2 + d.log2 + 1 := by
    rw [← log2_shift (Nat.ne_of_gt hm), same]
    exact log2_mul_le n d
  -- the quotient is formed on a grid that is fine enough for it
  obtain ⟨j, grid, coarse, least⟩ : ∃ j : Nat, min ((0 : Int) - 0) (Format.binary64.targetExponent
      (totalExponent m 0 - totalExponent d 0)) = j - 1074 ∧ j ≤ excess n ∧ j ≤ places := by
    rw [targetExponent_sub, excess]
    refine ⟨(min (0 : Int) (max (m.log2 - d.log2 - 53) (-1074)) + 1074).toNat, ?_, ?_, ?_⟩
    all_goals omega
  obtain ⟨q, hq⟩ := Nat.dvd_trans (Nat.pow_dvd_pow 2 coarse) hn
  rw [Nat.mul_comm] at hq
  have amount : ((0 : Int) - 0 - (j - 1074)).toNat = places - j := by omega
  have exactly : m * 2 ^ (places - j) = q * d := by
    have power : 2 ^ places = 2 ^ (places - j) * 2 ^ j := by rw [← Nat.pow_add, Nat.sub_add_cancel least]
    refine Nat.eq_of_mul_eq_mul_right (Nat.two_pow_pos j) ?_
    calc
      m * 2 ^ (places - j) * 2 ^ j = m * 2 ^ places := by rw [power, Nat.mul_assoc]
      _ = q * d * 2 ^ j := by rw [same, hq, Nat.mul_right_comm]
  have some_bits : q ≠ 0 := by
    rintro rfl
    exact nonzero (by rw [hq, Nat.zero_mul])
  have result := roundWithAccuracy_exact (.positive / .positive) some_bits (k := j) (by rwa [← hq])
  rw [← hq, rounded_of_short hn] at result
  simp only [UnpackedFloat.div, divCore, grid, amount, Nat.shiftLeft_eq, exactly, Nat.mul_div_cancel _ hd,
    Nat.mul_mod_left, accuracyOfFraction, if_true]
  exact result

theorem float_eq_of_unpack {u : UnpackedFloat} (h : x.toModel.unpack = u) : x = .ofModel (Float.Model.pack u) := by
  rw [← h, pack_unpack_model]

theorem length_toString (n : Nat) : (toString n).length = (Nat.toDigits 10 n).length := by
  rw [Nat.toString_eq_ofList_toDigits, String.length_ofList]

theorem ten_pow (k : Nat) : 10 ^ k = 2 ^ k * 5 ^ k := Nat.mul_pow 2 5 k

theorem two_pow_le_ten_pow {j : Nat} (h : j ≤ 3 * k) : 2 ^ j ≤ 10 ^ k := by
  calc
    2 ^ j ≤ 2 ^ (3 * k) := Nat.pow_le_pow_right (by decide) h
    _ = (2 ^ 3) ^ k := Nat.pow_mul ..
    _ ≤ 10 ^ k := Nat.pow_le_pow_left (by decide) k

/-- The decimal point of a finite float is not far from its digits. -/
theorem digits_within {reach : Nat} (hr : reach = 400) (nonzero : n ≠ 0) (bounded : n < limit) :
    (Nat.toDigits 10 (n * 5 ^ places)).length ≤ places + reach ∧
      places ≤ (Nat.toDigits 10 (n * 5 ^ places)).length + reach := by
  have hp := places_eq
  have five := Nat.pow_pos (n := places) (show 0 < 5 by decide)
  constructor
  · rw [Nat.length_toDigits_le_iff (by decide) (by omega)]
    obtain ⟨whole, exponent, small⟩ : ∃ whole, 2098 = places + whole ∧ whole ≤ 3 * reach := ⟨1024, by omega, by omega⟩
    have all : limit = 2 ^ places * 2 ^ whole := by rw [limit, exponent, Nat.pow_add]
    have far : 2 ^ whole ≤ 10 ^ reach := two_pow_le_ten_pow small
    rw [Nat.pow_add, ten_pow places]
    generalize 10 ^ reach = ten at far
    generalize 2 ^ whole = two at far all
    calc
      n * 5 ^ places < 2 ^ places * two * 5 ^ places := Nat.mul_lt_mul_of_pos_right (all ▸ bounded) five
      _ = 2 ^ places * 5 ^ places * two := Nat.mul_right_comm ..
      _ ≤ 2 ^ places * 5 ^ places * ten := Nat.mul_le_mul_left _ far
  · obtain ⟨more, hm⟩ : ∃ more, more = reach + 1 := ⟨_, rfl⟩
    have long : ¬ (Nat.toDigits 10 (n * 5 ^ places)).length ≤ places - more := by
      rw [Nat.length_toDigits_le_iff (by decide) (by omega), Nat.not_lt]
      have near : 2 ^ (places - more) ≤ 5 ^ more := by
        calc
          2 ^ (places - more) ≤ 2 ^ (2 * more) := Nat.pow_le_pow_right (by decide) (by omega)
          _ = (2 ^ 2) ^ more := Nat.pow_mul ..
          _ ≤ 5 ^ more := Nat.pow_le_pow_left (by decide) more
      calc
        10 ^ (places - more) = 2 ^ (places - more) * 5 ^ (places - more) := ten_pow _
        _ ≤ 5 ^ more * 5 ^ (places - more) := Nat.mul_le_mul_right _ near
        _ = 5 ^ places := by rw [← Nat.pow_add, Nat.add_sub_of_le (by omega)]
        _ ≤ n * 5 ^ places := Nat.le_mul_of_pos_left _ (by omega)
    omega

theorem ofScientific_eq_div (hm : 0 < m) (hd : 0 < 10 ^ k) (hk : 0 < k) (small : k ≤ 2048) :
    UnpackedFloat.ofScientific Format.binary64 m (-k) =
      UnpackedFloat.div Format.binary64 (.finite .positive m 0 hm) (.finite .positive (10 ^ k) 0 hd) := by
  have room : (2 : Int) ^ Format.binary64.exponentBits = 2048 := rfl
  have amount : (-(-(k : Int))).toNat = k := by omega
  rw [UnpackedFloat.ofScientific, dif_neg (Nat.ne_of_gt hm), room, if_neg (by omega), if_neg (by omega),
    if_neg (by omega)]
  simp only [amount]

/-- The decimal of a finite float as it stands reads back as this float. -/
theorem toFloat_decimal (hx : Measures x .positive n) (nonzero : n ≠ 0) :
    Decimal.Numeral.toFloat ⟨false, Nat.toDigits 10 (n * 5 ^ places), [], -places⟩ = x := by
  have hp := places_eq
  have five := Nat.pow_pos (n := places) (show 0 < 5 by decide)
  have ten := Nat.pow_pos (n := places) (show 0 < 10 by decide)
  have positive : 0 < n * 5 ^ places := Nat.mul_pos (by omega) five
  obtain ⟨above, below⟩ := digits_within (rfl : _ = 400) nonzero hx.bounded
  have same : n * 5 ^ places * 2 ^ places = n * 10 ^ places := by rw [ten_pow, Nat.mul_assoc, Nat.mul_comm (5 ^ places)]
  have quotient := div_exact positive ten hx.short same
  have exponent : (-(places : Int) - (0 : Nat)) = -places := by omega
  have before : (-(places : Int)) < 0 := by omega
  have slow : ¬ (n * 5 ^ places < 2 ^ 53 ∧ places ≤ 22) := by omega
  have near : ¬ ((Nat.toDigits 10 (n * 5 ^ places)).length + -(places : Int) < -Decimal.farthestPoint) := by
    change ¬ (_ < -400)
    omega
  have far : ¬ (Decimal.farthestPoint < (Nat.toDigits 10 (n * 5 ^ places)).length + -(places : Int)) := by
    change ¬ (400 < _)
    omega
  have some_digit : ¬ n * 5 ^ places = 0 := Nat.ne_of_gt positive
  unfold Decimal.Numeral.toFloat
  simp only [List.append_nil, List.length_nil, Parsing.Token.natOfDigits_toDigits, length_toString, exponent, near, far,
    some_digit, before, if_false, Int.natAbs_neg, Int.natAbs_natCast, decide_true]
  rw [Float.ofScientific, dif_neg slow, if_pos rfl]
  simp only [Bool.false_eq_true, if_false]
  rw [float_eq_of_unpack hx.unpacked, ← quotient, Int.negOfNat_eq, Int.ofNat_eq_natCast, Float.Model.ofScientific,
    ofScientific_eq_div positive ten (by omega) (by omega)]

end TextGrammar.Binary64
