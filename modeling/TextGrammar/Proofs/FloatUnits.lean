import TextGrammar.Proofs.Rounding
set_option autoImplicit false

/-!
# Floats and their units

The bits of a float and its sign, significand and exponent determine each other. A finite float is a short number of units
that is less than 2 ^ 2098.
-/
namespace TextGrammar.Binary64
open Float.Model Float.Model.UnpackedFloat

abbrev Bits := BitVec Format.binary64.numBits

theorem implicit_bit (m : BitVec 52) : (1#1 ++ m).toNat = 2 ^ 52 + m.toNat := by
  rw [BitVec.toNat_append, ← Nat.shiftLeft_add_eq_or_of_lt m.isLt]
  rfl

variable {s : Sign} {n m : Nat}

def limit : Nat := 2 ^ 2098

theorem pow_le_limit {k : Nat} (hk : k ≤ 2098) : 2 ^ k ≤ limit := by
  obtain ⟨reach, hr⟩ : ∃ reach, 2098 = reach := ⟨_, rfl⟩
  have whole : limit = 2 ^ reach := congrArg (2 ^ ·) hr
  rw [whole]
  exact Nat.pow_le_pow_right (by decide) (hr ▸ hk)

theorem limit_pos : 0 < limit := Nat.lt_of_lt_of_le Nat.one_pos (pow_le_limit (Nat.zero_le _))

theorem excess_lt (h : n < limit) : excess n < 2046 := by
  by_cases zero : n = 0
  · rw [zero]
    decide
  · have log := (Nat.log2_lt zero).2 h
    unfold excess
    omega

theorem ofUnits_zero (s : Sign) : ofUnits s 0 = .zero s := rfl

theorem ofUnits_pos (s : Sign) (h : 0 < n / 2 ^ excess n) :
    ofUnits s n = .finite s (n / 2 ^ excess n) (excess n - 1074) h := by
  rw [ofUnits, dif_neg (Nat.ne_of_gt h)]

theorem quotient_pos (h : n ≠ 0) : 0 < n / 2 ^ excess n := by
  refine Nat.div_pos ?_ (Nat.two_pow_pos _)
  refine Nat.le_trans (Nat.pow_le_pow_right (by decide) ?_) (Nat.log2_self_le h)
  unfold excess
  omega

theorem unpack_normal {field : Nat} (nonzero : field ≠ 0) (finite : field < 2047) (room : 2 ^ 52 ≤ m)
    (less : m < 2 ^ 53) :
    UnpackedFloat.unpack Format.binary64
      (packComponents Format.binary64 s (BitVec.ofNat 11 field) (BitVec.ofNat 52 m)) =
      .finite s m (field - 1075) (Nat.lt_of_lt_of_le (by decide) room) := by
  have exponent : (BitVec.ofNat 11 field).toNat = field := Nat.mod_eq_of_lt (by omega)
  have significand : (1#1 ++ BitVec.ofNat 52 m).toNat = m := by
    rw [implicit_bit, BitVec.toNat_ofNat]
    omega
  have not_last : BitVec.ofNat 11 field ≠ -1#11 := by
    intro same
    have := congrArg BitVec.toNat same
    rw [exponent] at this
    exact absurd this (by change field ≠ 2047; omega)
  have not_first : BitVec.ofNat 11 field ≠ 0#11 := by
    intro same
    have := congrArg BitVec.toNat same
    rw [exponent] at this
    exact nonzero this
  unfold UnpackedFloat.unpack
  simp only [unpackMantissa_packComponents, unpackExponent_packComponents, unpackSign_packComponents,
    Sign.ofBitVec_toBitVec, not_last, not_first, if_false, exponent, significand]
  rfl

theorem unpack_subnormal (positive : 0 < m) (less : m < 2 ^ 52) :
    UnpackedFloat.unpack Format.binary64 (packComponents Format.binary64 s 0#11 (BitVec.ofNat 52 m)) =
      .finite s m (-1074) positive := by
  have significand : (BitVec.ofNat 52 m).toNat = m := Nat.mod_eq_of_lt less
  have some_bit : BitVec.ofNat 52 m ≠ 0#52 := by
    intro same
    have := congrArg BitVec.toNat same
    rw [significand] at this
    exact absurd this (Nat.ne_of_gt positive)
  unfold UnpackedFloat.unpack
  simp only [unpackMantissa_packComponents, unpackExponent_packComponents, unpackSign_packComponents,
    Sign.ofBitVec_toBitVec, some_bit, significand]
  rfl

theorem pack_finite {k : Nat} {e : Int} (positive : 0 < m) (less : m < 2 ^ 53) (small : k < 2046) (he : e = k - 1074) :
    UnpackedFloat.pack Format.binary64 (.finite s m e positive) =
      if 2 ^ 52 ≤ m then packComponents Format.binary64 s (BitVec.ofNat 11 (k + 1)) (BitVec.ofNat 52 m)
      else packComponents Format.binary64 s 0#11 (BitVec.ofNat 52 m) := by
  have biased : (e + Format.binary64.exponentBias + (52 : Nat)).toNat = k + 1 := by
    have bias : (Format.binary64.exponentBias : Int) = 1023 := rfl
    omega
  have log : m.log2 + 1 = Format.binary64.mantissaBits ↔ 2 ^ 52 ≤ m := by
    have short := (Nat.log2_lt (Nat.ne_of_gt positive)).2 less
    rw [← Nat.le_log2 (Nat.ne_of_gt positive)]
    change _ = 53 ↔ _
    omega
  have no_overflow : ¬ 2 ^ 11 ≤ k + 1 + 1 := by omega
  rw [UnpackedFloat.pack]
  simp only [biased, no_overflow, if_false, log]

/-- Units that are neither too many nor too precise for a float are those of the float that they are packed into. -/
theorem unpack_pack (h : n < limit) : (Float.Model.pack (ofUnits s n)).unpack = ofUnits s n := by
  by_cases zero : n = 0
  · rw [zero, ofUnits_zero]
    cases s <;> rfl
  have small := excess_lt h
  have positive := quotient_pos zero
  have less := quotient_lt n
  have room := @le_quotient n
  rw [ofUnits_pos s positive]
  generalize n / 2 ^ excess n = m at positive less room
  rw [Float.Model.unpack, Float.Model.pack]
  simp only [pack_finite positive less small rfl]
  split
  · rename_i normal
    rw [unpack_normal (by omega) (by omega) normal less]
    congr 1
    omega
  · rename_i subnormal
    have exact_bits : excess n = 0 := Decidable.byContradiction fun bits => subnormal (room bits)
    rw [unpack_subnormal positive (by omega)]
    congr 1
    omega

theorem unpack_packedInfinity (s : Sign) :
    UnpackedFloat.unpack Format.binary64 (packedInfinity Format.binary64 s) = .infinity s := by
  rw [packedInfinity]
  unfold UnpackedFloat.unpack
  simp only [unpackMantissa_packComponents, unpackExponent_packComponents, unpackSign_packComponents,
    Sign.ofBitVec_toBitVec]
  rfl

theorem unpack_pack_infinity (h : limit ≤ n) : (Float.Model.pack (ofUnits s n)).unpack = .infinity s := by
  have zero : n ≠ 0 := Nat.ne_of_gt (Nat.lt_of_lt_of_le limit_pos h)
  have log := (Nat.le_log2 zero).2 h
  have large : 2046 ≤ excess n := by
    unfold excess
    omega
  rw [ofUnits_pos s (quotient_pos zero), Float.Model.unpack, Float.Model.pack]
  have biased : 2 ^ 11 ≤ ((excess n : Int) - 1074 + Format.binary64.exponentBias + (52 : Nat)).toNat + 1 := by
    have bias : (Format.binary64.exponentBias : Int) = 1023 := rfl
    omega
  simp only [UnpackedFloat.pack, if_pos biased]
  exact unpack_packedInfinity s

theorem excess_scaled {k : Nat} (less : m < 2 ^ 53) (canonical : 2 ^ 52 ≤ m ∨ m ≠ 0 ∧ k = 0) :
    excess (m * 2 ^ k) = k := by
  have zero : m ≠ 0 := by omega
  have log := (Nat.log2_lt zero).2 less
  rw [excess, log2_shift zero]
  rcases canonical with room | ⟨-, rfl⟩
  · have := (Nat.le_log2 zero).2 room
    omega
  · omega

theorem ofUnits_scaled {k : Nat} (less : m < 2 ^ 53) (canonical : 2 ^ 52 ≤ m ∨ m ≠ 0 ∧ k = 0) :
    ofUnits s (m * 2 ^ k) = .finite s m (k - 1074) (by omega) := by
  have quotient : m * 2 ^ k / 2 ^ k = m := Nat.mul_div_cancel _ (Nat.two_pow_pos k)
  have pos : 0 < m := by omega
  simp only [ofUnits, excess_scaled less canonical, quotient, dif_neg (Nat.ne_of_gt pos)]

theorem scaled_lt {k : Nat} (less : m < 2 ^ 53) (small : k < 2046) : m * 2 ^ k < limit := by
  calc
    m * 2 ^ k < 2 ^ 53 * 2 ^ k := Nat.mul_lt_mul_of_pos_right less (Nat.two_pow_pos k)
    _ = 2 ^ (53 + k) := (Nat.pow_add ..).symm
    _ ≤ limit := pow_le_limit (by omega)

theorem scaled_of_parts {k : Nat} {e : Int} {h : 0 < m} (less : m < 2 ^ 53) (canonical : 2 ^ 52 ≤ m ∨ k = 0)
    (small : k < 2046)
    (he : e = k - 1074) : ∃ s' n, UnpackedFloat.finite s m e h = ofUnits s' n ∧ Short n ∧ n < limit := by
  subst he
  exact ⟨s, m * 2 ^ k, (ofUnits_scaled less (by omega)).symm, short_mul (Nat.le_of_lt less) k, scaled_lt less small⟩

/-- Floats are short numbers of units, infinities, and the one that is no number. -/
theorem unpack_bits (b : Bits) : UnpackedFloat.unpack Format.binary64 b = .notANumber ∨
    (∃ s, UnpackedFloat.unpack Format.binary64 b = .infinity s) ∨
    ∃ s n, UnpackedFloat.unpack Format.binary64 b = ofUnits s n ∧ Short n ∧ n < limit := by
  have bias : Format.binary64.exponentBias = 1023 := rfl
  have mantissa : (unpackMantissa b).toNat < 2 ^ 52 := BitVec.isLt _
  have field : (unpackExponent b).toNat < 2 ^ 11 := BitVec.isLt _
  unfold UnpackedFloat.unpack
  dsimp only
  split
  · split
    · exact .inr (.inl ⟨_, rfl⟩)
    · exact .inl rfl
  · rename_i not_last
    refine .inr (.inr ?_)
    split
    · rename_i first
      split
      · exact ⟨_, 0, (ofUnits_zero _).symm, Nat.dvd_zero _, limit_pos⟩
      · refine scaled_of_parts (by omega) (.inr rfl) (by decide) ?_
        rw [first, bias]
        rfl
    · rename_i not_first
      have some_bit : (unpackExponent b).toNat ≠ 0 :=
        fun same => not_first (BitVec.eq_of_toNat_eq same)
      have other_bit : (unpackExponent b).toNat ≠ 2047 :=
        fun same => not_last (BitVec.eq_of_toNat_eq same)
      have significand := implicit_bit (unpackMantissa b)
      exact scaled_of_parts (k := (unpackExponent b).toNat - 1) (by omega) (.inl (by omega))
        (by omega) (by rw [bias]; omega)

theorem pack_unpack_model (v : Float.Model) : Float.Model.pack v.unpack = v := by
  obtain ⟨bits, valid⟩ := v
  rw [Float.Model.mk.injEq]
  exact congrArg UInt64.ofBitVec (pack_unpack_of_valid valid)

end TextGrammar.Binary64
