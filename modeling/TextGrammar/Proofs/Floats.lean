import TextGrammar.Proofs.FloatUnits
set_option autoImplicit false

namespace TextGrammar.Binary64
open Float.Model Float.Model.UnpackedFloat

variable {s t : Sign} {m n k : Nat} {x y : Float} {a b : Int}

def signOf (z : Int) : Sign := if z < 0 then .negative else .positive

/-- The whole number of units nearest to `z`. -/
def roundedInt (z : Int) : Int := (signOf z).apply (rounded z.natAbs)

theorem natAbs_apply (s : Sign) (n : Nat) : (s.apply n).natAbs = n := by
  cases s with
  | negative => exact Int.natAbs_neg n
  | positive => rfl

theorem apply_signOf (z : Int) : (signOf z).apply z.natAbs = z := by
  unfold signOf
  split
  · change -(z.natAbs : Int) = z
    omega
  · change (z.natAbs : Int) = z
    omega

theorem apply_mul (s : Sign) (m n : Nat) : s.apply ((m * n : Nat) : Int) = s.apply m * n := by
  cases s with
  | negative => simp [Sign.apply]
  | positive => simp [Sign.apply]

theorem normalize_units (z : Int) (k : Nat) : UnpackedFloat.normalize Format.binary64 z (k - 1074) .positive =
    ofUnits (signOf (z * 2 ^ k)) (rounded (z * 2 ^ k).natAbs) := by
  have power : (0 : Int) < 2 ^ k := Int.pow_pos (by decide)
  have size : (z * 2 ^ k).natAbs = z.natAbs * 2 ^ k := by
    rw [Int.natAbs_mul, Int.natAbs_pow]
    rfl
  rcases Int.lt_trichotomy z 0 with negative | rfl | positive
  · have magnitude : (-z).toNat = z.natAbs := by omega
    rw [UnpackedFloat.normalize, Int.compare_eq_lt.2 negative, magnitude, size, signOf,
      if_pos (Int.mul_neg_of_neg_of_pos negative power)]
    exact round_units _ (by omega) k
  · rw [Int.zero_mul]
    rfl
  · have magnitude : z.toNat = z.natAbs := by omega
    rw [UnpackedFloat.normalize, Int.compare_eq_gt.2 positive, magnitude, size, signOf,
      if_neg (Int.not_lt.2 (Int.le_of_lt (Int.mul_pos positive power)))]
    exact round_units _ (by omega) k

theorem roundedInt_of_short (h : Short a.natAbs) : roundedInt a = a := by
  rw [roundedInt, rounded_of_short h, apply_signOf]

theorem apply_zero (s : Sign) : s.apply ((0 : Nat) : Int) = 0 := by
  cases s <;> rfl

theorem decreaseExponent_units (h : Short n) (hk : k ≤ excess n) :
    (decreaseExponent (n / 2 ^ excess n) (excess n - 1074) (k - 1074)).1 * 2 ^ k = n := by
  have amount : ((excess n - 1074 : Int) - (k - 1074)).toNat = excess n - k := by omega
  simp only [decreaseExponent, amount, Nat.shiftLeft_eq]
  rw [Nat.mul_assoc, ← Nat.pow_add, Nat.sub_add_cancel hk, Nat.div_mul_cancel h]

theorem add_units (hm : Short m) (hn : Short n) (s t : Sign) : ∃ u,
    UnpackedFloat.add Format.binary64 (ofUnits s m) (ofUnits t n) = ofUnits u (rounded (s.apply m + t.apply n).natAbs) ∧
      u.apply (rounded (s.apply m + t.apply n).natAbs) = roundedInt (s.apply m + t.apply n) := by
  by_cases zero : m = 0
  · subst zero
    rw [apply_zero, Int.zero_add, natAbs_apply, rounded_of_short hn, roundedInt_of_short (by rwa [natAbs_apply])]
    by_cases zero' : n = 0
    · subst zero'
      simp only [apply_zero, ofUnits_zero, UnpackedFloat.add]
      split
      · exact ⟨s, rfl, trivial⟩
      · exact ⟨.positive, rfl, trivial⟩
    · refine ⟨t, ?_, rfl⟩
      rw [ofUnits_zero, ofUnits_pos t (quotient_pos zero')]
      rfl
  by_cases zero' : n = 0
  · subst zero'
    rw [apply_zero, Int.add_zero, natAbs_apply, rounded_of_short hm, roundedInt_of_short (by rwa [natAbs_apply])]
    refine ⟨s, ?_, rfl⟩
    rw [ofUnits_zero, ofUnits_pos s (quotient_pos zero)]
    rfl
  · have grid : min (excess m - 1074 : Int) (excess n - 1074) = (min (excess m) (excess n) : Nat) - 1074 := by omega
    have left := congrArg (fun n : Nat => s.apply n) (decreaseExponent_units hm (Nat.min_le_left (excess m) (excess n)))
    have right :=
      congrArg (fun n : Nat => t.apply n) (decreaseExponent_units hn (Nat.min_le_right (excess m) (excess n)))
    simp only [apply_mul, Nat.cast_pow] at left right
    rw [← left, ← right, ← Int.add_mul]
    rw [ofUnits_pos s (quotient_pos zero), ofUnits_pos t (quotient_pos zero')]
    simp only [UnpackedFloat.add, grid, normalize_units]
    exact ⟨_, rfl, rfl⟩

theorem apply_neg (s : Sign) (z : Int) : (-s).apply z = -s.apply z := by
  cases s with
  | negative => exact (Int.neg_neg z).symm
  | positive => rfl

theorem neg_units (s : Sign) (n : Nat) : (ofUnits s n).neg = ofUnits (-s) n := by
  unfold ofUnits
  split <;> rfl

theorem sub_eq_add_neg (x y : UnpackedFloat) :
    UnpackedFloat.sub Format.binary64 x y = UnpackedFloat.add Format.binary64 x y.neg := by
  cases x with
  | finite s m e h =>
    cases y with
    | finite t n f h' =>
      simp only [UnpackedFloat.sub, UnpackedFloat.neg, UnpackedFloat.add, apply_neg, Int.sub_eq_add_neg]
    | _ => rfl
  | _ => cases y <;> rfl

theorem lt_of_excess_lt (h : excess m < excess n) : m < n :=
  Nat.lt_of_not_le fun le => absurd (excess_mono le) (Nat.not_le_of_lt h)

/-- Exponents decide the order, and significands if these are the same. -/
theorem compare_parts (hm : Short m) (hn : Short n) : (compare (excess m - 1074 : Int) (excess n - 1074)).then
    (compare (m / 2 ^ excess m) (n / 2 ^ excess n)) = compare m n := by
  rcases Nat.lt_trichotomy (excess m) (excess n) with less | same | more
  · rw [Int.compare_eq_lt.2 (by omega), Nat.compare_eq_lt.2 (lt_of_excess_lt less)]
    rfl
  · obtain ⟨q, hq⟩ := hm
    obtain ⟨r, hr⟩ := hn
    have pos := Nat.two_pow_pos (excess n)
    rw [same] at hq ⊢
    rw [Int.compare_eq_eq.2 rfl, hq, Nat.mul_div_cancel_left _ pos]
    generalize excess n = k at hr pos
    rw [hr, Nat.mul_div_cancel_left _ pos]
    simp only [Nat.compare_eq_ite_lt, Nat.mul_lt_mul_left pos]
    rfl
  · rw [Int.compare_eq_gt.2 (by omega), Nat.compare_eq_gt.2 (lt_of_excess_lt more)]
    rfl

theorem compare_apply (s : Sign) (m n : Nat) : compare (s.apply m) (s.apply n) = match s with
    | .negative => (compare m n).swap
    | .positive => compare m n := by
  rcases Nat.lt_trichotomy m n with less | rfl | more
  · rw [Nat.compare_eq_lt.2 less]
    cases s with
    | negative => exact Int.compare_eq_gt.2 (by change -(n : Int) < -m; omega)
    | positive => exact Int.compare_eq_lt.2 (by change (m : Int) < n; omega)
  · rw [Int.compare_eq_eq.2 rfl, Nat.compare_eq_eq.2 rfl]
    cases s <;> rfl
  · rw [Nat.compare_eq_gt.2 more]
    cases s with
    | negative => exact Int.compare_eq_lt.2 (by change -(m : Int) < -n; omega)
    | positive => exact Int.compare_eq_gt.2 (by change (n : Int) < m; omega)

/-- Finite floats are in the order of their units, zeros of either sign being equal. -/
theorem compare_units (hm : Short m) (hn : Short n) (s t : Sign) :
    (ofUnits s m).compare (ofUnits t n) = some (compare (s.apply m) (t.apply n)) := by
  have parts := compare_parts hm hn
  by_cases zero : m = 0
  · subst zero
    by_cases zero' : n = 0
    · subst zero'
      simp only [apply_zero, ofUnits_zero]
      rfl
    · rw [ofUnits_zero, ofUnits_pos t (quotient_pos zero'), apply_zero]
      cases t with
      | negative => exact congrArg some (Int.compare_eq_gt.2 (by change -(n : Int) < 0; omega)).symm
      | positive => exact congrArg some (Int.compare_eq_lt.2 (by change (0 : Int) < n; omega)).symm
  by_cases zero' : n = 0
  · subst zero'
    rw [ofUnits_zero, ofUnits_pos s (quotient_pos zero), apply_zero]
    cases s with
    | negative => exact congrArg some (Int.compare_eq_lt.2 (by change -(m : Int) < 0; omega)).symm
    | positive => exact congrArg some (Int.compare_eq_gt.2 (by change (0 : Int) < m; omega)).symm
  · rw [ofUnits_pos s (quotient_pos zero), ofUnits_pos t (quotient_pos zero')]
    cases s with
    | negative =>
      cases t with
      | negative =>
        rw [compare_apply, ← parts]
        rfl
      | positive => exact congrArg some (Int.compare_eq_lt.2 (by change -(m : Int) < n; omega)).symm
    | positive =>
      cases t with
      | negative => exact congrArg some (Int.compare_eq_gt.2 (by change -(n : Int) < m; omega)).symm
      | positive =>
        rw [compare_apply, ← parts]
        rfl

/-- A finite float as its sign and its units. -/
structure Measures (x : Float) (s : Sign) (n : Nat) : Prop where
  unpacked : x.toModel.unpack = ofUnits s n
  short : Short n
  bounded : n < limit

/-- A finite float is a whole number of units. -/
def Amounts (x : Float) (z : Int) : Prop := ∃ s n, Measures x s n ∧ z = s.apply n

theorem Measures.amounts (h : Measures x s n) : Amounts x (s.apply n) := ⟨s, n, h, rfl⟩

theorem Amounts.short (h : Amounts x a) : Short a.natAbs := by
  obtain ⟨s, n, h, rfl⟩ := h
  rw [natAbs_apply]
  exact h.short

theorem Amounts.lt_limit (h : Amounts x a) : a.natAbs < limit := by
  obtain ⟨s, n, h, rfl⟩ := h
  rw [natAbs_apply]
  exact h.bounded

theorem measures_pack (h : Short n) (bounded : n < limit) (s : Sign) :
    Measures (.ofModel (Float.Model.pack (ofUnits s n))) s n :=
  ⟨unpack_pack bounded, h, bounded⟩

theorem measures_of_parts {e : Int} {h : 0 < m} (less : m < 2 ^ 53) (room : 2 ^ 52 ≤ m) (small : k < 2046)
    (he : e = k - 1074) : Measures (.ofModel (Float.Model.pack (.finite s m e h))) s (m * 2 ^ k) := by
  have packed := measures_pack (short_mul (Nat.le_of_lt less) k) (scaled_lt less small) s
  rwa [ofUnits_scaled less (.inl room), ← he] at packed

theorem Amounts.add (hx : Amounts x a) (hy : Amounts y b) (bounded : rounded (a + b).natAbs < limit) :
    Amounts (x + y) (roundedInt (a + b)) := by
  obtain ⟨s, m, hx, rfl⟩ := hx
  obtain ⟨t, n, hy, rfl⟩ := hy
  obtain ⟨u, sum, value⟩ := add_units hx.short hy.short s t
  rw [← value]
  have packed := measures_pack (short_rounded _) bounded u
  rw [← sum, ← hx.unpacked, ← hy.unpacked] at packed
  exact packed.amounts

theorem Amounts.sub (hx : Amounts x a) (hy : Amounts y b) (bounded : rounded (a - b).natAbs < limit) :
    Amounts (x - y) (roundedInt (a - b)) := by
  obtain ⟨s, m, hx, rfl⟩ := hx
  obtain ⟨t, n, hy, rfl⟩ := hy
  obtain ⟨u, difference, value⟩ := add_units hx.short hy.short s (-t)
  rw [apply_neg, ← Int.sub_eq_add_neg] at difference value
  rw [← value]
  have packed := measures_pack (short_rounded _) bounded u
  rw [← difference, ← neg_units, ← sub_eq_add_neg, ← hx.unpacked, ← hy.unpacked] at packed
  exact packed.amounts

theorem Amounts.compare_eq (hx : Amounts x a) (hy : Amounts y b) :
    x.toModel.unpack.compare y.toModel.unpack = some (compare a b) := by
  obtain ⟨s, m, hx, rfl⟩ := hx
  obtain ⟨t, n, hy, rfl⟩ := hy
  rw [hx.unpacked, hy.unpacked]
  exact compare_units hx.short hy.short s t

theorem Amounts.lt_iff (hx : Amounts x a) (hy : Amounts y b) : x < y ↔ a < b := by
  have less : x < y ↔ x.toModel.unpack.lt y.toModel.unpack = true := decide_eq_true_iff
  rw [less, UnpackedFloat.lt, hx.compare_eq hy, ← Int.compare_eq_lt]
  simp

theorem Amounts.le_iff (hx : Amounts x a) (hy : Amounts y b) : x ≤ y ↔ a ≤ b := by
  have most : x ≤ y ↔ x.toModel.unpack.le y.toModel.unpack = true := decide_eq_true_iff
  rw [most, UnpackedFloat.le, hx.compare_eq hy, ← Int.isLE_compare]
  simp

theorem Amounts.unique (h : Amounts x a) (h' : Amounts x b) : a = b :=
  Int.le_antisymm ((h.le_iff h').1 ((h.le_iff h).2 (Int.le_refl a))) ((h'.le_iff h).1 ((h.le_iff h).2 (Int.le_refl a)))

def Signed (s : Sign) : UnpackedFloat → Prop
  | .notANumber => False
  | .infinity t | .zero t | .finite t _ _ _ => t = s

theorem signed_components (e : BitVec 11) (m : BitVec 52) (finite : e ≠ -1#11) :
    Signed s (UnpackedFloat.unpack Format.binary64 (packComponents Format.binary64 s e m)) := by
  unfold UnpackedFloat.unpack
  simp only [unpackMantissa_packComponents, unpackExponent_packComponents, unpackSign_packComponents,
    Sign.ofBitVec_toBitVec, finite, if_false]
  split
  · split <;> rfl
  · rfl

theorem signed_pack {u : UnpackedFloat} (h : Signed s u) : Signed s (Float.Model.pack u).unpack := by
  cases u with
  | notANumber => exact h.elim
  | infinity t =>
    obtain rfl := h
    have kept : (Float.Model.pack (.infinity t)).unpack = .infinity t := unpack_packedInfinity t
    rw [kept]
    rfl
  | zero t =>
    obtain rfl := h
    exact signed_components 0 0 (by decide)
  | finite t m e hm =>
    obtain rfl := h
    rw [Float.Model.unpack, Float.Model.pack]
    simp only [UnpackedFloat.pack]
    split
    · rw [unpack_packedInfinity]
      rfl
    · rename_i fits
      split
      · refine signed_components _ _ fun last => fits ?_
        have field := congrArg BitVec.toNat last
        rw [BitVec.toNat_ofNat] at field
        change _ = 2047 at field
        change 2048 ≤ _
        omega
      · exact signed_components _ _ (by decide)

theorem signed_round (s : Sign) (m : Nat) (e : Int) (accuracy : Accuracy) :
    Signed s (roundWithAccuracy Format.binary64 s m e accuracy) := by
  simp only [roundWithAccuracy]
  split <;> rfl

theorem unpack_zero : (0.0 : Float).toModel.unpack = .zero .positive := by
  have packed : (0.0 : Float) = .ofModel (Float.Model.pack (.zero .positive)) := by decide +kernel
  rw [packed]
  exact unpack_pack (n := 0) limit_pos

theorem nonneg_iff : 0.0 ≤ x ↔ Signed .positive x.toModel.unpack ∨ x.toModel.unpack = .zero .negative := by
  have most : 0.0 ≤ x ↔ (UnpackedFloat.zero .positive).le x.toModel.unpack = true := by
    rw [← unpack_zero]
    exact decide_eq_true_iff
  rw [most]
  cases x.toModel.unpack with
  | notANumber => simp [UnpackedFloat.le, UnpackedFloat.compare, Signed]
  | infinity t => cases t <;> simp [UnpackedFloat.le, UnpackedFloat.compare, Signed]
  | zero t => cases t <;> simp [UnpackedFloat.le, UnpackedFloat.compare, Signed]
  | finite t m e h => cases t <;> simp [UnpackedFloat.le, UnpackedFloat.compare, Signed]

theorem nonneg_cases (h : 0.0 ≤ x) : x.toModel.unpack = .infinity .positive ∨ (∃ s, x.toModel.unpack = .zero s) ∨
    ∃ n, n ≠ 0 ∧ Measures x .positive n := by
  have sign := nonneg_iff.1 h
  rcases unpack_bits x.toModel.toBits.toBitVec with nothing | ⟨s, endless⟩ | ⟨s, n, finite, short, bounded⟩
  · change x.toModel.unpack = _ at nothing
    rw [nothing] at sign
    exact absurd sign (not_or.2 ⟨not_false, nofun⟩)
  · change x.toModel.unpack = _ at endless
    refine .inl ?_
    rw [endless] at sign ⊢
    rw [show s = .positive from sign.resolve_right nofun]
  · change x.toModel.unpack = _ at finite
    by_cases none : n = 0
    · subst none
      exact .inr (.inl ⟨s, finite⟩)
    · refine .inr (.inr ⟨n, none, ?_⟩)
      rw [finite, ofUnits_pos s (quotient_pos none)] at sign
      obtain rfl : s = .positive := sign.resolve_right nofun
      exact ⟨finite, short, bounded⟩

def places : Nat := 1074

theorem places_eq : places = 1074 := rfl

theorem mul_toModel (x y : Float) : (x * y).toModel =
    Float.Model.pack (UnpackedFloat.mul Format.binary64 x.toModel.unpack y.toModel.unpack) := rfl

theorem measures_one : Measures 1.0 .positive (2 ^ 52 * 2 ^ 1022) := by
  have packed : (1.0 : Float) = .ofModel (Float.Model.pack (.finite .positive (2 ^ 52) (-52) (by decide))) := by
    decide +kernel
  rw [packed]
  exact measures_of_parts (by decide) (by decide) (by decide) (by decide)

theorem mul_one (hn : Short n) (h : n = 0 ∨ 52 ≤ excess n) : UnpackedFloat.mul Format.binary64 (ofUnits .positive n)
    (ofUnits .positive (2 ^ 52 * 2 ^ 1022)) = ofUnits .positive n := by
  rw [ofUnits_scaled (k := 1022) (by decide) (.inl (Nat.le_refl _))]
  rcases h with rfl | bits
  · rfl
  have nonzero : n ≠ 0 := by
    rintro rfl
    exact absurd bits (by decide)
  have positive := quotient_pos nonzero
  have whole : n / 2 ^ excess n * 2 ^ 52 * 2 ^ (excess n - 52) = n := by
    rw [Nat.mul_assoc, ← Nat.pow_add, Nat.add_sub_of_le bits, Nat.div_mul_cancel hn]
  have exponent : (excess n : Int) - 1074 + ((1022 : Nat) - 1074) = (excess n - 52 : Nat) - 1074 := by omega
  have result := roundWithAccuracy_exact .positive (Nat.ne_of_gt (Nat.mul_pos positive (Nat.two_pow_pos 52)))
    (k := excess n - 52) (by rw [whole]; omega)
  rw [whole, rounded_of_short hn] at result
  conv_lhs => rw [ofUnits_pos _ positive]
  simp only [UnpackedFloat.mul, exponent]
  exact result

theorem normalize_nat (k : Nat) :
    UnpackedFloat.normalize Format.binary64 k 0 .positive = ofUnits .positive (rounded (k * 2 ^ places)) := by
  have units := normalize_units k places
  have size : (k * 2 ^ places : Int) = (k * 2 ^ places : Nat) := by
    rw [Int.natCast_mul, Int.natCast_pow]
    rfl
  rw [size, signOf, if_neg (by omega), Int.natAbs_natCast] at units
  exact units

theorem excess_whole (h : k ≠ 0) : places - 52 ≤ excess (k * 2 ^ places) := by
  rw [excess, log2_shift h]
  omega

theorem ofScientific_zero (hk : k ≠ 0) :
    UnpackedFloat.ofScientific Format.binary64 k 0 = ofUnits .positive (rounded (k * 2 ^ places)) := by
  have fine : 53 + (places - 53) = places := by decide
  have whole : k * 2 ^ 53 * 2 ^ (places - 53) = k * 2 ^ places := by rw [Nat.mul_assoc, ← Nat.pow_add, fine]
  have nonzero : k * 2 ^ 53 ≠ 0 := by omega
  have bits := excess_whole hk
  have enough : ¬ ((0 : Int) < -(2 ^ Format.binary64.exponentBits + k.log2)) := by
    have room : (2 : Int) ^ Format.binary64.exponentBits = 2048 := rfl
    omega
  have result := roundWithAccuracy_exact .positive nonzero (k := places - 53) (by rw [whole]; omega)
  rw [whole] at result
  rw [← result, UnpackedFloat.ofScientific, dif_neg hk, if_neg (by decide), if_neg enough, if_pos (by decide)]
  have room : Format.binary64.mantissaBits = 53 := rfl
  have exponent : (-(53 : Nat) : Int) + 0 = (places - 53 : Nat) - 1074 := by decide
  have ten : 10 ^ (0 : Int).toNat = 1 := rfl
  simp only [UnpackedFloat.mul, Nat.shiftLeft_eq, room, exponent, ten, Nat.mul_one]
  rfl

theorem ofNat_eq_pack (k : Nat) :
    Float.ofNat k = .ofModel (Float.Model.pack (ofUnits .positive (rounded (k * 2 ^ places)))) := by
  have power : Float.exactlyRepresentablePowersOfTen[0] = 1.0 := by decide +kernel
  have scientific : Float.ofNat k = Float.ofScientific k false 0 := rfl
  rw [scientific, Float.ofScientific]
  by_cases fast : k < 2 ^ 53
  · have short : Short (k * 2 ^ places) := short_mul (Nat.le_of_lt fast) places
    have bounded : k * 2 ^ places < limit := scaled_lt fast (by decide)
    have whole : k.toUInt64.toFloat.toModel.unpack = ofUnits .positive (k * 2 ^ places) := by
      have same : k.toUInt64.toNat = k := Nat.mod_eq_of_lt (by omega)
      have packed : k.toUInt64.toFloat.toModel =
          Float.Model.pack (UnpackedFloat.normalize Format.binary64 k.toUInt64.toNat 0 .positive) := rfl
      rw [packed, same, normalize_nat, rounded_of_short short]
      exact unpack_pack bounded
    rw [dif_pos ⟨fast, by decide⟩]
    simp only [Bool.false_eq_true, if_false, power]
    change Float.ofModel (k.toUInt64.toFloat * 1.0).toModel = _
    rw [mul_toModel, whole, measures_one.unpacked, mul_one short, rounded_of_short short]
    by_cases zero : k = 0
    · exact .inl (by rw [zero, Nat.zero_mul])
    · exact .inr (Nat.le_trans (by decide) (excess_whole zero))
  · have nonzero : k ≠ 0 := by omega
    rw [dif_neg fun both => fast both.1]
    simp only [Bool.false_eq_true, if_false]
    change Float.ofModel (Float.Model.pack (UnpackedFloat.ofScientific Format.binary64 k 0)) = _
    rw [ofScientific_zero nonzero]

theorem signed_ofUnits (s : Sign) (n : Nat) : Signed s (ofUnits s n) := by
  unfold ofUnits
  split <;> rfl

theorem ofNat_nonneg (k : Nat) : 0.0 ≤ Float.ofNat k := by
  refine nonneg_iff.2 (.inl ?_)
  rw [ofNat_eq_pack]
  exact signed_pack (signed_ofUnits _ _)

theorem ofInt64_nonneg {i : Int64} (h : 0 ≤ i) : 0.0 ≤ ofInt64 i := by
  rw [Int64.le_iff_toInt_le, Int64.toInt_zero] at h
  obtain ⟨k, hk⟩ := Int.eq_ofNat_of_zero_le h
  rw [ofInt64, hk]
  exact ofNat_nonneg k

theorem div_toModel (x y : Float) : (x / y).toModel =
    Float.Model.pack (UnpackedFloat.div Format.binary64 x.toModel.unpack y.toModel.unpack) := rfl

theorem percent_nonneg (h : 0.0 ≤ x) : 0.0 ≤ x / 100.0 := by
  have hundred : (100.0 : Float).toModel.unpack = .finite .positive (25 * 2 ^ 48) (-46) (by decide) := by
    have packed :
        (100.0 : Float) = .ofModel (Float.Model.pack (.finite .positive (25 * 2 ^ 48) (-46) (by decide))) := by
      decide +kernel
    have parts := (measures_of_parts (s := .positive) (m := 25 * 2 ^ 48) (k := 1028) (e := -46) (h := by decide)
      (by decide) (by decide) (by decide) (by decide)).unpacked
    rw [packed, parts, ofUnits_scaled (by decide) (by decide)]
    rfl
  rw [nonneg_iff, div_toModel, hundred]
  rw [nonneg_iff] at h
  cases hx : x.toModel.unpack with
  | notANumber => simp [hx, Signed] at h
  | infinity s =>
    obtain rfl : s = .positive := by simpa [hx, Signed] using h
    exact .inl (signed_pack rfl)
  | zero s =>
    cases s with
    | positive => exact .inl (signed_pack rfl)
    | negative => exact .inr (unpack_pack (n := 0) limit_pos)
  | finite s n f hn =>
    obtain rfl : s = .positive := by simpa [hx, Signed] using h
    exact .inl (signed_pack (signed_round ..))

end TextGrammar.Binary64
