import TextGrammar.Proofs.RunDerivations
import TextGrammar.Proofs.Compiled
import TextGrammar.Proofs.FloatProducts
import TextGrammar.Script.Engine
set_option autoImplicit false

/-!
# Ranges of numbers

An integer of a range is between the bounds. A float is taken at one of 2 ^ 32 places between them and is rounded. It is
between the bounds if zero is, or if these are not among the smallest floats that there are. It is no number if the
upper bound is infinite and nothing of it is taken, or both bounds are infinite.
-/
namespace TextGrammar

namespace Binary64
open Float.Model Float.Model.UnpackedFloat

variable {k : Nat} {low high : Float} {a b : Int}

/-- The float that is `k` of 2 ^ 32 steps from one float to another. -/
def mixed (low high : Float) (k : Nat) : Float :=
  let t := Float.ofNat k / 4294967296.0
  low * (1.0 - t) + high * t

def grain : Nat := 2 ^ (places - 32)

theorem unit_eq_grain : 2 ^ places = 2 ^ 32 * grain := by
  have whole : 32 + (places - 32) = places := by decide
  rw [grain, ← Nat.pow_add, whole]

theorem short_grain (h : k ≤ 2 ^ 32) : Short (k * grain) := short_mul (Nat.le_trans h (by decide)) _

theorem grain_le_unit (h : k ≤ 2 ^ 32) : k * grain ≤ 2 ^ places := by
  rw [unit_eq_grain]
  exact Nat.mul_le_mul_right _ h

theorem unit_lt_limit : 2 ^ places < limit :=
  Nat.lt_of_lt_of_le (Nat.pow_lt_pow_right (by decide) (Nat.lt_succ_self _)) (pow_le_limit (by decide))

theorem measures_steps : Measures 4294967296.0 .positive (2 ^ 52 * 2 ^ 1054) := by
  have packed :
      (4294967296.0 : Float) = .ofModel (Float.Model.pack (.finite .positive (2 ^ 52) (-20) (by decide))) := by
    decide +kernel
  rw [packed]
  exact measures_of_parts (by decide) (by decide) (by decide) (by decide)

theorem steps_of_significand {m e : Nat} (h : m * 2 ^ e = k * 2 ^ places) (he : 33 ≤ e) :
    m * 2 * 2 ^ (e - 33) = k * grain := by
  have exponent : 1 + (e - 33) + 32 = e := by omega
  refine Nat.eq_of_mul_eq_mul_right (Nat.two_pow_pos 32) ?_
  calc
    m * 2 * 2 ^ (e - 33) * 2 ^ 32 = m * 2 ^ (1 + (e - 33) + 32) := by
      rw [Nat.pow_add, Nat.pow_add, Nat.pow_one, Nat.mul_assoc, Nat.mul_assoc, Nat.mul_assoc]
    _ = k * 2 ^ places := by rw [exponent, h]
    _ = k * grain * 2 ^ 32 := by rw [unit_eq_grain, Nat.mul_assoc, Nat.mul_comm grain]

theorem div_steps (h : k < 2 ^ 32) : UnpackedFloat.div Format.binary64 (ofUnits .positive (k * 2 ^ places))
    (ofUnits .positive (2 ^ 52 * 2 ^ 1054)) = ofUnits .positive (k * grain) := by
  rw [ofUnits_scaled (k := 1054) (by decide) (.inl (Nat.le_refl _))]
  by_cases none : k = 0
  · rw [none, Nat.zero_mul, Nat.zero_mul]
    rfl
  obtain ⟨n, hn⟩ : ∃ n, n = k * 2 ^ places := ⟨_, rfl⟩
  have some_units : n ≠ 0 := hn ▸ Nat.mul_ne_zero none (Nat.ne_of_gt (Nat.two_pow_pos _))
  have short : Short n := hn ▸ short_mul (Nat.le_of_lt (Nat.lt_trans h (by decide))) places
  have hp := places_eq
  have bits : excess n = k.log2 + places - 52 := by rw [hn, excess, log2_shift none]
  have log := log2_significand some_units short
  have log_units : n.log2 = k.log2 + places := by rw [hn, log2_shift none]
  have log_steps : (2 ^ 52 : Nat).log2 = 52 := Nat.log2_two_pow
  have pos := quotient_pos some_units
  have full : 2 ^ 52 ≤ n / 2 ^ excess n := le_quotient (by omega)
  have whole := steps_of_significand (by rw [Nat.div_mul_cancel short, hn]) (show 33 ≤ excess n by omega)
  rw [← hn, ofUnits_pos _ pos]
  generalize n / 2 ^ excess n = m at log pos full whole
  -- the quotient is formed with one bit more than a significand has, and that bit is zero
  have grid : min ((excess n - 1074 : Int) - ((1054 : Nat) - 1074)) (Format.binary64.targetExponent
      (totalExponent m (excess n - 1074) - totalExponent (2 ^ 52) ((1054 : Nat) - 1074))) =
      (excess n - 33 : Nat) - 1074 := by
    rw [targetExponent_sub, log_steps]
    omega
  have amount : ((excess n - 1074 : Int) - ((1054 : Nat) - 1074) - ((excess n - 33 : Nat) - 1074)).toNat = 53 := by
    omega
  have quotient : m * 2 ^ 53 / 2 ^ 52 = m * 2 := by omega
  have rest : m * 2 ^ 53 % 2 ^ 52 = 0 := by omega
  simp only [UnpackedFloat.div, divCore, grid, amount, Nat.shiftLeft_eq, quotient, rest]
  have room : excess n - 33 ≤ excess (m * 2 * 2 ^ (excess n - 33)) := by
    refine le_excess ?_
    rw [Nat.pow_add]
    exact Nat.mul_le_mul_right _ (by omega)
  have exactly := roundWithAccuracy_exact .positive (show m * 2 ≠ 0 by omega) room
  rw [whole, rounded_of_short (short_grain (Nat.le_of_lt h))] at exactly
  exact exactly

theorem amounts_place (h : k < 2 ^ 32) : Amounts (Float.ofNat k / 4294967296.0) (k * grain : Nat) := by
  have short : Short (k * 2 ^ places) := short_mul (Nat.le_of_lt (Nat.lt_trans h (by decide))) places
  have whole : (Float.ofNat k).toModel.unpack = ofUnits .positive (k * 2 ^ places) := by
    rw [ofNat_eq_pack, rounded_of_short short]
    exact unpack_pack (scaled_lt (Nat.lt_trans h (by decide)) (by decide))
  have fits := Nat.lt_of_le_of_lt (grain_le_unit (Nat.le_of_lt h)) unit_lt_limit
  have packed := measures_pack (short_grain (Nat.le_of_lt h)) fits .positive
  rw [← div_steps h, ← whole, ← measures_steps.unpacked] at packed
  exact packed.amounts

theorem amounts_rest (h : k < 2 ^ 32) :
    Amounts (1.0 - Float.ofNat k / 4294967296.0) ((2 ^ 32 - k) * grain : Nat) := by
  have one : Amounts 1.0 (2 ^ places : Nat) := by
    have measured := measures_one.amounts
    rwa [pow_mul_pow (by decide : 52 + 1022 = places)] at measured
  have difference : ((2 ^ places : Nat) : Int) - (k * grain : Nat) = ((2 ^ 32 - k) * grain : Nat) := by
    rw [unit_eq_grain, Nat.sub_mul]
    have := Nat.mul_le_mul_right grain (Nat.le_of_lt h)
    omega
  have short : Short (((2 ^ 32 - k) * grain : Nat) : Int).natAbs := short_grain (Nat.sub_le _ _)
  have rest := one.sub (amounts_place h)
  rw [difference, roundedInt_of_short short] at rest
  refine rest ?_
  rw [rounded_of_short short]
  exact Nat.lt_of_le_of_lt (grain_le_unit (Nat.sub_le _ _)) unit_lt_limit

theorem steps_sum (h : k ≤ 2 ^ 32) : (2 ^ 32 - k) * grain + k * grain = 2 ^ places := by
  rw [← Nat.add_mul, Nat.sub_add_cancel h, unit_eq_grain]

theorem steps_cases (k : Nat) : k * grain = 0 ∨ grain ≤ k * grain := by
  by_cases none : k = 0
  · exact .inl (by rw [none, Nat.zero_mul])
  · exact .inr (Nat.le_mul_of_pos_left _ (Nat.pos_of_ne_zero none))

theorem steps_room (k : Nat) : k * grain = 0 ∨ excess (k * grain) ≠ 0 := by
  have room : 2 ^ (52 + 1) ≤ grain := Nat.pow_le_pow_right (by decide) (by decide)
  refine (steps_cases k).imp_right fun large => ?_
  have := le_excess (Nat.le_trans room large)
  omega

def mean (a b : Int) (k : Nat) : Int := roundedInt (part a ((2 ^ 32 - k) * grain) + part b (k * grain))

theorem amounts_mixed (ha : Amounts low a) (hb : Amounts high b) (h : k < 2 ^ 32)
    (bounded : (mean a b k).natAbs < limit) : Amounts (mixed low high k) (mean a b k) := by
  have first := ha.mul (amounts_rest h) (steps_room _) (grain_le_unit (Nat.sub_le _ _))
  have second := hb.mul (amounts_place h) (steps_room _) (grain_le_unit (Nat.le_of_lt h))
  refine first.add second ?_
  rwa [mean, roundedInt, natAbs_apply] at bounded

theorem part_of_nonneg (h : 0 ≤ a) (n : Nat) : part a n = roundedQuotient (a.natAbs * n) places := by
  rw [part, signOf, if_neg (Int.not_lt.2 h)]
  rfl

theorem part_of_nonpos (h : a ≤ 0) (n : Nat) : part a n = -roundedQuotient (a.natAbs * n) places := by
  rcases Int.lt_or_eq_of_le h with negative | rfl
  · rw [part, signOf, if_pos negative]
    rfl
  · rw [part, Int.natAbs_zero, Nat.zero_mul, zero_roundedQuotient]
    rfl

theorem roundedInt_neg (n : Nat) : roundedInt (-(n : Int)) = -(rounded n : Int) := by
  by_cases none : n = 0
  · rw [none]
    decide
  · rw [roundedInt, signOf, if_pos (by omega), Int.natAbs_neg, Int.natAbs_natCast]
    rfl

/-- Bounds with zero between them, bounds of which one is well above the smallest floats, or bounds of the least
exponent. -/
def Roomy (a b : Int) : Prop :=
  a ≤ 0 ∧ 0 ≤ b ∨ 2 ^ 85 ≤ max a.natAbs b.natAbs ∨ max a.natAbs b.natAbs < 2 ^ 53

theorem mean_bounds (ha : Short a.natAbs) (hb : Short b.natAbs) (less : a < b) (h : k < 2 ^ 32) (roomy : Roomy a b) :
    a ≤ mean a b k ∧ mean a b k ≤ b := by
  have sum := steps_sum (Nat.le_of_lt h)
  rw [mean]
  by_cases apart : a ≤ 0 ∧ 0 ≤ b
  · -- each product is between its bound and zero
    have low := roundedQuotient_le ha (show (2 ^ 32 - k) * grain ≤ 2 ^ places by omega)
    have high := roundedQuotient_le hb (show k * grain ≤ 2 ^ places by omega)
    rw [part_of_nonpos apart.1, part_of_nonneg apart.2]
    generalize roundedQuotient (a.natAbs * ((2 ^ 32 - k) * grain)) places = m at low
    generalize roundedQuotient (b.natAbs * (k * grain)) places = n at high
    have lower := roundedInt_mono (show a ≤ -(m : Int) + n by omega)
    have upper := roundedInt_mono (show -(m : Int) + n ≤ b by omega)
    rw [roundedInt_of_short ha] at lower
    rw [roundedInt_of_short hb] at upper
    exact ⟨lower, upper⟩
  have size := roomy.resolve_left apart
  rcases Int.lt_or_le a 0 with negative | positive
  · have between := mean_between hb ha (by omega) unit_eq_grain (by rwa [Nat.add_comm] at sum) (steps_cases k)
      (steps_cases (2 ^ 32 - k)) (by omega)
    rw [part_of_nonpos (Int.le_of_lt negative), part_of_nonpos (by omega), ← Int.neg_add, ← Int.natCast_add,
      roundedInt_neg, Nat.add_comm]
    omega
  · have between := mean_between ha hb (by omega) unit_eq_grain sum (steps_cases (2 ^ 32 - k)) (steps_cases k)
      (by omega)
    rw [part_of_nonneg positive, part_of_nonneg (by omega), ← Int.natCast_add, roundedInt_natCast]
    omega

theorem mean_lt_limit (ha : Amounts low a) (hb : Amounts high b) (less : a < b) (h : k < 2 ^ 32) :
    (mean a b k).natAbs < limit := by
  have low_limit := ha.lt_limit
  have high_limit := hb.lt_limit
  by_cases roomy : Roomy a b
  · have between := mean_bounds ha.short hb.short less h roomy
    omega
  · -- the bounds are far from the greatest float
    have small : a.natAbs < 2 ^ 85 ∧ b.natAbs < 2 ^ 85 := by
      unfold Roomy at roomy
      omega
    have sum := steps_sum (Nat.le_of_lt h)
    have first := roundedQuotient_le ha.short (show (2 ^ 32 - k) * grain ≤ 2 ^ places by omega)
    have second := roundedQuotient_le hb.short (show k * grain ≤ 2 ^ places by omega)
    rw [mean, roundedInt, natAbs_apply]
    refine Nat.lt_of_le_of_lt (rounded_mono (n := 2 ^ 86) ?_) ?_
    · have size := Int.natAbs_add_le (part a ((2 ^ 32 - k) * grain)) (part b (k * grain))
      rw [part, part, natAbs_apply, natAbs_apply] at size
      rw [part, part]
      omega
    · rw [rounded_two_pow]
      exact Nat.lt_of_lt_of_le (Nat.pow_lt_pow_right (by decide) (Nat.lt_succ_self _)) (pow_le_limit (by decide))

theorem unpack_of_pos {x : Float} (hx : Amounts x a) (h : 0 < a) :
    ∃ m e positive, x.toModel.unpack = .finite .positive m e positive := by
  obtain ⟨s, n, hx, rfl⟩ := hx
  cases s with
  | negative =>
    change 0 < -(n : Int) at h
    omega
  | positive =>
    have some_units : n ≠ 0 := by
      change 0 < (n : Int) at h
      omega
    exact ⟨_, _, _, hx.unpacked.trans (ofUnits_pos _ (quotient_pos some_units))⟩

theorem unpack_of_zero {x : Float} (hx : Amounts x 0) : ∃ s, x.toModel.unpack = .zero s := by
  obtain ⟨s, n, hx, value⟩ := hx
  obtain rfl : n = 0 := by
    have size := natAbs_apply s n
    omega
  exact ⟨s, hx.unpacked⟩

theorem unpack_pack_nan : (Float.Model.pack .notANumber).unpack = .notANumber := rfl

/-- The upper bound is infinite, and nothing of it is taken, or the lower bound is infinite as well. -/
def Indeterminate (low high : Float) (k : Nat) : Prop :=
  high.toModel.unpack = .infinity .positive ∧ (low.toModel.unpack = .infinity .negative ∨ k = 0)

theorem unpack_rest (h : k < 2 ^ 32) : ∃ m e positive,
    (1.0 - Float.ofNat k / 4294967296.0).toModel.unpack = .finite .positive m e positive := by
  refine unpack_of_pos (amounts_rest h) ?_
  have positive : 0 < (2 ^ 32 - k) * grain := Nat.mul_pos (by omega) (Nat.two_pow_pos _)
  omega

theorem unpack_place (h : k < 2 ^ 32) (some : k ≠ 0) : ∃ m e positive,
    (Float.ofNat k / 4294967296.0).toModel.unpack = .finite .positive m e positive := by
  refine unpack_of_pos (amounts_place h) ?_
  have positive : 0 < k * grain := Nat.mul_pos (Nat.pos_of_ne_zero some) (Nat.two_pow_pos _)
  omega

theorem unpack_low_product (hl : low.toModel.unpack = .infinity .negative) (h : k < 2 ^ 32) :
    (low * (1.0 - Float.ofNat k / 4294967296.0)).toModel.unpack = .infinity .negative := by
  obtain ⟨m, e, positive, rest⟩ := unpack_rest h
  rw [mul_toModel, hl, rest]
  exact unpack_packedInfinity .negative

theorem unpack_high_product (hh : high.toModel.unpack = .infinity .positive) (h : k < 2 ^ 32) :
    (high * (Float.ofNat k / 4294967296.0)).toModel.unpack = if k = 0 then .notANumber else .infinity .positive := by
  rw [mul_toModel, hh]
  split
  · rename_i none
    have zero := amounts_place h
    rw [none, Nat.zero_mul] at zero
    obtain ⟨s, zero⟩ := unpack_of_zero zero
    rw [none, zero]
    exact unpack_pack_nan
  · rename_i some
    obtain ⟨m, e, positive, place⟩ := unpack_place h some
    rw [place]
    exact unpack_packedInfinity .positive

theorem add_nan (u : UnpackedFloat) : UnpackedFloat.add Format.binary64 u .notANumber = .notANumber := by
  cases u <;> rfl

theorem add_endless {x : Float} (hx : Amounts x a) (s : Sign) :
    UnpackedFloat.add Format.binary64 x.toModel.unpack (.infinity s) = .infinity s ∧
      UnpackedFloat.add Format.binary64 (.infinity s) x.toModel.unpack = .infinity s := by
  obtain ⟨t, n, hx, -⟩ := hx
  rw [hx.unpacked, ofUnits]
  split <;> exact ⟨rfl, rfl⟩

theorem unpack_indeterminate (h : k < 2 ^ 32) (indeterminate : Indeterminate low high k) :
    (mixed low high k).toModel.unpack = .notANumber := by
  obtain ⟨hh, cause⟩ := indeterminate
  have second := unpack_high_product hh h
  rw [mixed, add_toModel, second]
  split
  · rw [add_nan]
    exact unpack_pack_nan
  · rename_i some
    rw [unpack_low_product (cause.resolve_right some) h]
    exact unpack_pack_nan

theorem Ranks.lower (ha : Ranks low a) (hb : Ranks high b) (less : a < b) :
    Amounts low a ∨ low.toModel.unpack = .infinity .negative ∧ a = -limit := by
  have most := hb.le_limit
  rcases ha with finite | ⟨s, endless, rfl⟩
  · exact .inl finite
  · cases s with
    | negative => exact .inr ⟨endless, rfl⟩
    | positive =>
      change (limit : Int) < b at less
      omega

theorem Ranks.upper (ha : Ranks low a) (hb : Ranks high b) (less : a < b) :
    Amounts high b ∨ high.toModel.unpack = .infinity .positive ∧ b = limit := by
  have most := ha.le_limit
  rcases hb with finite | ⟨s, endless, rfl⟩
  · exact .inl finite
  · cases s with
    | positive => exact .inr ⟨endless, rfl⟩
    | negative =>
      change a < -(limit : Int) at less
      omega

/-- A float between other bounds is a number. -/
theorem ranks_mixed (ha : Ranks low a) (hb : Ranks high b) (less : a < b) (h : k < 2 ^ 32)
    (determinate : ¬ Indeterminate low high k) :
    ∃ c, Ranks (mixed low high k) c ∧ (Roomy a b → a ≤ c ∧ c ≤ b) := by
  rcases ha.lower hb less with finite | ⟨hl, low_end⟩
  · rcases ha.upper hb less with finite' | ⟨hh, high_end⟩
    · refine ⟨mean a b k, .inl (amounts_mixed finite finite' h (mean_lt_limit finite finite' less h)), fun roomy => ?_⟩
      exact mean_bounds finite.short finite'.short less h roomy
    · have some : k ≠ 0 := fun none => determinate ⟨hh, .inr none⟩
      have first := finite.mul (amounts_rest h) (steps_room _) (grain_le_unit (Nat.sub_le _ _))
      refine ⟨limit, .inr ⟨.positive, ?_, rfl⟩, fun _ => ⟨by omega, by omega⟩⟩
      rw [mixed, add_toModel, unpack_high_product hh h, if_neg some, (add_endless first _).1]
      exact unpack_packedInfinity .positive
  · rcases ha.upper hb less with finite' | ⟨hh, -⟩
    · have second := finite'.mul (amounts_place h) (steps_room _) (grain_le_unit (Nat.le_of_lt h))
      refine ⟨-limit, .inr ⟨.negative, ?_, rfl⟩, fun _ => ⟨by omega, by omega⟩⟩
      rw [mixed, add_toModel, unpack_low_product hl h, (add_endless second _).2]
      exact unpack_packedInfinity .negative
    · exact absurd ⟨hh, .inl hl⟩ determinate

theorem isNaN_mixed_iff (ha : Ranks low a) (hb : Ranks high b) (less : a < b) (h : k < 2 ^ 32) :
    (mixed low high k).isNaN = true ↔ Indeterminate low high k := by
  constructor
  · intro nan
    by_contra determinate
    obtain ⟨c, ranked, -⟩ := ranks_mixed ha hb less h determinate
    rw [ranked.not_nan] at nan
    cases nan
  · intro indeterminate
    exact congrArg UnpackedFloat.isNaN (unpack_indeterminate h indeterminate)

theorem mixed_between (ha : Ranks low a) (hb : Ranks high b) (less : a < b) (h : k < 2 ^ 32)
    (determinate : ¬ Indeterminate low high k) (roomy : Roomy a b) :
    low ≤ mixed low high k ∧ mixed low high k ≤ high := by
  obtain ⟨c, ranked, between⟩ := ranks_mixed ha hb less h determinate
  rw [ha.le_iff ranked, ranked.le_iff hb]
  exact between roomy

/-- Among the smallest floats, a float between two neighbours can be less than both. -/
theorem mixed_below_neighbours : mixed (.ofBits 0x002fffffffffffeb) (.ofBits 0x002fffffffffffec) 67108863 <
    .ofBits 0x002fffffffffffeb := by
  decide +kernel

end Binary64

namespace Grammar
open Binary64

variable {low high : Number} {text : String}

/-- Two integers, or two floats that all floats of the range are between. -/
def Number.Bounding : Number → Number → Prop
  | .int _, .int _ => True
  | low, high => ∃ a b, Ranks low.toFloat a ∧ Amounts high.toFloat b ∧ Roomy a b

theorem sampled_floats {x y : Float} {a b : Int} (hx : Ranks x a) (hy : Amounts y b) (roomy : Roomy a b)
    (h : Sampled (if y < x then .empty else if x == y then .single (Decimal.valueText x) else .floats x y) text) :
    ∃ z : Float, text = Decimal.valueText z ∧ z.isNaN = false ∧ ¬ z < x ∧ ¬ y < z := by
  have ranked : Ranks y b := .inl hy
  split at h
  · cases h
  rename_i ordered
  rw [ranked.lt_iff hx] at ordered
  split at h
  · rename_i same
    rw [hx.beq_iff ranked] at same
    cases h
    refine ⟨x, rfl, hx.not_nan, ?_, ?_⟩
    · rw [hx.lt_iff hx]
      omega
    · rw [ranked.lt_iff hx]
      omega
  · rename_i other
    rw [hx.beq_iff ranked] at other
    cases h with
    | @float low high t k lt ht =>
      subst ht
      have less : a < b := by omega
      have determinate : ¬ Indeterminate x y k := fun indeterminate => by
        obtain ⟨s, n, finite, -⟩ := hy
        have endless := indeterminate.1
        rw [finite.unpacked, ofUnits] at endless
        split at endless <;> cases endless
      obtain ⟨c, ranked', between⟩ := ranks_mixed hx ranked less lt determinate
      obtain ⟨above, below⟩ := between roomy
      refine ⟨mixed x y k, rfl, ranked'.not_nan, ?_, ?_⟩
      · rw [ranked'.lt_iff hx]
        omega
      · rw [ranked.lt_iff ranked']
        omega

/-- Every number of a range is between its bounds. -/
theorem sampled_between (bounds : low.Bounding high) (h : Sampled (span low high) text) :
    ∃ x : Number, text = x.text ∧ x.toFloat.isNaN = false ∧ low.AtMost x ∧ x.AtMost high := by
  cases low with
  | float x =>
    obtain ⟨a, b, hx, hy, roomy⟩ := bounds
    obtain ⟨z, rfl, number, above, below⟩ := sampled_floats hx hy roomy h
    exact ⟨.float z, rfl, number, above, below⟩
  | int m =>
    cases high with
    | float y =>
      obtain ⟨a, b, hx, hy, roomy⟩ := bounds
      obtain ⟨z, rfl, number, above, below⟩ := sampled_floats hx hy roomy h
      exact ⟨.float z, rfl, number, above, below⟩
    | int n =>
      have whole (i : Int64) : (Number.int i).toFloat.isNaN = false := (ranks_ofInt64 i).not_nan
      rw [span] at h
      split at h
      · cases h
      rename_i ordered
      split at h
      · rename_i same
        cases h
        exact ⟨.int m, rfl, whole m, Int64.le_refl m, same ▸ Int64.le_refl m⟩
      · cases h with
        | int le ge => exact ⟨.int _, rfl, whole _, le, ge⟩

end Grammar

namespace Meaning
open Grammar

variable {σ ε : Type} [Sink σ]

/-- A range that is accepted writes a number between its bounds, whatever the entropy. -/
theorem writeNumber_between {low high : Number} (accepted : low.AtMost high) (bounds : low.Bounding high)
    (w : World σ ε) : ∃ x entropy, w.writeNumber (span low high) = { w with entropy := entropy }.write x.text ∧
      x.toFloat.isNaN = false ∧ low.AtMost x ∧ x.AtMost high := by
  have some_number : (span low high).isEmpty = false := by
    rw [← Bool.not_eq_true, span_isEmpty, not_not]
    exact accepted
  obtain ⟨text, entropy, written, sampled⟩ := exists_sampled some_number w
  obtain ⟨x, rfl, between⟩ := sampled_between bounds sampled
  exact ⟨x, entropy, written, between⟩

end Meaning

/-- A range without an end writes what is no number if there is no entropy. -/
theorem endless_range_writes : ∃ p s, Program.compile "r = 0.0...1e999 ;" = .ok p ∧
    Machine.run p 40 (Machine.initial p none ([] : Bytes) Script.Engine.empty []) = some ⟨.ok true, s⟩ ∧
    s.sink = Utf8.ofString "NaN" :=
  Program.exists_run (by decide +kernel)

end TextGrammar
