import TextGrammar.Proofs.Floats
set_option autoImplicit false

namespace TextGrammar.Binary64
open Float.Model Float.Model.UnpackedFloat

variable {s t : Sign} {m n : Nat} {x y : Float} {a b : Int}

/-- The place of a float in the order of all that are numbers. -/
def Ranks (x : Float) (z : Int) : Prop := Amounts x z ∨ ∃ s, x.toModel.unpack = .infinity s ∧ z = s.apply limit

theorem exists_ranks (h : x.isNaN = false) : ∃ z, Ranks x z := by
  rcases unpack_bits x.toModel.toBits.toBitVec with nothing | ⟨s, endless⟩ | ⟨s, n, finite, short, bounded⟩
  · have unpacked : x.toModel.unpack = .notANumber := nothing
    have nan : x.isNaN = true := congrArg UnpackedFloat.isNaN unpacked
    rw [nan] at h
    cases h
  · exact ⟨_, .inr ⟨s, endless, rfl⟩⟩
  · exact ⟨_, .inl (Measures.mk finite short bounded).amounts⟩

theorem Ranks.le_limit (hx : Ranks x a) : a.natAbs ≤ limit := by
  rcases hx with finite | ⟨s, -, rfl⟩
  · exact Nat.le_of_lt finite.lt_limit
  · rw [natAbs_apply]

theorem Ranks.not_nan (hx : Ranks x a) : x.isNaN = false := by
  change x.toModel.unpack.isNaN = false
  rcases hx with ⟨s, n, finite, -⟩ | ⟨s, endless, -⟩
  · rw [finite.unpacked, ofUnits]
    split <;> rfl
  · rw [endless]
    rfl

theorem compare_limit (h : n < limit) (s t : Sign) :
    (ofUnits s n).compare (.infinity t) = some (compare (s.apply n) (t.apply limit)) ∧
      (UnpackedFloat.infinity t).compare (ofUnits s n) = some (compare (t.apply limit) (s.apply n)) := by
  have size : (s.apply n).natAbs = n := natAbs_apply s n
  have parts : ofUnits s n = .zero s ∨ ∃ m e positive, ofUnits s n = .finite s m e positive := by
    by_cases zero : n = 0
    · exact .inl (by rw [zero, ofUnits_zero])
    · exact .inr ⟨_, _, _, ofUnits_pos s (quotient_pos zero)⟩
  cases t with
  | negative =>
    have low : Sign.negative.apply limit = -limit := rfl
    rw [Int.compare_eq_gt.2 (by omega), Int.compare_eq_lt.2 (by omega)]
    rcases parts with zero | ⟨m, e, positive, finite⟩
    · rw [zero]
      exact ⟨rfl, rfl⟩
    · rw [finite]
      cases s <;> exact ⟨rfl, rfl⟩
  | positive =>
    have high : Sign.positive.apply limit = limit := rfl
    rw [Int.compare_eq_lt.2 (by omega), Int.compare_eq_gt.2 (by omega)]
    rcases parts with zero | ⟨m, e, positive, finite⟩
    · rw [zero]
      exact ⟨rfl, rfl⟩
    · rw [finite]
      cases s <;> exact ⟨rfl, rfl⟩

theorem compare_limits (s t : Sign) :
    (UnpackedFloat.infinity s).compare (.infinity t) = some (compare (s.apply limit) (t.apply limit)) := by
  have positive := limit_pos
  cases s with
  | negative =>
    cases t with
    | negative => exact congrArg some (Int.compare_eq_eq.2 rfl).symm
    | positive => exact congrArg some (Int.compare_eq_lt.2 (by change -(limit : Int) < limit; omega)).symm
  | positive =>
    cases t with
    | negative => exact congrArg some (Int.compare_eq_gt.2 (by change -(limit : Int) < limit; omega)).symm
    | positive => exact congrArg some (Int.compare_eq_eq.2 rfl).symm

theorem Ranks.compare_eq (hx : Ranks x a) (hy : Ranks y b) :
    x.toModel.unpack.compare y.toModel.unpack = some (compare a b) := by
  rcases hx with hx | ⟨s, hx, rfl⟩
  · rcases hy with hy | ⟨t, hy, rfl⟩
    · exact hx.compare_eq hy
    · obtain ⟨s, n, hx, rfl⟩ := hx
      rw [hx.unpacked, hy]
      exact (compare_limit hx.bounded s t).1
  · rcases hy with hy | ⟨t, hy, rfl⟩
    · obtain ⟨t, n, hy, rfl⟩ := hy
      rw [hx, hy.unpacked]
      exact (compare_limit hy.bounded t s).2
    · rw [hx, hy]
      exact compare_limits s t

theorem Ranks.lt_iff (hx : Ranks x a) (hy : Ranks y b) : x < y ↔ a < b := by
  have less : x < y ↔ x.toModel.unpack.lt y.toModel.unpack = true := decide_eq_true_iff
  rw [less, UnpackedFloat.lt, hx.compare_eq hy, ← Int.compare_eq_lt]
  simp

theorem Ranks.le_iff (hx : Ranks x a) (hy : Ranks y b) : x ≤ y ↔ a ≤ b := by
  have most : x ≤ y ↔ x.toModel.unpack.le y.toModel.unpack = true := decide_eq_true_iff
  rw [most, UnpackedFloat.le, hx.compare_eq hy, ← Int.isLE_compare]
  simp

theorem Ranks.beq_iff (hx : Ranks x a) (hy : Ranks y b) : (x == y) = true ↔ a = b := by
  have same : (x == y) = x.toModel.unpack.beq y.toModel.unpack := rfl
  rw [same, UnpackedFloat.beq, hx.compare_eq hy, ← Int.compare_eq_eq]
  simp

theorem Ranks.unique (h : Ranks x a) (h' : Ranks x b) : a = b := by
  have self := h.compare_eq h
  rw [h.compare_eq h', Option.some.injEq, Int.compare_eq_eq.2 (Eq.refl a)] at self
  exact Int.compare_eq_eq.1 self

theorem roundedInt_mono (h : a ≤ b) : roundedInt a ≤ roundedInt b := by
  have value (z : Int) : (z < 0 ∧ roundedInt z = -rounded z.natAbs) ∨ (0 ≤ z ∧ roundedInt z = rounded z.natAbs) := by
    rw [roundedInt, signOf]
    split
    · rename_i negative
      exact .inl ⟨negative, rfl⟩
    · rename_i nonneg
      exact .inr ⟨Int.not_lt.1 nonneg, rfl⟩
  rcases value a with ⟨low, ha⟩ | ⟨high, ha⟩
  · rcases value b with ⟨low', hb⟩ | ⟨high', hb⟩
    · have magnitudes : rounded b.natAbs ≤ rounded a.natAbs := rounded_mono (by omega)
      omega
    · omega
  · rcases value b with ⟨low', hb⟩ | ⟨high', hb⟩
    · omega
    · have magnitudes : rounded a.natAbs ≤ rounded b.natAbs := rounded_mono (by omega)
      omega

def integerRank (n : Int) : Int := roundedInt (n * 2 ^ places)

theorem integerRank_mono (h : a ≤ b) : integerRank a ≤ integerRank b :=
  roundedInt_mono (Int.mul_le_mul_of_nonneg_right h (Int.le_of_lt (Int.pow_pos (by decide))))

theorem natAbs_units (a : Int) : (a * 2 ^ places).natAbs = a.natAbs * 2 ^ places := by
  have two : (2 : Int).natAbs = 2 := rfl
  rw [Int.natAbs_mul, Int.natAbs_pow, two]

theorem integerRank_of_small (h : a.natAbs ≤ 2 ^ 53) : integerRank a = a * 2 ^ places := by
  refine roundedInt_of_short ?_
  rw [natAbs_units]
  exact short_mul h places

theorem rounded_lt_limit (h : n ≤ 2 ^ 63) : rounded (n * 2 ^ places) < limit := by
  have whole : 2 ^ 63 * 2 ^ places = 1 * 2 ^ (63 + places) := by rw [Nat.one_mul, Nat.pow_add]
  have short : Short (2 ^ 63 * 2 ^ places) := by
    rw [whole]
    exact short_mul (by decide) _
  calc
    rounded (n * 2 ^ places) ≤ rounded (2 ^ 63 * 2 ^ places) := rounded_mono (Nat.mul_le_mul_right _ h)
    _ = 2 ^ (63 + places) := by rw [rounded_of_short short, whole, Nat.one_mul]
    _ < 2 ^ (64 + places) := Nat.pow_lt_pow_right (by decide) (by omega)
    _ ≤ limit := pow_le_limit (by decide)

theorem amounts_ofInt (h : a.natAbs ≤ 2 ^ 63) : Amounts (Float.ofInt a) (integerRank a) := by
  have short := short_rounded (a.natAbs * 2 ^ places)
  have bounded := rounded_lt_limit h
  have size := natAbs_units a
  cases a with
  | ofNat n =>
    have sign : signOf (Int.ofNat n * 2 ^ places) = .positive :=
      if_neg (Int.not_lt.2 (Int.mul_nonneg (Int.natCast_nonneg n) (Int.le_of_lt (Int.pow_pos (by decide)))))
    have packed := (measures_pack short bounded .positive).amounts
    rw [integerRank, roundedInt, sign, size]
    rw [← ofNat_eq_pack] at packed
    exact packed
  | negSucc n =>
    have sign : signOf (Int.negSucc n * 2 ^ places) = .negative :=
      if_pos (Int.mul_neg_of_neg_of_pos (Int.negSucc_lt_zero n) (Int.pow_pos (by decide)))
    have magnitude := measures_pack short bounded .positive
    rw [← ofNat_eq_pack] at magnitude
    have packed := (measures_pack short bounded .negative).amounts
    rw [show ofUnits .negative _ = (ofUnits .positive _).neg from (neg_units .positive _).symm, ← magnitude.unpacked]
      at packed
    rw [integerRank, roundedInt, sign, size]
    exact packed

theorem ranks_ofInt64 (n : Int64) : Ranks (ofInt64 n) (integerRank n.toInt) := by
  refine .inl (amounts_ofInt ?_)
  have low := n.le_toInt
  have high := n.toInt_lt
  omega

end TextGrammar.Binary64
