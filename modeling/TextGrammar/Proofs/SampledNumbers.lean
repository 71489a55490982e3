import TextGrammar.Entropy
set_option autoImplicit false

namespace TextGrammar

namespace Entropy

theorem littleEndian_lt (bs : Bytes) : littleEndian bs < Nat.pow 256 bs.length := by
  induction bs with
  | nil => exact Nat.zero_lt_one
  | cons b bs ih =>
    have hb := b.toNat_lt
    have next : Nat.pow 256 (bs.length + 1) = Nat.pow 256 bs.length * 256 := rfl
    rw [littleEndian, List.length_cons, next]
    omega

theorem word_lt (e : Entropy) : e.word.1 < UInt32.size := by
  have h := littleEndian_lt (e.take 4)
  have hl : Nat.pow 256 (e.take 4).length ≤ Nat.pow 256 4 := Nat.pow_le_pow_right (by decide) (List.length_take_le 4 e)
  exact Nat.lt_of_lt_of_le h hl

theorem integer_toInt {low high : Int64} (h : low ≤ high) (e : Entropy) :
    ∃ r : Nat, r ≤ (high.toInt - low.toInt).toNat ∧ (e.integer low high).1.toInt = low.toInt + r := by
  have hle := Int64.le_iff_toInt_le.1 h
  have hlow := low.le_toInt
  have hhigh := high.toInt_lt
  obtain ⟨r, hr⟩ : ∃ r, r = bigEndian (e.take (byteWidth (high.toInt - low.toInt).toNat)) %
    ((high.toInt - low.toInt).toNat + 1) := ⟨_, rfl⟩
  have hlt : r < (high.toInt - low.toInt).toNat + 1 := by
    rw [hr]
    exact Nat.mod_lt _ (Nat.zero_lt_succ _)
  refine ⟨r, by omega, ?_⟩
  simp only [integer, ← hr]
  exact Int64.toInt_ofInt_of_le (by omega) (by omega)

theorem le_integer {low high : Int64} (h : low ≤ high) (e : Entropy) : low ≤ (e.integer low high).1 := by
  obtain ⟨r, -, hr⟩ := integer_toInt h e
  rw [Int64.le_iff_toInt_le, hr]
  omega

theorem integer_le {low high : Int64} (h : low ≤ high) (e : Entropy) : (e.integer low high).1 ≤ high := by
  obtain ⟨r, hle, hr⟩ := integer_toInt h e
  have := Int64.le_iff_toInt_le.1 h
  rw [Int64.le_iff_toInt_le, hr]
  omega

theorem integer_self (n : Int64) (e : Entropy) : e.integer n n = (n, e) := by
  have hd : (n.toInt - n.toInt).toNat = 0 := by omega
  have hw : byteWidth 0 = 0 := by decide
  simp only [integer, hd, hw, List.take_zero, List.drop_zero, Nat.zero_add, Nat.mod_one, Int.natCast_zero, Int.add_zero,
    Int64.ofInt_toInt]

end Entropy

namespace Machine

theorem counter_toInt {n : Nat} (h : n < UInt32.size) : (Int64.ofNat n).toInt = n :=
  Int64.toInt_ofNat_of_lt (Nat.lt_trans h (by decide))

theorem counter_nonneg {n : Nat} (h : n < UInt32.size) : 0 ≤ Int64.ofNat n := by
  rw [Int64.le_iff_toInt_le, counter_toInt h]
  exact Int.natCast_nonneg n

theorem counter_pos {n : Nat} (h : n + 1 < UInt32.size) : 0 < Int64.ofNat (n + 1) := by
  rw [Int64.lt_iff_toInt_lt, counter_toInt h]
  exact Int.natCast_pos.2 (Nat.succ_pos n)

theorem counter_ne_zero {n : Nat} (h : n + 1 < UInt32.size) : Int64.ofNat (n + 1) ≠ 0 := by
  intro h0
  have := counter_toInt h
  rw [h0] at this
  exact absurd this (by change (0 : Int) ≠ _; omega)

theorem counter_pred (n : Nat) : Int64.ofNat (n + 1) - 1 = Int64.ofNat n := by
  rw [Int64.ofNat_add]
  exact Int64.add_sub_cancel _ _

/-- A drawn number of iterations as a counter. -/
theorem counter_of_integer {n : Nat} (h : n < UInt32.size) (e : Entropy) : ∃ k, k ≤ n ∧
    (e.integer 0 (Int64.ofNat n)).1 = Int64.ofNat k ∧ (e.integer 0 (Int64.ofNat n)).1.toNatClampNeg = k := by
  have h0 := Entropy.le_integer (counter_nonneg h) e
  have hn := Int64.le_iff_toInt_le.1 (Entropy.integer_le (counter_nonneg h) e)
  rw [counter_toInt h] at hn
  refine ⟨_, ?_, (Int64.ofNat_toNatClampNeg _ h0).symm, rfl⟩
  rw [← Int64.toNat_toInt]
  omega

end Machine
end TextGrammar
