import Mathlib

/-!
# Powers of two

Remainders, multiples and tests that bit operations compute for powers of two.
-/

namespace ZeroEmbedded.Foundation.PowerOfTwo

variable {capacity modulus : Nat}

/-- A mask selects the remainder. -/
theorem and_mask (hpow : ∃ k, capacity = 2 ^ k) (counter : Nat) :
    counter &&& (capacity - 1) = counter % capacity := by
  obtain ⟨k, rfl⟩ := hpow
  exact Nat.and_two_pow_sub_one_eq_mod counter k

/-- The usual test for a power of two. -/
theorem pow_of_and_pred (hpos : capacity ≠ 0) (htest : capacity &&& (capacity - 1) = 0) :
    ∃ k, capacity = 2 ^ k := by
  refine ⟨capacity.log2, ?_⟩
  by_contra hne
  have hle := Nat.log2_self_le hpos
  have hlt := Nat.lt_log2_self (n := capacity)
  -- both operands have the leading bit
  have hbit : ∀ n, 2 ^ capacity.log2 ≤ n → n < 2 ^ (capacity.log2 + 1) →
      n.testBit capacity.log2 = true := by
    intro n hlow hhigh
    rw [Nat.testBit_eq_decide_div_mod_eq, decide_eq_true_eq]
    have hdiv : n / 2 ^ capacity.log2 = 1 := by
      apply Nat.div_eq_of_lt_le
      · rw [Nat.one_mul]
        exact hlow
      · rw [Nat.pow_succ] at hhigh
        omega
    rw [hdiv]
  have hboth : (capacity &&& (capacity - 1)).testBit capacity.log2 = true := by
    rw [Nat.testBit_and, hbit capacity hle hlt, hbit (capacity - 1) (by omega) (by omega)]
    rfl
  rw [htest, Nat.zero_testBit] at hboth
  cases hboth

/-- A mask of high bits clears the low ones. -/
theorem and_high {k w n : Nat} (hk : k ≤ w) (hn : n < 2 ^ w) :
    n &&& (2 ^ w - 1 - (2 ^ k - 1)) = n / 2 ^ k * 2 ^ k := by
  apply Nat.eq_of_testBit_eq
  intro i
  have hpow : 2 ^ k ≤ 2 ^ w := Nat.pow_le_pow_right (by decide) hk
  have hpos := Nat.two_pow_pos k
  rw [Nat.testBit_and, show 2 ^ w - 1 - (2 ^ k - 1) = 2 ^ w - (2 ^ k - 1 + 1) by omega,
    Nat.testBit_two_pow_sub_succ (by omega), Nat.testBit_two_pow_sub_one, Nat.testBit_mul_two_pow,
    Nat.testBit_div_two_pow]
  by_cases hlow : k ≤ i
  · rw [Nat.sub_add_cancel hlow]
    by_cases hhigh : i < w
    · simp [hlow, hhigh]
    · have hzero : n.testBit i = false :=
        Nat.testBit_lt_two_pow (Nat.lt_of_lt_of_le hn (Nat.pow_le_pow_right (by decide) (by omega)))
      simp [hzero]
  · simp [hlow, Nat.lt_of_not_le hlow]

/-- A power of two divides every larger one. -/
theorem dvd_of_lt (hcapacity : ∃ k, capacity = 2 ^ k) (hmodulus : ∃ w, modulus = 2 ^ w)
    (hlt : capacity < modulus) : capacity ∣ modulus := by
  obtain ⟨k, rfl⟩ := hcapacity
  obtain ⟨w, rfl⟩ := hmodulus
  exact Nat.pow_dvd_pow 2 (Nat.le_of_lt ((Nat.pow_lt_pow_iff_right (by decide)).mp hlt))

end ZeroEmbedded.Foundation.PowerOfTwo
