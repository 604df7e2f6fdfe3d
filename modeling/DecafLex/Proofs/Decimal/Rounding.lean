import DecafLex.Decimal
import DecafLex.Proofs.Binary64.Nearest

/-! A decimal fraction is correctly rounded, whatever the size of its digits and of its exponent. -/
namespace DecafLex.Decimal

variable {d : Decimal}

/-- The rational that a decimal stands for. -/
def value (d : Decimal) : ℚ := d.digits * 10 ^ d.exponent

theorem value_nonneg (d : Decimal) : 0 ≤ d.value := by
  unfold value
  positivity

theorem value_eq_quotient (d : Decimal) :
    d.value = (d.digits * 10 ^ d.exponent.toNat : ℕ) / (10 ^ (-d.exponent).toNat : ℕ) := by
  rw [value]
  obtain ⟨n, hn | hn⟩ := d.exponent.eq_nat_or_neg
  · rw [hn, Int.toNat_neg_natCast, Int.toNat_natCast, zpow_natCast]
    push_cast
    ring
  · rw [hn, neg_neg, Int.toNat_neg_natCast, Int.toNat_natCast, zpow_neg, zpow_natCast]
    push_cast
    ring

theorem overflowBound_le_value (hdigits : d.digits ≠ 0) (hexponent : 309 ≤ d.exponent) :
    Binary64.overflowBound ≤ d.value := by
  have hpowers : 2 ^ 1024 ≤ 10 ^ 309 := by decide +kernel
  have hone : (1 : ℚ) ≤ d.digits := by exact_mod_cast Nat.one_le_iff_ne_zero.mpr hdigits
  calc Binary64.overflowBound ≤ 2 ^ 1024 := sub_le_self _ (by positivity)
    _ ≤ 10 ^ 309 := by exact_mod_cast hpowers
    _ = 1 * 10 ^ (309 : ℤ) := by rw [one_mul]; rfl
    _ ≤ d.digits * 10 ^ d.exponent := by
      gcongr
      norm_num

/-- Each place after the point takes more than three bits off the digits. -/
theorem value_le_of_log2_le (h : d.digits.log2 + 1076 ≤ 3 * (-d.exponent).toNat) :
    d.value ≤ 2 ^ (-1075 : ℤ) := by
  obtain ⟨n, hn⟩ : ∃ n : ℕ, d.exponent = -n := ⟨(-d.exponent).toNat, by omega⟩
  rw [hn, neg_neg, Int.toNat_natCast] at h
  have hdigits : d.digits * 2 ^ 1075 ≤ 10 ^ n :=
    calc d.digits * 2 ^ 1075 ≤ 2 ^ (d.digits.log2 + 1) * 2 ^ 1075 :=
          Nat.mul_le_mul_right _ Nat.lt_log2_self.le
      _ = 2 ^ (d.digits.log2 + 1076) := (pow_add ..).symm
      _ ≤ 2 ^ (3 * n) := Nat.pow_le_pow_right (by decide) h
      _ = 8 ^ n := pow_mul 2 3 n
      _ ≤ 10 ^ n := Nat.pow_le_pow_left (by decide) n
  rw [value, hn, zpow_neg, zpow_natCast, ← div_eq_mul_inv, div_le_iff₀ (by positivity),
    show (-1075 : ℤ) = -(1075 : ℕ) from rfl, zpow_neg, zpow_natCast, ← div_eq_inv_mul,
    le_div_iff₀ (by positivity)]
  exact_mod_cast hdigits

theorem rounds_toBinary64 (d : Decimal) : Binary64.Rounds d.value d.toBinary64 := by
  rw [toBinary64]
  split_ifs with hzero hlarge hsmall
  · refine Binary64.rounds_zero d.value_nonneg ?_
    rw [value, hzero, Nat.cast_zero, zero_mul]
    positivity
  · exact .overflow (overflowBound_le_value hzero hlarge)
  · exact Binary64.rounds_zero d.value_nonneg (value_le_of_log2_le hsmall)
  · rw [value_eq_quotient]
    exact Binary64.rounds_nearest _ (Nat.pow_pos (by decide))

end DecafLex.Decimal
