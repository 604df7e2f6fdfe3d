import DecafLex.Proofs.Binary64.Rounding

/-! The binary number that is computed for a quotient is the quotient correctly rounded. -/
namespace DecafLex.Binary64

variable {num den : ℕ}

theorem roundHalfEven_spec (num : ℕ) (hden : 0 < den) :
    IsHalfEven ((num : ℚ) / den) (roundHalfEven num den) := by
  have hden' : (0 : ℚ) < den := by exact_mod_cast hden
  obtain ⟨t, ht⟩ : ∃ t : ℚ, t * den = (num % den : ℕ) := ⟨_, div_mul_cancel₀ _ hden'.ne'⟩
  have hsplit : (num : ℚ) / den = (num / den : ℕ) + t := by
    rw [div_eq_iff hden'.ne', add_mul, ht]
    exact_mod_cast (Nat.div_add_mod' num den).symm
  have hnonneg : 0 ≤ t := nonneg_of_mul_nonneg_left (ht ▸ Nat.cast_nonneg _) hden'
  have hlt : t < 1 := by
    have hleft : ((num % den : ℕ) : ℚ) < den := by exact_mod_cast Nat.mod_lt num hden
    exact lt_of_mul_lt_mul_right (by rwa [ht, one_mul]) hden'.le
  -- The remainder is compared with half the divisor as `t` with a half.
  have hhalf : 2 * (num % den) < den ↔ 2 * t < 1 := by
    rw [← mul_lt_mul_iff_of_pos_right hden', mul_assoc, ht, one_mul]
    exact_mod_cast Iff.rfl
  have htie : 2 * (num % den) = den ↔ 2 * t = 1 := by
    rw [← mul_left_inj' hden'.ne', mul_assoc, ht, one_mul]
    exact_mod_cast Iff.rfl
  simp only [roundHalfEven, hhalf, htie, hsplit]
  split
  next hdown =>
    have hle : 2 * t ≤ 1 := hdown.elim le_of_lt fun h => h.1.le
    refine ⟨by linarith, by linarith, ?_⟩
    rintro (h | h)
    · linarith
    · exact (hdown.resolve_left (by linarith)).2
  next hup =>
    have hge : 1 ≤ 2 * t := not_lt.mp fun h => hup (.inl h)
    have hcast : ((num / den + 1 : ℕ) : ℚ) = (num / den : ℕ) + 1 := Nat.cast_succ _
    refine ⟨by linarith, by linarith, ?_⟩
    rintro (h | h)
    · have hodd : ¬ num / den % 2 = 0 := fun heven => hup (.inr ⟨by linarith, heven⟩)
      omega
    · linarith

/-- A quotient in the unit of a power of two. -/
theorem scaled_quotient (num den : ℕ) (k : ℤ) :
    ((num * 2 ^ (-k).toNat : ℕ) : ℚ) / (den * 2 ^ k.toNat : ℕ) = num / den / 2 ^ k := by
  obtain ⟨n, rfl | rfl⟩ := k.eq_nat_or_neg
  · rw [Int.toNat_neg_natCast, Int.toNat_natCast, zpow_natCast]
    push_cast
    field_simp
  · rw [neg_neg, Int.toNat_neg_natCast, Int.toNat_natCast, zpow_neg, zpow_natCast]
    push_cast
    field_simp

theorem floorLog2_spec (hnum : 0 < num) (hden : 0 < den) :
    (2 : ℚ) ^ floorLog2 num den ≤ num / den ∧ (num : ℚ) / den < 2 ^ (floorLog2 num den + 1) := by
  have hden' : (0 : ℚ) < den := by exact_mod_cast hden
  have htest (k : ℤ) : den * 2 ^ k.toNat ≤ num * 2 ^ (-k).toNat ↔ (2 : ℚ) ^ k ≤ num / den := by
    have hscaled : (0 : ℚ) < (den * 2 ^ k.toNat : ℕ) := by positivity
    rw [← one_le_div₀ (by positivity : (0 : ℚ) < 2 ^ k), ← scaled_quotient, one_le_div₀ hscaled,
      Nat.cast_le]
  have hnumLow : (2 : ℚ) ^ (num.log2 : ℤ) ≤ num := by
    exact_mod_cast Nat.log2_self_le hnum.ne'
  have hnumHigh : (num : ℚ) < 2 ^ ((num.log2 : ℤ) + 1) := by
    exact_mod_cast Nat.lt_log2_self
  have hdenLow : (2 : ℚ) ^ (den.log2 : ℤ) ≤ den := by
    exact_mod_cast Nat.log2_self_le hden.ne'
  have hdenHigh : (den : ℚ) < 2 ^ ((den.log2 : ℤ) + 1) := by
    exact_mod_cast Nat.lt_log2_self
  simp only [floorLog2, Nat.pow_eq, htest]
  split
  next hle =>
    refine ⟨hle, (div_lt_iff₀ hden').mpr ?_⟩
    calc (num : ℚ) < 2 ^ ((num.log2 : ℤ) + 1) := hnumHigh
      _ = 2 ^ ((num.log2 : ℤ) - den.log2 + 1) * 2 ^ (den.log2 : ℤ) := by
        rw [← zpow_add₀ two_ne_zero]
        ring_nf
      _ ≤ 2 ^ ((num.log2 : ℤ) - den.log2 + 1) * den := by gcongr
  next hgt =>
    rw [sub_add_cancel]
    refine ⟨(le_div_iff₀ hden').mpr ?_, not_le.mp hgt⟩
    calc (2 : ℚ) ^ ((num.log2 : ℤ) - den.log2 - 1) * den
        ≤ 2 ^ ((num.log2 : ℤ) - den.log2 - 1) * 2 ^ ((den.log2 : ℤ) + 1) := by gcongr
      _ = 2 ^ (num.log2 : ℤ) := by
        rw [← zpow_add₀ two_ne_zero]
        ring_nf
      _ ≤ num := hnumLow

/-- In the unit of the last place that is kept a quotient has at most 53 bits, and exactly 53 unless
that place is the lowest of all. -/
theorem lastPlace_spec (hnum : 0 < num) (hden : 0 < den) :
    (num : ℚ) / den / 2 ^ lastPlace num den < 2 ^ 53 ∧
    (lastPlace num den = -1074 ∨ 2 ^ 52 ≤ (num : ℚ) / den / 2 ^ lastPlace num den) := by
  obtain ⟨hlow, hhigh⟩ := floorLog2_spec hnum hden
  rw [lastPlace]
  constructor
  · rw [div_lt_iff₀ (by positivity)]
    calc (num : ℚ) / den < 2 ^ (floorLog2 num den + 1) := hhigh
      _ ≤ 2 ^ (53 + max (floorLog2 num den - 52) (-1074)) :=
        zpow_le_zpow_right₀ one_le_two (by omega)
      _ = 2 ^ 53 * 2 ^ max (floorLog2 num den - 52) (-1074) := by
        rw [zpow_add₀ two_ne_zero]
        rfl
  · rcases le_total (floorLog2 num den - 52) (-1074) with hle | hge
    · exact .inl (max_eq_right hle)
    · refine .inr ((le_div_iff₀ (by positivity)).mpr ?_)
      rw [max_eq_left hge]
      calc (2 : ℚ) ^ 52 * 2 ^ (floorLog2 num den - 52) = 2 ^ floorLog2 num den := by
            rw [← zpow_natCast, ← zpow_add₀ two_ne_zero]
            congr 1
            omega
        _ ≤ num / den := hlow

theorem rounds_nearest (num : ℕ) (hden : 0 < den) : Rounds ((num : ℚ) / den) (nearest num den) := by
  rw [nearest]
  split
  next hzero =>
    subst hzero
    rw [Nat.cast_zero, zero_div]
    exact rounds_zero le_rfl (by positivity)
  next hne =>
    obtain ⟨hbits, hfloor⟩ := lastPlace_spec (Nat.pos_of_ne_zero hne) hden
    obtain ⟨e, he⟩ : ∃ e : ℕ, lastPlace num den = e - 1074 :=
      ⟨(lastPlace num den + 1074).toNat, by simp [lastPlace]; omega⟩
    have hround := roundHalfEven_spec (num * 2 ^ (-lastPlace num den).toNat)
      (Nat.mul_pos hden (Nat.two_pow_pos (lastPlace num den).toNat))
    rw [scaled_quotient, he] at hround
    rw [he] at hbits hfloor
    have hfloor := hfloor.imp_left fun h => show e = 0 by omega
    have hnearest := hround.isNearest hbits hfloor
    rw [div_mul_cancel₀ _ (by positivity)] at hnearest
    have hrounds := hnearest.rounds (by positivity)
    simp only [Nat.pow_eq, he, sub_add_cancel, Int.toNat_natCast]
    exact hrounds

end DecafLex.Binary64
