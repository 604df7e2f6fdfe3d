import DecafLex.Binary64.Nearest
import Mathlib.Algebra.Order.Field.Power
import Mathlib.Data.Rat.Cast.Order
import Mathlib.Order.Monotone.Basic
import Mathlib.Tactic.FieldSimp
import Mathlib.Tactic.Linarith
import Mathlib.Tactic.Positivity
import Mathlib.Tactic.Ring

/-! Rounding to the nearest binary number. The patterns of the numbers that are not negative stand
in the order of the numbers, and next to each other they differ by one unit in the last place; so a
number is nearest as soon as its two neighbours lie no nearer. -/
namespace DecafLex.Binary64

def IsFinite (x : Binary64) : Prop := x.magnitude < infinity.magnitude

/-- The rational that a finite number stands for. -/
def value (x : Binary64) : ℚ :=
  (if x.isNegative then -1 else 1) * (x.significand * 2 ^ x.exponent)

/-- Half a unit in the last place above the largest finite number. -/
def overflowBound : ℚ := 2 ^ 1024 - 2 ^ 970

/-- A rational that is not negative is rounded to the nearest finite number, of two that are equally
near to the even one, and to infinity from the bound on. -/
inductive Rounds (q : ℚ) : Binary64 → Prop where
  | overflow (hq : overflowBound ≤ q) : Rounds q infinity
  | nearest (x : Binary64) (hq : q < overflowBound) (hsign : x.isNegative = false)
      (hfinite : x.IsFinite)
      (hnearest : ∀ y : Binary64, y.IsFinite → |q - x.value| ≤ |q - y.value|)
      (heven : ∀ y : Binary64, y.IsFinite → y ≠ x → |q - x.value| = |q - y.value| →
        x.significand % 2 = 0) :
      Rounds q x

/-! ### The grid of binary numbers -/

/-- The number of a pattern without a sign. There is no largest pattern here: infinity counts as the
number that would follow the largest finite one. -/
def gridPoint (n : ℕ) : ℚ :=
  (if n / 2 ^ 52 = 0 then n % 2 ^ 52 else 2 ^ 52 + n % 2 ^ 52 : ℕ) *
    2 ^ (((max (n / 2 ^ 52) 1 : ℕ) : ℤ) - 1075)

/-- All patterns of one exponent, and the first of the next one. -/
theorem gridPoint_add {u e : ℕ} (hu : u ≤ 2 ^ 53) (hnormal : e = 0 ∨ 2 ^ 52 ≤ u) :
    gridPoint (u + e * 2 ^ 52) = u * 2 ^ ((e : ℤ) - 1074) := by
  rw [gridPoint]
  obtain hsub | hkept | hnext : u < 2 ^ 52 ∨ (2 ^ 52 ≤ u ∧ u < 2 ^ 53) ∨ u = 2 ^ 53 := by omega
  · obtain rfl : e = 0 := by omega
    rw [if_pos (by omega), show (u + 0 * 2 ^ 52) % 2 ^ 52 = u by omega,
      show max ((u + 0 * 2 ^ 52) / 2 ^ 52) 1 = 1 by omega]
    norm_num
  · rw [if_neg (by omega), show 2 ^ 52 + (u + e * 2 ^ 52) % 2 ^ 52 = u by omega,
      show max ((u + e * 2 ^ 52) / 2 ^ 52) 1 = e + 1 by omega]
    congr 2
    push_cast
    ring
  · rw [if_neg (by omega), show 2 ^ 52 + (u + e * 2 ^ 52) % 2 ^ 52 = 2 ^ 52 by omega,
      show max ((u + e * 2 ^ 52) / 2 ^ 52) 1 = e + 2 by omega, hnext,
      show ((e + 2 : ℕ) : ℤ) - 1075 = (e : ℤ) - 1074 + 1 by push_cast; ring,
      zpow_add_one₀ two_ne_zero]
    push_cast
    ring

theorem exists_place (n : ℕ) : ∃ u e, n = u + e * 2 ^ 52 ∧ u < 2 ^ 53 ∧ (e = 0 ∨ 2 ^ 52 ≤ u) := by
  by_cases hsub : n < 2 ^ 53
  · exact ⟨n, 0, by omega, hsub, .inl rfl⟩
  · exact ⟨2 ^ 52 + n % 2 ^ 52, n / 2 ^ 52 - 1, by omega, by omega, .inr (by omega)⟩

theorem gridPoint_strictMono : StrictMono gridPoint := by
  refine strictMono_nat_of_lt_succ fun n => ?_
  obtain ⟨u, e, rfl, hu, hnormal⟩ := exists_place n
  rw [gridPoint_add hu.le hnormal, Nat.add_right_comm,
    gridPoint_add (Nat.succ_le_of_lt hu) (hnormal.imp_right Nat.le_succ_of_le)]
  have hunit : (0 : ℚ) < 2 ^ ((e : ℤ) - 1074) := by positivity
  push_cast
  linarith

@[simp] theorem gridPoint_zero : gridPoint 0 = 0 := by
  rw [gridPoint]
  simp

theorem gridPoint_nonneg (n : ℕ) : 0 ≤ gridPoint n :=
  gridPoint_zero ▸ gridPoint_strictMono.monotone n.zero_le

/-! ### The nearest point of the grid -/

/-- No other point is nearer, and one that is as near makes the point even. -/
def IsNearest (q : ℚ) (n : ℕ) : Prop :=
  ∀ m, m ≠ n → |q - gridPoint n| ≤ |q - gridPoint m| ∧
    (|q - gridPoint n| = |q - gridPoint m| → n % 2 = 0)

section
variable {q a b : ℚ}

theorem abs_sub_le_iff_le_midpoint (hab : a < b) : |q - a| ≤ |q - b| ↔ 2 * q ≤ a + b := by
  have hpos : 0 < b - a := sub_pos.mpr hab
  rw [← sq_le_sq, ← sub_nonneg, show (q - b) ^ 2 - (q - a) ^ 2 = (b - a) * (a + b - 2 * q) by ring,
    mul_nonneg_iff_of_pos_left hpos, sub_nonneg]

theorem abs_sub_le_iff_midpoint_le (hab : a < b) : |q - b| ≤ |q - a| ↔ a + b ≤ 2 * q := by
  have hpos : 0 < b - a := sub_pos.mpr hab
  rw [← sq_le_sq, ← sub_nonneg, show (q - a) ^ 2 - (q - b) ^ 2 = (b - a) * (2 * q - (a + b)) by ring,
    mul_nonneg_iff_of_pos_left hpos, sub_nonneg]

theorem abs_sub_eq_iff_midpoint (hab : a < b) : |q - a| = |q - b| ↔ 2 * q = a + b := by
  rw [le_antisymm_iff, le_antisymm_iff, abs_sub_le_iff_le_midpoint hab,
    abs_sub_le_iff_midpoint_le hab]

end

/-- The integer nearest to `r`; of two that are equally near, the even one. -/
structure IsHalfEven (r : ℚ) (u : ℕ) : Prop where
  lower : 2 * u - 1 ≤ 2 * r
  upper : 2 * r ≤ 2 * u + 1
  even : 2 * r = 2 * u - 1 ∨ 2 * r = 2 * u + 1 → u % 2 = 0

section
variable {r : ℚ} {u e m n : ℕ}

theorem IsHalfEven.le_of_lt (h : IsHalfEven r u) (hr : r < n) : u ≤ n := by
  by_contra! hlt
  have hlower := h.lower
  have hlt : (n + 1 : ℚ) ≤ u := by exact_mod_cast hlt
  linarith

theorem IsHalfEven.le_of_le (h : IsHalfEven r u) (hr : n ≤ r) : n ≤ u := by
  by_contra! hlt
  have hupper := h.upper
  have hlt : (u + 1 : ℚ) ≤ n := by exact_mod_cast hlt
  linarith

/-- The next point above a multiple of the unit is at least one unit away. -/
theorem le_gridPoint_of_lt (hu : u ≤ 2 ^ 53) (hnormal : e = 0 ∨ 2 ^ 52 ≤ u)
    (hm : u + e * 2 ^ 52 < m) : (u + 1) * 2 ^ ((e : ℤ) - 1074) ≤ gridPoint m := by
  refine le_trans ?_ (gridPoint_strictMono.monotone (Nat.succ_le_of_lt hm))
  have hunit : (0 : ℚ) < 2 ^ ((e : ℤ) - 1074) := by positivity
  rcases hu.lt_or_eq with hlt | rfl
  · rw [Nat.succ_eq_add_one, Nat.add_right_comm, gridPoint_add hlt (hnormal.imp_right (by omega))]
    push_cast
    rfl
  · -- The next exponent has begun, and its unit is twice as large.
    have hnext : (2 ^ 53 + e * 2 ^ 52).succ = 2 ^ 52 + 1 + (e + 1) * 2 ^ 52 := by omega
    rw [hnext, gridPoint_add (by omega) (.inr (by omega)),
      show ((e + 1 : ℕ) : ℤ) - 1074 = (e : ℤ) - 1074 + 1 by push_cast; ring,
      zpow_add_one₀ two_ne_zero]
    push_cast
    linarith

/-- So is the next point below, unless the exponent begins with the multiple. -/
theorem gridPoint_le_of_lt (hu : u ≤ 2 ^ 53) (hlow : e = 0 ∨ 2 ^ 52 < u) (hm : m < u + e * 2 ^ 52) :
    gridPoint m ≤ (u - 1) * 2 ^ ((e : ℤ) - 1074) := by
  obtain ⟨v, rfl⟩ : ∃ v, u = v + 1 := Nat.exists_eq_succ_of_ne_zero (by omega)
  calc gridPoint m ≤ gridPoint (v + e * 2 ^ 52) :=
        gridPoint_strictMono.monotone (by omega)
    _ = v * 2 ^ ((e : ℤ) - 1074) := gridPoint_add (by omega) (hlow.imp_right (by omega))
    _ = ((v + 1 : ℕ) - 1) * 2 ^ ((e : ℤ) - 1074) := by push_cast; ring

/-- A multiple of the unit in the last place is nearest when its multiplier is the nearest integer.
The finer grid below the least multiple of its exponent is out of reach. -/
theorem IsHalfEven.isNearest (h : IsHalfEven r u) (hr : r < 2 ^ 53) (hfloor : e = 0 ∨ 2 ^ 52 ≤ r) :
    IsNearest (r * 2 ^ ((e : ℤ) - 1074)) (u + e * 2 ^ 52) := by
  have hunit : (0 : ℚ) < 2 ^ ((e : ℤ) - 1074) := by positivity
  have hu : u ≤ 2 ^ 53 := h.le_of_lt (by exact_mod_cast hr)
  have hnormal : e = 0 ∨ 2 ^ 52 ≤ u :=
    hfloor.imp_right fun hle => h.le_of_le (by exact_mod_cast hle)
  have hpoint := gridPoint_add hu hnormal
  have hparity : (u + e * 2 ^ 52) % 2 = u % 2 := by omega
  have hlower := mul_le_mul_of_nonneg_right h.lower hunit.le
  have hupper := mul_le_mul_of_nonneg_right h.upper hunit.le
  intro m hm
  rw [hparity]
  rcases lt_or_gt_of_ne hm with hlt | hgt
  · have hstrict := gridPoint_strictMono hlt
    rw [eq_comm (a := |_ - gridPoint (u + e * 2 ^ 52)|), abs_sub_le_iff_midpoint_le hstrict,
      abs_sub_eq_iff_midpoint hstrict]
    by_cases hlow : e = 0 ∨ 2 ^ 52 < u
    · have hle := gridPoint_le_of_lt hu hlow hlt
      refine ⟨by linarith, fun htie => h.even (.inl ?_)⟩
      exact mul_right_cancel₀ hunit.ne' (by linarith)
    · have hleast : (u : ℚ) = 2 ^ 52 := by exact_mod_cast (by omega : u = 2 ^ 52)
      have hfloor := mul_le_mul_of_nonneg_right (hfloor.resolve_left (by omega)) hunit.le
      rw [hleast] at hpoint
      exact ⟨by linarith, fun htie => by linarith⟩
  · have hstrict := gridPoint_strictMono hgt
    rw [abs_sub_le_iff_le_midpoint hstrict, abs_sub_eq_iff_midpoint hstrict]
    have hle := le_gridPoint_of_lt hu hnormal hgt
    refine ⟨by linarith, fun htie => h.even (.inr ?_)⟩
    exact mul_right_cancel₀ hunit.ne' (by linarith)

end

/-! ### Patterns and their numbers -/

section
variable {x y : Binary64}

theorem significand_mod_two (x : Binary64) : x.significand % 2 = x.magnitude % 2 := by
  rw [significand, fraction, Nat.pow_eq]
  split <;> omega

theorem gridPoint_magnitude (x : Binary64) :
    gridPoint x.magnitude = x.significand * 2 ^ x.exponent := by
  simp [gridPoint, significand, exponent, exponentField, fraction]

theorem value_of_nonneg (h : x.isNegative = false) : x.value = gridPoint x.magnitude := by
  simp [value, h, gridPoint_magnitude]

theorem value_of_isNegative (h : x.isNegative = true) : x.value = -gridPoint x.magnitude := by
  simp [value, h, gridPoint_magnitude]

theorem abs_value (x : Binary64) : |x.value| = gridPoint x.magnitude := by
  cases h : x.isNegative with
  | false => rw [value_of_nonneg h, abs_of_nonneg (gridPoint_nonneg _)]
  | true => rw [value_of_isNegative h, abs_neg, abs_of_nonneg (gridPoint_nonneg _)]

theorem eq_of_magnitude_eq (hx : x.isNegative = false) (hy : y.isNegative = false)
    (h : x.magnitude = y.magnitude) : x = y := by
  simp only [isNegative, magnitude, Nat.pow_eq, decide_eq_false_iff_not] at hx hy h
  have hbits : x.bits.toNat = y.bits.toNat := by omega
  cases x
  cases y
  exact congrArg mk (UInt64.toNat_inj.mp hbits)

/-- The number of a pattern below the sign bit; what lies above infinity is cut off there. -/
def ofPattern (n : ℕ) : Binary64 := ⟨UInt64.ofNat (min n infinity.magnitude)⟩

theorem min_infinity_lt (n : ℕ) : min n infinity.magnitude < 2 ^ 63 :=
  lt_of_le_of_lt (Nat.min_le_right _ _) (by decide)

theorem toNat_ofPattern (n : ℕ) : (ofPattern n).bits.toNat = min n infinity.magnitude :=
  UInt64.toNat_ofNat_of_lt' (lt_trans (min_infinity_lt n) (by decide))

@[simp] theorem isNegative_ofPattern (n : ℕ) : (ofPattern n).isNegative = false := by
  rw [isNegative, toNat_ofPattern, decide_eq_false_iff_not]
  exact Nat.not_le.mpr (min_infinity_lt n)

@[simp] theorem magnitude_ofPattern (n : ℕ) :
    (ofPattern n).magnitude = min n infinity.magnitude := by
  rw [magnitude, toNat_ofPattern]
  exact Nat.mod_eq_of_lt (min_infinity_lt n)

theorem bits_le_of_magnitude_le (hx : x.isNegative = false) (hy : y.isNegative = false)
    (h : x.magnitude ≤ y.magnitude) : x.bits ≤ y.bits := by
  simp only [isNegative, magnitude, Nat.pow_eq, decide_eq_false_iff_not] at hx hy h
  exact UInt64.le_iff_toNat_le.mpr (by omega)

/-- A number lies between two whose patterns are not next to each other. -/
theorem exists_between (hx : x.isNegative = false) (hy : y.isNegative = false) (hfinite : y.IsFinite)
    (h : x.magnitude + 1 < y.magnitude) :
    ∃ z : Binary64, z.IsFinite ∧ x.value < z.value ∧ z.value < y.value := by
  have hlt : x.magnitude + 1 < infinity.magnitude := lt_trans h hfinite
  have hz : (ofPattern (x.magnitude + 1)).magnitude = x.magnitude + 1 := by
    rw [magnitude_ofPattern, Nat.min_eq_left hlt.le]
  refine ⟨ofPattern (x.magnitude + 1), lt_of_eq_of_lt hz hlt, ?_, ?_⟩
  · rw [value_of_nonneg hx, value_of_nonneg (isNegative_ofPattern _), hz]
    exact gridPoint_strictMono (Nat.lt_succ_self _)
  · rw [value_of_nonneg hy, value_of_nonneg (isNegative_ofPattern _), hz]
    exact gridPoint_strictMono h

end

/-! ### Correct rounding -/

section
variable {q q' : ℚ} {n : ℕ} {x x' : Binary64}

theorem two_mul_overflowBound :
    2 * overflowBound = gridPoint (infinity.magnitude - 1) + gridPoint infinity.magnitude := by
  have hlast := gridPoint_add (u := 2 ^ 53 - 1) (e := 2045) (by omega) (.inr (by omega))
  have hnext := gridPoint_add (u := 2 ^ 53) (e := 2045) (by omega) (.inr (by omega))
  rw [show infinity.magnitude - 1 = 2 ^ 53 - 1 + 2045 * 2 ^ 52 from rfl,
    show infinity.magnitude = 2 ^ 53 + 2045 * 2 ^ 52 from rfl, hlast, hnext, overflowBound,
    show ((2045 : ℕ) : ℤ) - 1074 = (971 : ℕ) by norm_num, zpow_natCast,
    show 1024 = 53 + 971 by norm_num, show 971 = 970 + 1 by norm_num]
  generalize (970 : ℕ) = k
  rw [pow_add, pow_succ]
  push_cast
  ring

/-- The nearest point is infinity, or above it, just where the rational is not below the bound. -/
theorem IsNearest.infinity_le_iff (h : IsNearest q n) :
    infinity.magnitude ≤ n ↔ overflowBound ≤ q := by
  have hbound := two_mul_overflowBound
  constructor
  · intro hle
    have hlast : infinity.magnitude - 1 < n := lt_of_lt_of_le (by decide) hle
    have hmid := (abs_sub_le_iff_midpoint_le (gridPoint_strictMono hlast)).mp (h _ hlast.ne).1
    have hmono := gridPoint_strictMono.monotone hle
    linarith
  · intro hq
    by_contra! hlt
    obtain ⟨hnear, heven⟩ := h infinity.magnitude hlt.ne'
    have hmid := (abs_sub_le_iff_le_midpoint (gridPoint_strictMono hlt)).mp hnear
    have hmono := gridPoint_strictMono.monotone (Nat.le_sub_one_of_lt hlt)
    have hlast : gridPoint n = gridPoint (infinity.magnitude - 1) := by linarith
    have htie := heven ((abs_sub_eq_iff_midpoint (gridPoint_strictMono hlt)).mpr (by linarith))
    rw [gridPoint_strictMono.injective hlast] at htie
    exact absurd htie (by decide)

theorem IsNearest.le (h : IsNearest q n) (m : ℕ) : |q - gridPoint n| ≤ |q - gridPoint m| := by
  by_cases hm : m = n
  · rw [hm]
  · exact (h m hm).1

/-- Zero is nearer than any negative number, so only zero can be as near as its negative. -/
theorem IsNearest.eq_zero_of_tie (hq : 0 ≤ q) (h : IsNearest q n)
    (htie : |q - gridPoint n| = |q - -gridPoint n|) : n = 0 := by
  have hzero := h.le 0
  rw [htie, gridPoint_zero, sub_zero, abs_of_nonneg hq, sub_neg_eq_add,
    abs_of_nonneg (add_nonneg hq (gridPoint_nonneg n))] at hzero
  have hpoint : gridPoint n = gridPoint 0 :=
    le_antisymm (by rw [gridPoint_zero]; linarith) (gridPoint_strictMono.monotone n.zero_le)
  exact gridPoint_strictMono.injective hpoint

theorem IsNearest.rounds (hq : 0 ≤ q) (h : IsNearest q n) : Rounds q (ofPattern n) := by
  rcases le_or_gt infinity.magnitude n with hle | hlt
  · have hinf : ofPattern n = infinity := by
      rw [ofPattern, Nat.min_eq_right hle]
      rfl
    exact hinf ▸ .overflow (h.infinity_le_iff.mp hle)
  · have hmagnitude : (ofPattern n).magnitude = n := by
      rw [magnitude_ofPattern, Nat.min_eq_left hlt.le]
    have hvalue : (ofPattern n).value = gridPoint n := by
      rw [value_of_nonneg (isNegative_ofPattern n), hmagnitude]
    -- A negative number lies farther away than its absolute value.
    have habs (y : Binary64) : |q - gridPoint y.magnitude| ≤ |q - y.value| := by
      have := abs_abs_sub_abs_le q y.value
      rwa [abs_of_nonneg hq, abs_value] at this
    refine .nearest _ ?_ (isNegative_ofPattern n) (lt_of_eq_of_lt hmagnitude hlt) ?_ ?_
    · exact not_le.mp fun hbound => hlt.not_ge (h.infinity_le_iff.mpr hbound)
    · intro y _
      rw [hvalue]
      exact (h.le _).trans (habs y)
    · intro y _ hne htie
      rw [hvalue] at htie
      rw [significand_mod_two, hmagnitude]
      by_cases hm : y.magnitude = n
      · have hsign : y.isNegative = true := by
          by_contra hsign
          exact hne (eq_of_magnitude_eq (by simpa using hsign) (isNegative_ofPattern n)
            (hm.trans hmagnitude.symm))
        rw [value_of_isNegative hsign, hm] at htie
        rw [h.eq_zero_of_tie hq htie]
      · exact (h _ hm).2 (le_antisymm (h.le _) (htie ▸ habs y))

theorem Rounds.isNegative (h : Rounds q x) : x.isNegative = false := by
  cases h with
  | overflow => rfl
  | nearest _ _ hsign => exact hsign

/-- Rounding keeps the order. Were it turned round, both rationals would be the midpoint of the two
results, which are even, and a number between them would be nearer. -/
theorem Rounds.magnitude_le (h : Rounds q x) (h' : Rounds q' x') (hle : q ≤ q') :
    x.magnitude ≤ x'.magnitude := by
  cases h' with
  | overflow hq' =>
    cases h with
    | overflow => exact le_rfl
    | nearest _ _ _ hfinite => exact hfinite.le
  | nearest _ hq' hsign' hfinite' hnearest' heven' =>
    cases h with
    | overflow hq => exact absurd (hq.trans hle) (not_le.mpr hq')
    | nearest _ hq hsign hfinite hnearest heven =>
      by_contra! hlt
      have hstrict : x'.value < x.value := by
        rw [value_of_nonneg hsign, value_of_nonneg hsign']
        exact gridPoint_strictMono hlt
      have hmid := (abs_sub_le_iff_midpoint_le hstrict).mp (hnearest x' hfinite')
      have hmid' := (abs_sub_le_iff_le_midpoint hstrict).mp (hnearest' x hfinite)
      have hne : x' ≠ x := fun he => hstrict.ne (congrArg value he)
      have hlow := heven x' hfinite' hne
        ((abs_sub_eq_iff_midpoint hstrict).mpr (by linarith)).symm
      have hlow' := heven' x hfinite hne.symm
        ((abs_sub_eq_iff_midpoint hstrict).mpr (by linarith))
      rw [significand_mod_two] at hlow hlow'
      obtain ⟨y, hy, habove, hbelow⟩ := exists_between hsign' hsign hfinite (by omega)
      have hmidway := (abs_sub_le_iff_midpoint_le hbelow).mp (hnearest y hy)
      linarith

theorem Rounds.bits_le (h : Rounds q x) (h' : Rounds q' x') (hle : q ≤ q') : x.bits ≤ x'.bits :=
  bits_le_of_magnitude_le h.isNegative h'.isNegative (h.magnitude_le h' hle)

theorem Rounds.value_le (h : Rounds q x) (h' : Rounds q' x') (hle : q ≤ q') (hfinite : x'.IsFinite) :
    x.IsFinite ∧ x.value ≤ x'.value := by
  have hmagnitude := h.magnitude_le h' hle
  refine ⟨lt_of_le_of_lt hmagnitude hfinite, ?_⟩
  rw [value_of_nonneg h.isNegative, value_of_nonneg h'.isNegative]
  exact gridPoint_strictMono.monotone hmagnitude

/-- A rational is rounded to one number only. -/
theorem Rounds.unique (h : Rounds q x) (h' : Rounds q x') : x = x' :=
  eq_of_magnitude_eq h.isNegative h'.isNegative
    (le_antisymm (h.magnitude_le h' le_rfl) (h'.magnitude_le h le_rfl))

/-- Up to half the least positive number the result is zero. -/
theorem rounds_zero (hq : 0 ≤ q) (hle : q ≤ 2 ^ (-1075 : ℤ)) : Rounds q ⟨0⟩ := by
  have hunit : (0 : ℚ) < 2 ^ (-1074 : ℤ) := by positivity
  obtain ⟨r, rfl⟩ : ∃ r, q = r * 2 ^ (-1074 : ℤ) := ⟨_, (div_mul_cancel₀ q hunit.ne').symm⟩
  rw [show (-1075 : ℤ) = -1 + -1074 by norm_num, zpow_add₀ two_ne_zero] at hle
  have hr : 0 ≤ r := nonneg_of_mul_nonneg_left hq hunit
  have hhalf : r ≤ 1 / 2 := by simpa using le_of_mul_le_mul_right hle hunit
  have hround : IsHalfEven r 0 :=
    ⟨by norm_num; linarith only [hr], by norm_num; linarith only [hhalf], fun _ => rfl⟩
  have hnearest := hround.isNearest (by linarith only [hhalf]) (.inl rfl)
  rw [Nat.cast_zero, zero_sub] at hnearest
  exact hnearest.rounds hq

end

end DecafLex.Binary64
