import DecafLex.Binary64.Basic

/-! The number nearest to a quotient of naturals; of two that are equally near, the even one. -/
namespace DecafLex.Binary64

/-- The integer nearest to `num / den`; a half goes to the even neighbour. -/
def roundHalfEven (num den : Nat) : Nat :=
  let down := num / den
  let left := num % den
  if 2 * left < den ∨ 2 * left = den ∧ down % 2 = 0 then down else down + 1

/-- The largest `k` with `2 ^ k ≤ num / den`, both positive. -/
def floorLog2 (num den : Nat) : Int :=
  let k : Int := (num.log2 : Int) - den.log2
  if den * Nat.pow 2 k.toNat ≤ num * Nat.pow 2 (-k).toNat then k else k - 1

/-- The exponent of the last place kept of `num / den`: 53 bits, but none below `2 ^ (-1074)`. -/
def lastPlace (num den : Nat) : Int := max (floorLog2 num den - 52) (-1074)

/-- Rounding up past the last bit pattern of one exponent gives the first of the next, so the
rounded significand is added to the exponent field and not placed beside it. -/
def nearest (num den : Nat) : Binary64 :=
  if num = 0 then ⟨0⟩
  else
    let place := lastPlace num den
    let units :=
      roundHalfEven (num * Nat.pow 2 (-place).toNat) (den * Nat.pow 2 place.toNat)
    ⟨UInt64.ofNat (min (units + (place + 1074).toNat * Nat.pow 2 52) infinity.magnitude)⟩

end DecafLex.Binary64
