import DecafLex.Decimal

/-! The shortest decimal that reads back as a given binary number, and the text of a number. -/
namespace DecafLex.Binary64

/-- The ends of the interval of reals that round to `x`, in quarters of its last place. Below a
power of two the numbers lie twice as dense as above it. -/
def upperEnd (x : Binary64) : Nat := 4 * x.significand + 2

def lowerEnd (x : Binary64) : Nat :=
  4 * x.significand - if x.fraction = 0 ∧ 1 < x.exponentField then 1 else 2

/-- A quarter of the last place of `x`, in a unit of which `10 ^ place` is a multiple too. -/
def quarter (x : Binary64) (place : Int) : Nat :=
  Nat.pow 2 (x.exponent - 2).toNat * Nat.pow 10 (-place).toNat

/-- `10 ^ place` in the unit of `quarter`. -/
def gridStep (x : Binary64) (place : Int) : Nat :=
  Nat.pow 10 place.toNat * Nat.pow 2 (2 - x.exponent).toNat

/-- Whether `digits · 10 ^ place` rounds to `x`; the ends of the interval do when the significand
is even. -/
def readsBack (x : Binary64) (place : Int) (digits : Nat) : Bool :=
  let point := digits * x.gridStep place
  let low := x.lowerEnd * x.quarter place
  let high := x.upperEnd * x.quarter place
  if x.significand % 2 = 0 then decide (low ≤ point ∧ point ≤ high)
  else decide (low < point ∧ point < high)

/-- The multiple of `10 ^ place` that reads back and is nearest to `x`, if there is one; of two
equally near the larger. -/
def onGrid? (x : Binary64) (place : Int) : Option Nat :=
  let value := 4 * x.significand * x.quarter place
  let step := x.gridStep place
  let below := value / step
  match x.readsBack place below, x.readsBack place (below + 1) with
  | true, true =>
    some (if value - below * step < (below + 1) * step - value then below else below + 1)
  | true, false => some below
  | false, true => some (below + 1)
  | false, false => none

/-- A place whose power of ten exceeds `x`. -/
def topPlace (x : Binary64) : Int := (x.significand.log2 + x.exponent) * 30103 / 100000 + 2

/-- All digits of `x`. -/
def exact (x : Binary64) : Decimal :=
  ⟨x.significand * Nat.pow 2 x.exponent.toNat * Nat.pow 5 (-x.exponent).toNat, min x.exponent 0⟩

/-- The coarsest grid that holds a decimal which reads back is the one with the fewest digits;
seventeen digits always suffice. -/
def shortest (x : Binary64) : Decimal :=
  let places := (List.range 22).map fun i => x.topPlace - (i : Nat)
  (places.findSome? fun place => (x.onGrid? place).map (⟨·, place⟩)).getD x.exact

/-- Never an exponent, and no point in a whole number. -/
def text (x : Binary64) : String :=
  if x.isNaN then "NaN"
  else
    let unsigned :=
      if x.isZero then "0"
      else if x.isInfinite then "inf"
      else String.ofList x.shortest.positional
    if x.isNegative then "-" ++ unsigned else unsigned

instance : ToString Binary64 := ⟨text⟩

end DecafLex.Binary64
