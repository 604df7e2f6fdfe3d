/-! Binary floating-point numbers of 64 bits, held as their bit pattern. -/
namespace DecafLex

/-- One sign bit, eleven exponent bits and fifty-two fraction bits, from the top down. -/
structure Binary64 where
  bits : UInt64
deriving DecidableEq, Repr, Inhabited

namespace Binary64

def infinity : Binary64 := ⟨0x7ff0000000000000⟩

def isNegative (x : Binary64) : Bool := decide (Nat.pow 2 63 ≤ x.bits.toNat)

/-- The pattern without its sign; among numbers of one sign it grows with the distance from zero. -/
def magnitude (x : Binary64) : Nat := x.bits.toNat % Nat.pow 2 63

def fraction (x : Binary64) : Nat := x.magnitude % Nat.pow 2 52

def exponentField (x : Binary64) : Nat := x.magnitude / Nat.pow 2 52

def isZero (x : Binary64) : Bool := decide (x.magnitude = 0)

def isInfinite (x : Binary64) : Bool := decide (x.magnitude = infinity.magnitude)

def isNaN (x : Binary64) : Bool := decide (infinity.magnitude < x.magnitude)

/-- A finite number lies `significand · 2 ^ exponent` from zero. -/
def significand (x : Binary64) : Nat :=
  if x.exponentField = 0 then x.fraction else Nat.pow 2 52 + x.fraction

def exponent (x : Binary64) : Int := (max x.exponentField 1 : Nat) - 1075

/-- Equality of numbers: both zeros are one number, and what is not a number differs from itself. -/
def sameNumber (x y : Binary64) : Bool :=
  !x.isNaN && !y.isNaN && (x.bits == y.bits || x.isZero && y.isZero)

end Binary64
end DecafLex
