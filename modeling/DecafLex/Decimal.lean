import DecafLex.Binary64.Nearest
import DecafLex.Numeral

/-! Decimal fractions: reading them, rounding them to binary and writing them in full. -/
namespace DecafLex

/-- Stands for `digits · 10 ^ exponent`. -/
structure Decimal where
  digits : Nat
  exponent : Int
deriving DecidableEq, Repr

namespace Decimal

/-- Reads what follows the fraction: nothing, or `e` or `E`, a sign and at least one digit. -/
def readExponent? : List Char → Option Int
  | [] => some 0
  | mark :: sign :: digits =>
    if (mark = 'e' ∨ mark = 'E') ∧ digits ≠ [] ∧ digits.all Char.isDigit then
      if sign = '+' then some (Numeral.value 10 digits)
      else if sign = '-' then some (-(Numeral.value 10 digits : Int))
      else none
    else none
  | _ => none

/-- Reads at least one digit, a point, digits and an optional signed exponent, with nothing
before or after them. -/
def read? (text : List Char) : Option Decimal :=
  let whole := text.takeWhile Char.isDigit
  match text.dropWhile Char.isDigit with
  | '.' :: rest =>
    let fraction := rest.takeWhile Char.isDigit
    if whole = [] then none
    else (readExponent? (rest.dropWhile Char.isDigit)).map fun exponent =>
      ⟨Numeral.value 10 (whole ++ fraction), exponent - fraction.length⟩
  | _ => none

/-- The nearest binary number. The first tests settle what is far beyond the largest finite number
or far below the smallest one, so the powers of ten taken stay within the size of the digits. -/
def toBinary64 (d : Decimal) : Binary64 :=
  if d.digits = 0 then ⟨0⟩
  else if 309 ≤ d.exponent then .infinity
  else if d.digits.log2 + 1076 ≤ 3 * (-d.exponent).toNat then ⟨0⟩
  else .nearest (d.digits * Nat.pow 10 d.exponent.toNat) (Nat.pow 10 (-d.exponent).toNat)

/-- All digits in their places, with a point only where places follow it. -/
def positional (d : Decimal) : List Char :=
  let places := (-d.exponent).toNat
  let integer := d.digits * Nat.pow 10 d.exponent.toNat
  let digits := (Nat.toDigits 10 integer).leftpad (places + 1) '0'
  let whole := digits.length - places
  if places = 0 then digits else digits.take whole ++ '.' :: digits.drop whole

end Decimal
end DecafLex
