import AugLag.Decimal.Binary

/-! Rounding of exact magnitudes to a given number of digits or places, to nearest, with ties to even. -/
namespace AugLag

/-- The magnitude `digits * 10 ^ exponent`. -/
structure Decimal where
  digits : Nat
  exponent : Int
deriving DecidableEq, Repr

/-- The natural number nearest to a quotient. -/
def roundQuotient (num den : Nat) : Nat :=
  let q := num / den
  let r := 2 * (num % den)
  if r < den then q else if den < r then q + 1 else q + q % 2

namespace Decimal

/-- Moves trailing zeros of the digits into the exponent, at most `count` of them. -/
def trim : Nat → Decimal → Decimal
  | 0, d => d
  | count + 1, d =>
    if d.digits ≠ 0 ∧ d.digits % 10 = 0 then trim count { digits := d.digits / 10, exponent := d.exponent + 1 }
    else d

end Decimal

namespace Binary

/-- The decimal with `count` significant digits that is nearest to the magnitude. -/
def toSignificant (b : Binary) (count : Nat) : Decimal :=
  if b.mantissa = 0 then { digits := 0, exponent := 1 - count }
  else
    let unit := b.leadingExponent + 1 - count
    let (num, den) := b.quotient unit
    let digits := roundQuotient num den
    if digits = Nat.pow 10 count then { digits := Nat.pow 10 (count - 1), exponent := unit + 1 }
    else { digits, exponent := unit }

/-- The decimal with `places` places after the point that is nearest to the magnitude. -/
def toPlaces (b : Binary) (places : Nat) : Decimal :=
  let (num, den) := b.quotient (-places)
  { digits := roundQuotient num den, exponent := -places }

end Binary
end AugLag
