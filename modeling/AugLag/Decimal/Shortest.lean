import AugLag.Decimal.Round

/-! The shortest decimal that reads back to a machine number, and of several the nearest. -/
namespace AugLag.Binary

/-- Compares `a * 10 ^ i` with `n * 2 ^ j`. -/
def compareDecimal (a : Nat) (i : Int) (n : Nat) (j : Int) : Ordering :=
  compare (a * power 10 i * power 2 (-j)) (n * power 2 j * power 10 (-i))

/-- The decimal lies among the reals that round to the magnitude. They reach half way to the neighbours; the ends
belong to them if the mantissa is even. -/
def readsBack (b : Binary) (d : Decimal) : Bool :=
  let low := if b.narrowBelow then 4 * b.mantissa - 1 else 4 * b.mantissa - 2
  let high := 4 * b.mantissa + 2
  let closed := b.mantissa % 2 == 0
  let above := compareDecimal d.digits d.exponent low (b.exponent - 2)
  let below := compareDecimal d.digits d.exponent high (b.exponent - 2)
  (above == .gt || (closed && above == .eq)) && (below == .lt || (closed && below == .eq))

/-- The nearest decimal with `count` digits that reads back. -/
def candidate? (b : Binary) (count : Nat) : Option Decimal :=
  let unit := b.leadingExponent + 1 - count
  let (num, den) := b.quotient unit
  let lower : Decimal := { digits := num / den, exponent := unit }
  let upper : Decimal := { digits := num / den + 1, exponent := unit }
  match b.readsBack lower, b.readsBack upper with
  | true, true => some (if roundQuotient num den = lower.digits then lower else upper)
  | true, false => some lower
  | false, true => some upper
  | false, false => none

/-- Seventeen digits identify every number of either width. -/
def maxDigits : Nat := 17

/-- The shortest decimal that reads back. -/
def shortest (b : Binary) : Decimal :=
  if b.mantissa = 0 then { digits := 0, exponent := 0 }
  else
    match (List.range maxDigits).findSome? fun k => b.candidate? (k + 1) with
    | some d => d.trim maxDigits
    | none => b.toSignificant maxDigits

end AugLag.Binary
