import AugLag.Scalar.Machine

/-! Machine numbers as exact integers: the magnitude of a finite number is a mantissa times a power of two. -/
namespace AugLag

/-- The magnitude `mantissa * 2 ^ exponent`. -/
structure Binary where
  mantissa : Nat
  exponent : Int
  /-- The number below is half as far away as the number above. -/
  narrowBelow : Bool
deriving DecidableEq, Repr

/-- A power of `base`. A negative exponent counts as zero. -/
def Binary.power (base : Nat) (e : Int) : Nat := Nat.pow base e.toNat

namespace BinaryFormat

/-- The sign bit is set. -/
def isNegative (f : BinaryFormat) (bits : Nat) : Bool := bits >>> (f.width - 1) % 2 == 1

/-- The magnitude of the finite number with the given bits. -/
def decode (f : BinaryFormat) (bits : Nat) : Binary :=
  let stored := bits % Nat.pow 2 f.fraction
  let biased := bits >>> f.fraction % Nat.pow 2 (f.width - 1 - f.fraction)
  if biased = 0 then { mantissa := stored, exponent := f.minExponent, narrowBelow := false }
  else
    { mantissa := Nat.pow 2 f.fraction + stored
      exponent := f.minExponent + biased - 1
      narrowBelow := stored = 0 && 1 < biased }

end BinaryFormat

namespace MachineScalar

variable {T : Type} [MachineScalar T]

/-- The sign bit is set, as it is for negative zero. -/
def isNegative (x : T) : Bool := (format T).isNegative (bits x)

/-- The magnitude of a finite number. -/
def magnitude (x : T) : Binary := (format T).decode (bits x)

end MachineScalar

namespace Binary

/-- The quotient of the magnitude and `10 ^ e`, as a numerator and a denominator. -/
def quotient (b : Binary) (e : Int) : Nat × Nat :=
  (b.mantissa * power 2 b.exponent * power 10 (-e), power 2 (-b.exponent) * power 10 e)

/-- The number of decimal digits. Zero has none. -/
def digitCount (n : Nat) : Nat := if n = 0 then 0 else (Nat.toDigits 10 n).length

/-- The exponent of the first decimal digit that is not zero. -/
def leadingExponent (b : Binary) : Int :=
  let (num, den) := b.quotient 0
  if den ≤ num then digitCount (num / den) - 1 else -digitCount ((den - 1) / num)

end Binary
end AugLag
