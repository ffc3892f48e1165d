import AugLag.Decimal.Notation
import AugLag.Decimal.Shortest
import AugLag.Json.Reader

/-! Numbers as JSON. A number is written with the fewest digits that read back to it. -/
namespace AugLag.Json

/-- Numbers that can be written as JSON and read back. -/
class Numeral (T : Type) where
  /-- The text of a number; what is not finite has none of its own. -/
  write : T → List Char
  /-- The number nearest to a literal. `none` if it is too large. -/
  ofLiteral? : Literal → Option T

namespace Literal

/-- A literal with an exponent beyond these is zero or too large at double width. -/
def exponentRange : Int := 400

/-- The double nearest to a literal. -/
def toDouble? (n : Literal) : Option Float :=
  let leading := n.exponent + Binary.digitCount n.digits
  let size : Float :=
    if n.digits = 0 || leading < -exponentRange then 0
    else if exponentRange < leading then Scalar.infinity
    else Float.ofScientific n.digits (n.exponent < 0) n.exponent.natAbs
  if size.isFinite then some (if n.negative then -size else size) else none

/-- A whole number that fits into 64 bits, with a sign if it is negative. -/
def isWord (n : Literal) : Bool :=
  n.whole && (if n.negative then n.digits ≤ UInt64.size / 2 else n.digits < UInt64.size)

/-- The single nearest to a literal. A literal that is no word is read at double width first. -/
def toSingle? (n : Literal) : Option Float32 :=
  if n.isWord then
    let size := Float32.ofNat n.digits
    some (if n.negative then -size else size)
  else n.toDouble?.map Float.toFloat32

end Literal

/-- The exponents of the first digit for which positional notation is used. -/
structure PositionalRange where
  least : Int
  most : Int

/-- Exponents have a sign and no padding. -/
def exponentStyle : Decimal.ExponentStyle := { plus := true, width := 1 }

/-- The text of a decimal. In positional notation a whole number ends in a zero behind the point. -/
def decimalText (range : PositionalRange) (d : Decimal) : List Char :=
  let leading := d.exponent + d.digitText.length - 1
  if range.least ≤ leading && leading ≤ range.most then
    d.positional ++ if 0 ≤ d.exponent then ['.', '0'] else []
  else d.scientific exponentStyle 1

/-- The text of a machine number. -/
def machineText {T : Type} [MachineScalar T] (range : PositionalRange) (x : T) : List Char :=
  if Scalar.isFinite x then
    (if MachineScalar.isNegative x then ['-'] else []) ++
      decimalText range (MachineScalar.magnitude x).shortest
  else ['n', 'u', 'l', 'l']

instance : Numeral Float where
  write := machineText { least := -5, most := 15 }
  ofLiteral? n := n.toDouble?

instance : Numeral Float32 where
  write := machineText { least := -6, most := 12 }
  ofLiteral? n := n.toSingle?

/-- Reads a number. -/
def numeral {T : Type} [Numeral T] : Reader T := number Numeral.ofLiteral?

end AugLag.Json
