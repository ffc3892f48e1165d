import AugLag.Decimal.Round

/-! Decimals as text. -/
namespace AugLag

namespace Decimal

def digitText (d : Decimal) : List Char := Nat.toDigits 10 d.digits

/-- A text on the left of which zeros are put until it has the given length. -/
def padLeft (length : Nat) (text : List Char) : List Char := List.replicate (length - text.length) '0' ++ text

/-- Positional notation, with at least one digit before the point. A whole number has no point. -/
def positional (d : Decimal) : List Char :=
  if 0 ≤ d.exponent then d.digitText ++ List.replicate d.exponent.toNat '0'
  else
    let places := d.exponent.natAbs
    let text := padLeft (places + 1) d.digitText
    text.take (text.length - places) ++ '.' :: text.drop (text.length - places)

/-- How an exponent is written. -/
structure ExponentStyle where
  /-- A plus sign stands before an exponent that is not negative. -/
  plus : Bool
  /-- The least number of digits. -/
  width : Nat

def ExponentStyle.text (style : ExponentStyle) (e : Int) : List Char :=
  let sign := if e < 0 then ['-'] else if style.plus then ['+'] else []
  sign ++ padLeft style.width (Nat.toDigits 10 e.natAbs)

/-- Scientific notation, with one digit before the point and at least `count` digits. -/
def scientific (style : ExponentStyle) (count : Nat) (d : Decimal) : List Char :=
  let text := padLeft count d.digitText
  let point := if text.length ≤ 1 then [] else ['.']
  text.take 1 ++ point ++ text.drop 1 ++ 'e' :: style.text (d.exponent + text.length - 1)

end Decimal
end AugLag
