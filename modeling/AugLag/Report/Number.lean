import AugLag.Decimal.Notation

/-! Numbers in printed reports. Digits are rounded from the exact value, with ties to even. -/
namespace AugLag.Report

variable {T : Type} [MachineScalar T]

/-- A number with a sign. A plus sign is written on demand, and NaN has no sign. -/
def signedText (plus : Bool) (x : T) (size : Binary → List Char) : String :=
  if Scalar.isNaN x then "NaN"
  else
    let sign := if MachineScalar.isNegative x then ['-'] else if plus then ['+'] else []
    let size := if Scalar.isFinite x then size (MachineScalar.magnitude x) else ['i', 'n', 'f']
    String.ofList (sign ++ size)

/-- Two significant digits, and an exponent without padding. -/
def brief (x : T) : String :=
  signedText false x fun b => (b.toSignificant 2).scientific { plus := false, width := 1 } 2

/-- Scientific notation with `places` digits behind the point and a signed exponent of at least two digits. -/
def tabular (places : Nat) (plus : Bool) (x : T) : String :=
  signedText plus x fun b => (b.toSignificant (places + 1)).scientific { plus := true, width := 2 } (places + 1)

/-- Two digits behind the point. -/
def hundredths (x : T) : String := signedText false x fun b => (b.toPlaces 2).positional

end AugLag.Report
