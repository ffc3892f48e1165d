/-! The arithmetic that the solver is written over. An algorithm uses only the operations listed here,
so that it runs on machine numbers of either width and can be read over the real numbers. -/
namespace AugLag

/-- Numbers of the solver. No law is assumed: rounding, signed zeros, infinities and NaN are all allowed. -/
class Scalar (T : Type) extends Zero T, One T, Add T, Sub T, Mul T, Div T, Neg T, LT T, LE T, BEq T,
    OfScientific T where
  decLt : DecidableLT T
  decLe : DecidableLE T
  sqrt : T → T
  abs : T → T
  isNaN : T → Bool
  isFinite : T → Bool
  nan : T
  infinity : T
  /-- The largest finite number. -/
  maxValue : T
  ofNat : Nat → T
  /-- The quotient of two counts, divided at double width. -/
  ratio : Nat → Nat → T

namespace Scalar

variable {T : Type} [Scalar T]

instance : DecidableLT T := decLt
instance : DecidableLE T := decLe

def recip (x : T) : T := 1 / x

/-- The larger number. A NaN loses to the other operand. -/
def max (a b : T) : T := if isNaN a then b else if a < b then b else a

/-- The smaller number. A NaN loses to the other operand. -/
def min (a b : T) : T := if isNaN a then b else if b < a then b else a

/-- The point of the interval from `lo` to `hi` nearest to `x`. A NaN stays NaN. -/
def clamp (x lo hi : T) : T := if x < lo then lo else if hi < x then hi else x

end Scalar
end AugLag
