import AugLag.Vec.Basic

/-! Sums and norms of vectors. Sums carry a running compensation for the low order bits that an addition loses. -/
namespace AugLag.Vec

variable {T : Type} [Scalar T] {n : Nat}

/-- One step of a compensated sum: the sum so far and the correction still to be added. -/
def compensate (acc : T × T) (v : T) : T × T :=
  let t := acc.1 + v
  if Scalar.abs v ≤ Scalar.abs acc.1 then (t, acc.2 + ((acc.1 - t) + v))
  else (t, acc.2 + ((v - t) + acc.1))

/-- The sum of a list, from left to right, corrected once at its end. -/
def compensatedSum (terms : List T) : T :=
  let acc := terms.foldl compensate (0, 0)
  acc.1 + acc.2

def dot (v w : Vector T n) : T := compensatedSum (Vector.zipWith (· * ·) v w).toList

/-- The Euclidean distance. -/
def dist (v w : Vector T n) : T :=
  Scalar.sqrt (compensatedSum (Vector.zipWith (fun x y => (x - y) * (x - y)) v w).toList)

def sumSq (v : Vector T n) : T := dot v v

/-- The Euclidean norm. -/
def norm (v : Vector T n) : T := Scalar.sqrt (sumSq v)

/-- The largest magnitude among the terms; NaN terms are passed over. -/
def maxAbs (terms : List T) : T := terms.foldl (fun m x => Scalar.max m (Scalar.abs x)) 0

/-- The maximum norm. It is NaN as soon as one element is. -/
def normInf (v : Vector T n) : T := if v.any Scalar.isNaN then Scalar.nan else maxAbs v.toList

/-- The maximum norm of the elementwise product; NaN products are passed over. -/
def normInfScaled (v w : Vector T n) : T := maxAbs (Vector.zipWith (· * ·) v w).toList

/-- The maximum norm of the difference; NaN differences are passed over. -/
def normInfDiff (v w : Vector T n) : T := maxAbs (Vector.zipWith (· - ·) v w).toList

/-- The largest element, and minus infinity for the empty vector. -/
def maximum (v : Vector T n) : T := v.toList.foldl Scalar.max (-Scalar.infinity)

def isFinite (v : Vector T n) : Bool := v.all Scalar.isFinite

end AugLag.Vec
