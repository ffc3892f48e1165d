import AugLag.Vec.Basic

/-! Scaling of a problem. The scaled problem has the cost `c D Q D`, `c D q`, the constraints `E A D` and the finite
bounds times `E`; its points stand for `x = D x̄` and `y = E ȳ / c`. -/
namespace AugLag

structure Scaling (T : Type) (n m : Nat) where
  d : Vector T n
  dinv : Vector T n
  e : Vector T m
  einv : Vector T m
  /-- The factor on the cost. -/
  c : T

namespace Scaling

variable {T : Type} [Scalar T] {n m : Nat}

def identity (n m : Nat) : Scaling T n m where
  d := Vec.fill n 1
  dinv := Vec.fill n 1
  e := Vec.fill m 1
  einv := Vec.fill m 1
  c := 1

def unscalePrimal (s : Scaling T n m) (x : Vector T n) : Vector T n := Vec.hadamard x s.d

def unscaleDual (s : Scaling T n m) (y : Vector T m) : Vector T m :=
  Vec.scale (Vec.hadamard y s.e) (Scalar.recip s.c)

def scalePrimal (s : Scaling T n m) (x : Vector T n) : Vector T n := Vec.hadamard x s.dinv

def scaleDual (s : Scaling T n m) (y : Vector T m) : Vector T m := Vec.scale (Vec.hadamard y s.einv) s.c

end Scaling
end AugLag
