import AugLag.Scalar.Basic

/-! Vectors of scalars: elementwise operations in a fixed order of rounding. -/
namespace AugLag.Vec

variable {T : Type} [Scalar T] {n : Nat}

/-- Reads an array as a vector of a given length. `none` when the length differs. -/
def ofArray? {α : Type} (n : Nat) (a : Array α) : Option (Vector α n) :=
  if h : a.size = n then some ⟨a, h⟩ else none

/-- Reads two arrays as vectors of one length. `none` when their lengths differ. -/
def pair? {α : Type} (a b : Array α) : Option (Σ n, Vector α n × Vector α n) :=
  (ofArray? a.size b).map fun v => ⟨a.size, a.toVector, v⟩

/-- Reads three arrays as vectors of one length. `none` when their lengths differ. -/
def triple? {α : Type} (a b c : Array α) : Option (Σ n, Vector α n × Vector α n × Vector α n) := do
  let b ← ofArray? a.size b
  let c ← ofArray? a.size c
  return ⟨a.size, a.toVector, b, c⟩

/-- Element `i`, and zero outside of the vector. -/
def get (v : Vector T n) (i : Nat) : T := v.toArray.getD i 0

/-- The first `n` elements of an array, with zeros where it ends early. -/
def read (n : Nat) (a : Array T) : Vector T n := Vector.ofFn fun i => a.getD i 0

/-- Changes element `i`, and nothing if it is outside of the vector. -/
def update (v : Vector T n) (i : Nat) (f : T → T) : Vector T n := ⟨v.toArray.modify i f, by simp⟩

def fill (n : Nat) (c : T) : Vector T n := Vector.replicate n c

def zeros (n : Nat) : Vector T n := fill n 0

def scale (v : Vector T n) (c : T) : Vector T n := v.map (· * c)

def neg (v : Vector T n) : Vector T n := v.map (- ·)

/-- The elementwise product. -/
def hadamard (v w : Vector T n) : Vector T n := Vector.zipWith (· * ·) v w

/-- The elementwise inverse. -/
def recip (v : Vector T n) : Vector T n := v.map Scalar.recip

/-- Moves each element into the interval from `lo` to `hi`. -/
def clamp (v : Vector T n) (lo hi : T) : Vector T n := v.map (Scalar.clamp · lo hi)

/-- The affine image `a x + b` of each element. -/
def affine (v : Vector T n) (a b : T) : Vector T n := v.map fun x => a * x + b

/-- The combination `a x + b y`. -/
def combine (a : T) (x : Vector T n) (b : T) (y : Vector T n) : Vector T n :=
  Vector.zipWith (fun x y => a * x + b * y) x y

end AugLag.Vec
