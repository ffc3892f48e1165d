import AugLag.Sparse.Basic

/-! Products of sparse matrices and vectors, accumulated into a multiple of a given vector. -/
namespace AugLag

/-- The multiple `b y` onto which a product is accumulated. Nothing of `y` survives a zero factor. -/
def Vec.prescale {T : Type} [Scalar T] {n : Nat} (y : Vector T n) (b : T) : Vector T n :=
  if b == 0 then Vec.zeros n else if b == 1 then y else Vec.scale y b

namespace SparseMatrix

variable {T : Type} [Scalar T] {m n : Nat}

/-- The vector `a A x + b y`. -/
def mulAdd (A : SparseMatrix T) (y : Vector T m) (x : Vector T n) (a b : T) : Vector T m :=
  let y := Vec.prescale y b
  if a == 0 then y
  else (List.finRange n).foldl (fun y (j : Fin n) =>
    let ax := a * x.get j
    (A.column j).foldl (fun y e => Vec.update y e.1 (· + e.2 * ax)) y) y

/-- The product of a column with a vector, summed from its first entry on. -/
def columnDot (A : SparseMatrix T) (x : Vector T m) (j : Nat) : T :=
  (A.column j).foldl (fun acc e => acc + e.2 * Vec.get x e.1) 0

/-- The vector `a Aᵀ x + b y`. -/
def adjointMulAdd (A : SparseMatrix T) (y : Vector T n) (x : Vector T m) (a b : T) : Vector T n :=
  let y := Vec.prescale y b
  if a == 0 then y else y.mapIdx fun j yj => yj + a * A.columnDot x j

/-- One entry of a symmetric product: its own place in `y`, and the mirrored place in the sum of its column. -/
def symStep (x : Vector T n) (a xj : T) (j : Nat) (acc : Vector T n × T) (e : Nat × T) : Vector T n × T :=
  (Vec.update acc.1 e.1 (· + a * e.2 * xj), if e.1 = j then acc.2 else acc.2 + e.2 * Vec.get x e.1)

/-- The vector `a Q x + b y` for the symmetric matrix whose upper triangle is stored. -/
def symMulAdd (Q : SparseMatrix T) (y x : Vector T n) (a b : T) : Vector T n :=
  (List.finRange n).foldl (fun y (j : Fin n) =>
    let acc := (Q.column j).foldl (symStep x a (x.get j) j) (y, 0)
    Vec.update acc.1 j (· + a * acc.2)) (Vec.prescale y b)

/-- Fails unless the matrix has `ylen` rows and `xlen` columns. -/
def checkShape (size : Nat × Nat) (ylen xlen : Nat) : Except DimensionMismatch Unit :=
  if size = (ylen, xlen) then .ok () else .error { expected := size, found := (ylen, xlen) }

def mulAdd? (A : SparseMatrix T) (y x : Array T) (a b : T) : Option (Array T) := do
  let x ← Vec.ofArray? A.cols x
  let y ← Vec.ofArray? A.rows y
  if a == 0 || A.entriesBelow A.rows then some (A.mulAdd y x a b).toArray else none

def adjointMulAdd? (A : SparseMatrix T) (y x : Array T) (a b : T) : Option (Array T) := do
  let x ← Vec.ofArray? A.rows x
  let y ← Vec.ofArray? A.cols y
  if a == 0 || A.entriesBelow A.rows then some (A.adjointMulAdd y x a b).toArray else none

def symMulAdd? (Q : SparseMatrix T) (y x : Array T) (a b : T) : Option (Array T) := do
  let x ← Vec.ofArray? Q.cols x
  let y ← Vec.ofArray? Q.cols y
  if Q.isSquare && Q.entriesBelow Q.cols then some (Q.symMulAdd y x a b).toArray else none

/-- The product after a check of the lengths of `y` and `x`. -/
def mulAddChecked? (A : SparseMatrix T) (y x : Array T) (a b : T) :
    Option (Except DimensionMismatch (Array T)) :=
  match checkShape A.size y.size x.size with
  | .error e => some (.error e)
  | .ok () => (A.mulAdd? y x a b).map .ok

/-- The product with the transpose after a check of the lengths of `y` and `x`. -/
def adjointMulAddChecked? (A : SparseMatrix T) (y x : Array T) (a b : T) :
    Option (Except DimensionMismatch (Array T)) :=
  match checkShape A.adjointSize y.size x.size with
  | .error e => some (.error e)
  | .ok () => (A.adjointMulAdd? y x a b).map .ok

/-- The symmetric product after a check that the matrix is square and of the lengths of `y` and `x`. -/
def symMulAddChecked? (Q : SparseMatrix T) (y x : Array T) (a b : T) :
    Option (Except DimensionMismatch (Array T)) :=
  match checkShape (Q.cols, Q.cols) Q.rows Q.cols, checkShape Q.size y.size x.size with
  | .error e, _ => some (.error e)
  | .ok (), .error e => some (.error e)
  | .ok (), .ok () => (Q.symMulAdd? y x a b).map .ok

end SparseMatrix
end AugLag
