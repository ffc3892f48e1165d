import AugLag.Factor.Numeric

/-! Solution of a linear system with the factors of its matrix. -/
namespace AugLag.Factorization

variable {T : Type} [Scalar T]

/-- Solves `(L + I) x = b`. -/
def solveLower (L : SparseMatrix T) (b : Array T) : Array T :=
  (List.range b.size).foldl (fun x j =>
    let xj := x.getD j 0
    (L.column j).foldl (fun x e => x.modify e.1 (· - e.2 * xj)) x) b

/-- Solves `(L + I)ᵀ x = b`. -/
def solveUpper (L : SparseMatrix T) (b : Array T) : Array T :=
  (List.range b.size).reverse.foldl (fun x j =>
    let s := (L.column j).foldl (fun s e => s + e.2 * x.getD e.1 0) 0
    x.modify j (· - s)) b

/-- Solves `(L + I) D (L + I)ᵀ x = b`. -/
def solvePermuted (F : Factorization T) (b : Array T) : Array T :=
  solveUpper F.lower (Array.zipWith (· * ·) (solveLower F.lower b) F.diagInv)

/-- The solution of `A x = b`. -/
def solve (F : Factorization T) (b : Array T) : Array T :=
  let x := F.solvePermuted (F.perm.map fun i => b.getD i 0)
  F.inverse.map fun i => x.getD i 0

def solve? (F : Factorization T) (b : Array T) : Option (Array T) :=
  if b.size = F.dim then some (F.solve b) else none

end AugLag.Factorization
