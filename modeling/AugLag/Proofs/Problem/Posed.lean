import AugLag.Proofs.Problem.Valid

/-!
# The problem that was posed

A problem as its user sees it: full matrices and vectors in its own units, without storage formats and without
scaling. Bounds are kept as they were given; they count with their clamped values.
-/

namespace AugLag

/-- The problem to minimize `½ xᵀQx + qᵀx` subject to `lower ≤ A x ≤ upper`. -/
structure PosedProblem (K : Type) (n m : Nat) where
  Q : Matrix (Fin n) (Fin n) K
  q : Fin n → K
  A : Matrix (Fin m) (Fin n) K
  lower : Fin m → K
  upper : Fin m → K

variable {K : Type} [ExactScalar K] {n m : Nat}

namespace PosedProblem

def lowerAt (P : PosedProblem K n m) (limit : K) (i : Fin m) : K := Scalar.clamp (P.lower i) (-limit) limit

def upperAt (P : PosedProblem K n m) (limit : K) (i : Fin m) : K := Scalar.clamp (P.upper i) (-limit) limit

/-- The lower bound of row `i` is finite. -/
def HasLower (P : PosedProblem K n m) (limit : K) (i : Fin m) : Prop := -limit < P.lowerAt limit i

/-- The upper bound of row `i` is finite. -/
def HasUpper (P : PosedProblem K n m) (limit : K) (i : Fin m) : Prop := P.upperAt limit i < limit

instance (P : PosedProblem K n m) (limit : K) (i : Fin m) : Decidable (P.HasLower limit i) :=
  inferInstanceAs (Decidable (_ < _))

instance (P : PosedProblem K n m) (limit : K) (i : Fin m) : Decidable (P.HasUpper limit i) :=
  inferInstanceAs (Decidable (_ < _))

/-- No lower bound exceeds the upper one. -/
def Consistent (P : PosedProblem K n m) (limit : K) : Prop := ∀ i, P.lowerAt limit i ≤ P.upperAt limit i

/-- The vector of the elements of an array that was given, and another one if none was. -/
def given (b : Option (Array K)) (current : Fin n → K) : Fin n → K :=
  match b with
  | some a => fun i => a.getD i 0
  | none => current

def withCost (P : PosedProblem K n m) (q : Array K) : PosedProblem K n m := { P with q := given (some q) P.q }

def withBounds (P : PosedProblem K n m) (lower upper : Option (Array K)) : PosedProblem K n m :=
  { P with lower := given lower P.lower, upper := given upper P.upper }

end PosedProblem

/-! ## The problem that an input poses -/

def MatrixInput.entry : MatrixInput K → Nat → Nat → K
  | .sparse M, i, j => M.entry i j
  | .dense rows _ data, i, j => data.getD (j * rows + i) 0

/-- Missing parts are zero, and of the quadratic cost only the upper triangle counts. -/
def ProblemInput.posed (P : ProblemInput K) (n m : Nat) : PosedProblem K n m where
  Q := .of fun i j => match P.Q with
    | some Q => if i ≤ j then Q.entry i j else Q.entry j i
    | none => 0
  q := PosedProblem.given P.q 0
  A := .of fun i j => match P.A with
    | some A => A.entry i j
    | none => 0
  lower := PosedProblem.given P.bmin 0
  upper := PosedProblem.given P.bmax 0

/-- A matrix that passes its checks keeps its entries when it becomes sparse. -/
theorem MatrixInput.entry_toSparse {M : MatrixInput K} {what : ProblemPart} (hlen : M.checkLength what = .ok ())
    {i j : Nat} (hi : i < M.size.1) (hj : j < M.size.2) : (M.toSparse what).1.entry i j = M.entry i j := by
  cases M with
  | sparse S => rfl
  | dense rows cols data =>
      have hsize : data.size = rows * cols := by
        by_contra hne
        simp [checkLength, hne] at hlen
      exact SparseMatrix.entry_ofDense hsize hi hj

namespace ProblemInput

variable {P : ProblemInput K} {c : Settings K} {limit : K}

theorem get_read_given (b : Option (Array K)) (i : Fin n) :
    (Vec.read n (b.getD #[])).get i = PosedProblem.given b 0 i := by
  cases b with
  | none => simp [Vec.read, PosedProblem.given]
  | some a => simp [Vec.read, PosedProblem.given]

theorem Valid.given_le (h : Valid P c n m) (i : Fin m) :
    PosedProblem.given P.bmin 0 i ≤ PosedProblem.given P.bmax 0 i := by
  rw [← get_read_given, ← get_read_given]
  exact h.read_le i

theorem Valid.consistent (h : Valid P c n m) (hlimit : 0 < limit) : (P.posed n m).Consistent limit :=
  fun i => Scalar.clamp_le_clamp (by linarith) (h.given_le i)

/-- The cost that is stored is the one that was posed. -/
theorem Valid.symMatrix_normalize (h : Valid P c n m) (limit : K) :
    (P.normalize n m limit).1.Q.symMatrix n = (P.posed n m).Q := by
  cases hQ : P.Q with
  | none =>
      simp only [normalize, posed, hQ]
      ext i j
      simp [SparseMatrix.symMatrix]
  | some Q =>
      obtain ⟨hlen, hcheck, hsize⟩ := h.cost Q hQ
      obtain ⟨hformed, heq⟩ := MatrixInput.wellFormed_toSparse hlen hcheck
      have hcols : (Q.toSparse .cost).1.cols = n := congrArg Prod.snd (heq.trans hsize)
      have hentry (i j : Fin n) : (Q.toSparse .cost).1.entry i j = Q.entry i j :=
        MatrixInput.entry_toSparse hlen (by rw [hsize]; exact i.isLt) (by rw [hsize]; exact j.isLt)
      simp only [normalize, posed, hQ]
      rw [SparseMatrix.symMatrix_upperTriangle hformed hcols]
      ext i j
      simp only [SparseMatrix.symMatrix, Matrix.of_apply, hentry]

theorem Valid.toMatrix_normalize (h : Valid P c n m) (limit : K) :
    (P.normalize n m limit).1.A.toMatrix m n = (P.posed n m).A := by
  cases hA : P.A with
  | none =>
      obtain rfl := h.noConstraints hA
      ext i j
      exact i.elim0
  | some A =>
      obtain ⟨hlen, hcheck, hsize⟩ := h.constraints A hA
      simp only [normalize, posed, hA]
      ext i j
      exact MatrixInput.entry_toSparse hlen (by rw [hsize]; exact i.isLt) (by rw [hsize]; exact j.isLt)

end ProblemInput
end AugLag
