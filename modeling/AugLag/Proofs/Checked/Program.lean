import AugLag.Problem.Equilibrate
import AugLag.Proofs.Checked.Sparse
import AugLag.Proofs.Newton.Data
import AugLag.Proofs.Solver.Replay
import AugLag.Solver.Residuals
import AugLag.Solver.Spectrum

/-!
# The checked program

The products with the matrices of a program, its equilibration and the estimate of its smallest eigenvalue find every
element. Nothing here depends on how the scalars calculate.
-/

namespace AugLag.Checked

open SparseMatrix

variable {T : Type} [Scalar T] {n m : Nat}

/-- The matrices of a program with a square cost. -/
structure SquareData (Q A : SparseMatrix T) (n m : Nat) : Prop extends NewtonData Q A n m where
  cost_rows : Q.rows = n

omit [Scalar T] in
theorem SquareData.of_samePattern {Q A Q' A' : SparseMatrix T} (h : SquareData Q A n m) (hQ : SamePattern Q' Q)
    (hA : SamePattern A' A) : SquareData Q' A' n m where
  toNewtonData := h.toNewtonData.of_samePattern hQ hA
  cost_rows := hQ.rows_eq.trans h.cost_rows

namespace Program

/-! ## Equilibration -/

/-- One round of scaling. -/
def equilibrateRound (c : Settings T) (P : ScaledProgram T n m) : Option (ScaledProgram T n m) := do
  let columns := (← foldColumnNorms P.A (← symColumnNorms P.Q n)).map (ScaledProgram.roundFactor c)
  let rows := (← rowNorms P.A m).map (ScaledProgram.roundFactor c)
  let Q ← scaleBoth P.Q columns columns
  let A ← scaleBoth P.A rows columns
  return { P with
    Q
    A
    q := Vec.hadamard P.q columns
    scaling := { P.scaling with
      d := Vec.hadamard P.scaling.d columns
      e := Vec.hadamard P.scaling.e rows } }

def equilibrate (P : ScaledProgram T n m) (c : Settings T) : Option (ScaledProgram T n m) :=
  if !c.scalingEnable then some P
  else do
    let scaled ← (List.range c.scalingIter).foldlM (fun P _ => equilibrateRound c P) P
    return (ScaledProgram.scaleCost c scaled).setBounds P.bmin P.bmax

section

variable {P : ScaledProgram T n m}

theorem equilibrateRound_eq (h : SquareData P.Q P.A n m) (c : Settings T) :
    equilibrateRound c P = some (P.equilibrateRound c) ∧
      SquareData (P.equilibrateRound c).Q (P.equilibrateRound c).A n m := by
  refine ⟨?_, h.of_samePattern (samePattern_scaleBoth ..) (samePattern_scaleBoth ..)⟩
  rw [equilibrateRound, symColumnNorms_eq h.cost h.cost_rows h.cost_cols]
  simp only [Option.bind_eq_bind, Option.bind_some, foldColumnNorms_eq h.constraints h.constraint_cols,
    rowNorms_eq h.constraints h.constraint_rows, scaleBoth_eq h.cost h.cost_rows h.cost_cols,
    scaleBoth_eq h.constraints h.constraint_rows h.constraint_cols]
  rfl

theorem equilibrate_eq (h : SquareData P.Q P.A n m) (c : Settings T) :
    equilibrate P c = some (P.equilibrate c) ∧ SquareData (P.equilibrate c).Q (P.equilibrate c).A n m := by
  obtain ⟨hQ, hA⟩ := ScaledProgram.samePattern_equilibrate P c
  refine ⟨?_, h.of_samePattern hQ hA⟩
  unfold equilibrate ScaledProgram.equilibrate
  split
  · rfl
  · have hrounds := foldlM_eq (f := fun P _ => equilibrateRound c P) (g := fun P _ => P.equilibrateRound c)
      (fun P : ScaledProgram T n m => SquareData P.Q P.A n m) (l := List.range c.scalingIter) h
      fun _ _ _ h => equilibrateRound_eq h c
    rw [hrounds.1]
    rfl

end

/-! ## The smallest eigenvalue -/

section Spectrum

variable {Q A : SparseMatrix T} {j : Nat}

/-- Changes an element, which must be there. -/
def update (v : Vector T n) (i : Nat) (f : T → T) : Option (Vector T n) := do
  Vec.ofArray? n (← modify v.toArray i f)

/-- Adds an entry of column `j` to the sums of its row and of its column. -/
def addEntry (j : Nat) (bound : Vector T n) (e : Nat × T) : Option (Vector T n) :=
  if e.1 = j then update bound j (· + e.2)
  else do update (← update bound e.1 (· + Scalar.abs e.2)) j (· + Scalar.abs e.2)

def gershgorinBound (Q : SparseMatrix T) (n : Nat) : Option T := do
  let bound ← (List.range n).foldlM (fun bound j => do (← column Q j).foldlM (addEntry j) bound) (Vec.zeros n)
  return Vec.maximum bound

def powerIterate (Q : SparseMatrix T) (c : T) : Nat → Vector T n → T → Option T
  | 0, _, mu => some mu
  | steps + 1, v, mu => do
    let w ← symMulAdd Q v v (-1) c
    let next := Vec.dot v w
    let norm := Vec.norm w
    if norm == 0 || Scalar.abs (next - mu) ≤ powerTolerance * Scalar.abs next then return next
    else powerIterate Q c steps (w.map (· / norm)) next

def minEigenvalue (Q : SparseMatrix T) (n : Nat) : Option T :=
  if n = 0 then some 0
  else do
    let c ← gershgorinBound Q n
    return c - (← powerIterate Q c powerLimit (powerStart n) 0)

omit [Scalar T] in
theorem update_eq (v : Vector T n) {i : Nat} (hi : i < n) (f : T → T) : update v i f = some (Vec.update v i f) := by
  rw [update, modify_eq (hi.trans_eq v.size_toArray.symm)]
  exact dif_pos (Array.size_modify.trans v.size_toArray)

theorem addEntry_eq (hj : j < n) (bound : Vector T n) {e : Nat × T} (he : e.1 < n) :
    addEntry j bound e = some (if e.1 = j then Vec.update bound j (· + e.2)
      else Vec.update (Vec.update bound e.1 (· + Scalar.abs e.2)) j (· + Scalar.abs e.2)) := by
  unfold addEntry
  split
  · exact update_eq bound hj _
  · rw [update_eq bound he]
    exact update_eq _ hj _

theorem gershgorinBound_eq (h : SquareData Q A n m) : gershgorinBound Q n = some (AugLag.gershgorinBound Q n) := by
  have hcolumn : ∀ bound : Vector T n, ∀ j ∈ List.range n, (do (← column Q j).foldlM (addEntry j) bound) =
      some ((Q.column j).foldl (fun bound e => if e.1 = j then Vec.update bound j (· + e.2)
        else Vec.update (Vec.update bound e.1 (· + Scalar.abs e.2)) j (· + Scalar.abs e.2)) bound) := by
    intro bound j hj
    rw [List.mem_range] at hj
    rw [column_eq h.cost.toLayout (h.cost_cols.symm ▸ hj)]
    refine foldlM_eq_foldl fun bound e he => addEntry_eq hj bound ?_
    obtain ⟨k, hk, rfl⟩ := List.mem_map.mp he
    exact h.cost_row_lt hj hk
  rw [gershgorinBound, foldlM_eq_foldl hcolumn]
  rfl

theorem powerIterate_eq (h : SquareData Q A n m) (c : T) (steps : Nat) (v : Vector T n) (mu : T) :
    powerIterate Q c steps v mu = some (AugLag.powerIterate Q c steps v mu) := by
  induction steps generalizing v mu with
  | zero => rfl
  | succ steps ih =>
      rw [powerIterate, AugLag.powerIterate, symMulAdd_eq h.cost h.cost_rows h.cost_cols h.upper]
      simp only [Option.bind_eq_bind, Option.bind_some]
      split
      · rfl
      · exact ih _ _

theorem minEigenvalue_eq (h : SquareData Q A n m) : minEigenvalue Q n = some (AugLag.minEigenvalue Q n) := by
  unfold minEigenvalue AugLag.minEigenvalue
  split
  · rfl
  · rw [gershgorinBound_eq h]
    simp only [Option.bind_eq_bind, Option.bind_some, powerIterate_eq h]
    rfl

end Spectrum

/-! ## Points -/

section Points

/-- The first point of a solve. -/
def startPoint (P : ScaledProgram T n m) (x : Vector T n) (y : Vector T m) : Option (Point T n m) := do
  let Ax ← mulAdd P.A (Vec.zeros m) x 1 0
  let Qx ← symMulAdd P.Q (Vec.zeros n) x 1 0
  return { Point.start P x y with Ax, Qx }

/-- What follows from a point, the penalties and the proximal weight. -/
def evaluate (P : ScaledProgram T n m) (p : Point T n m) (sigma : Vector T m) (rho : T) :
    Option (Evaluation T n m) := do
  let w := Evaluation.shifted p sigma
  let z : Vector T m := Vector.ofFn fun i => Scalar.clamp (w.get i) (P.bmin.get i) (P.bmax.get i)
  let violation : Vector T m := Vector.zipWith (· - ·) p.Ax z
  let multiplier : Vector T m := Vector.ofFn fun i => p.y.get i + sigma.get i * violation.get i
  let force ← adjointMulAdd P.A (Vec.zeros n) multiplier 1 0
  let stationarity : Vector T n := Vector.ofFn fun i => p.Qx.get i + P.q.get i + force.get i
  return {
    z
    active := Vector.ofFn fun i => w.get i < P.bmin.get i || P.bmax.get i < w.get i
    violation
    multiplier
    dy := Vector.zipWith (· - ·) multiplier p.y
    force
    stationarity
    gradient := Evaluation.gradientAt stationarity p rho }

/-- The change `dy` of the multipliers shows that no point is feasible. The product is made in any case. -/
def isPrimalInfeasible (P : ScaledProgram T n m) (dy : Vector T m) (eps : T) : Option Bool := do
  let norm := Vec.normInfScaled dy P.scaling.e
  let tol := eps * norm
  let force ← adjointMulAdd P.A (Vec.zeros n) dy 1 0
  return !(norm == 0) && Scalar.isFinite norm && !(tol < Vec.normInfScaled force P.scaling.dinv) &&
    (List.finRange m).all (P.pushesOnlyFinite dy tol) && P.support dy ≤ -tol

variable {P : ScaledProgram T n m} (h : SquareData P.Q P.A n m)

include h

theorem startPoint_eq (x : Vector T n) (y : Vector T m) : startPoint P x y = some (Point.start P x y) := by
  rw [startPoint, mulAdd_eq h.constraints h.constraint_rows h.constraint_cols,
    symMulAdd_eq h.cost h.cost_rows h.cost_cols h.upper]
  rfl

theorem evaluate_eq (p : Point T n m) (sigma : Vector T m) (rho : T) :
    evaluate P p sigma rho = some (Evaluation.ofPoint P p sigma rho) := by
  rw [evaluate, adjointMulAdd_eq h.constraints h.constraint_rows h.constraint_cols]
  rfl

theorem isPrimalInfeasible_eq (dy : Vector T m) (eps : T) :
    isPrimalInfeasible P dy eps = some (P.isPrimalInfeasible dy eps) := by
  rw [isPrimalInfeasible, adjointMulAdd_eq h.constraints h.constraint_rows h.constraint_cols]
  rfl

end Points

end Program
end AugLag.Checked
