import AugLag.Proofs.Problem.Posed
import AugLag.Proofs.Problem.Stored

/-!
# Scaled programs and the problems they stand for

A scaled program belongs to a posed problem if its data are those of the problem times the scalings (`IsScaling`). It
does so as soon as it stores a program that describes the problem.
-/

namespace AugLag

variable {K : Type} [ExactScalar K] {n m : Nat}

/-- A program is that of an input: the entries of the cost on and above the diagonal, all entries of the constraints,
and the vectors, with bounds clamped to the limit. -/
structure ProblemInput.Describes (problem : ProblemInput K) (limit : K) (L : QuadraticProgram K n m) : Prop where
  cost_columns : ∀ Q ∈ problem.Q, ∀ j < n,
    L.Q.column j = ((Q.toSparse .cost).1.column j).filter fun e => e.1 ≤ j
  cost_eq : L.Q.symMatrix n = (problem.posed n m).Q
  constraints_sparse : ∀ A ∈ problem.A, L.A = (A.toSparse .constraints).1
  constraints_eq : L.A.toMatrix m n = (problem.posed n m).A
  linear_eq : ∀ j, L.q.get j = (problem.posed n m).q j
  lower_eq : ∀ i, L.bmin.get i = (problem.posed n m).lowerAt limit i
  upper_eq : ∀ i, L.bmax.get i = (problem.posed n m).upperAt limit i
  limit_eq : L.limit = limit

namespace ProblemInput

variable {P : ProblemInput K} {c : Settings K} {limit : K}

/-- The vectors of the normalized program, whatever its matrices are. -/
theorem get_normalize (P : ProblemInput K) (limit : K) :
    (∀ j, (P.normalize n m limit).1.q.get j = (P.posed n m).q j) ∧
      (∀ i, (P.normalize n m limit).1.bmin.get i = (P.posed n m).lowerAt limit i) ∧
        (∀ i, (P.normalize n m limit).1.bmax.get i = (P.posed n m).upperAt limit i) ∧
          (P.normalize n m limit).1.limit = limit := by
  obtain ⟨hq, hbmin, hbmax, hlimit⟩ := normalize_vectors P n m limit
  refine ⟨fun j => ?_, fun i => ?_, fun i => ?_, hlimit⟩
  · rw [hq, get_read_given]
    rfl
  · rw [hbmin, Vec.get_clamp, get_read_given]
    rfl
  · rw [hbmax, Vec.get_clamp, get_read_given]
    rfl

theorem clamped_normalize (P : ProblemInput K) (n m : Nat) (hlimit : 0 < limit) :
    (P.normalize n m limit).1.Clamped := by
  obtain ⟨-, hlower, hupper, hlim⟩ := @get_normalize _ _ n m P limit
  have hle : -limit ≤ limit := by linarith
  refine ⟨fun i => ?_, fun i => ?_⟩
  · rw [hlim, hlower]
    exact ⟨Scalar.le_clamp hle, Scalar.clamp_le hle⟩
  · rw [hlim, hupper]
    exact ⟨Scalar.le_clamp hle, Scalar.clamp_le hle⟩

theorem Valid.describes (h : Valid P c n m) (limit : K) : P.Describes limit (P.normalize n m limit).1 := by
  obtain ⟨hlinear, hlower, hupper, hlimit⟩ := @get_normalize _ _ n m P limit
  exact
    { cost_columns := fun Q hQ j hj => by
        obtain ⟨hlen, hcheck, hsize⟩ := h.cost Q hQ
        obtain ⟨hformed, heq⟩ := MatrixInput.wellFormed_toSparse hlen hcheck
        rw [Option.mem_def] at hQ
        simp only [normalize, hQ]
        refine SparseMatrix.column_upperTriangle hformed ?_
        rw [show (Q.toSparse .cost).1.cols = n from congrArg Prod.snd (heq.trans hsize)]
        exact hj
      cost_eq := h.symMatrix_normalize limit
      constraints_sparse := fun A hA => by
        rw [Option.mem_def] at hA
        simp only [normalize, hA]
      constraints_eq := h.toMatrix_normalize limit
      linear_eq := hlinear
      lower_eq := hlower
      upper_eq := hupper
      limit_eq := hlimit }

/-- The input with another linear cost. -/
def withCost (P : ProblemInput K) (q : Array K) : ProblemInput K := { P with q := some q }

/-- The input with new bounds where they are given. -/
def withBounds (P : ProblemInput K) (lower upper : Option (Array K)) : ProblemInput K :=
  { P with bmin := lower.or P.bmin, bmax := upper.or P.bmax }

theorem posed_withBounds (P : ProblemInput K) (lower upper : Option (Array K)) :
    (P.withBounds lower upper).posed n m = (P.posed n m).withBounds lower upper := by
  have hgiven {k : Nat} (b old : Option (Array K)) :
      (PosedProblem.given (b.or old) 0 : Fin k → K) = PosedProblem.given b (PosedProblem.given old 0) := by
    cases b <;> rfl
  simp only [posed, withBounds, PosedProblem.withBounds, hgiven]

/-- The matrices of a described program do not depend on the vectors of the input. -/
theorem Describes.withVectors (h : P.Describes limit (P.normalize n m limit).1) {P' : ProblemInput K}
    (hQ : P'.Q = P.Q) (hA : P'.A = P.A) : P'.Describes limit (P'.normalize n m limit).1 := by
  obtain ⟨hlinear, hlower, hupper, hlimit⟩ := @get_normalize _ _ n m P' limit
  have hcost : (P'.normalize n m limit).1.Q = (P.normalize n m limit).1.Q := by
    simp only [normalize, hQ]
  have hconstraints : (P'.normalize n m limit).1.A = (P.normalize n m limit).1.A := by
    simp only [normalize, hA]
  exact
    { cost_columns := fun Q hmem j hj => by rw [hcost, h.cost_columns Q (hQ ▸ hmem) j hj]
      cost_eq := by rw [hcost, h.cost_eq, posed, posed, hQ]
      constraints_sparse := fun A hmem => by rw [hconstraints, h.constraints_sparse A (hA ▸ hmem)]
      constraints_eq := by rw [hconstraints, h.constraints_eq, posed, posed, hA]
      linear_eq := hlinear
      lower_eq := hlower
      upper_eq := hupper
      limit_eq := hlimit }

end ProblemInput

namespace ScaledProgram

/-- The matrices and the linear cost are those of the problem, scaled by positive factors. -/
structure ScalesData (S : ScaledProgram K n m) (P : PosedProblem K n m) : Prop where
  cost_wellFormed : S.Q.WellFormed
  cost_upper : S.Q.Upper
  cost_cols : S.Q.cols = n
  constraints_wellFormed : S.A.WellFormed
  constraints_rows : S.A.rows = m
  constraints_cols : S.A.cols = n
  d_pos : ∀ j, 0 < S.scaling.d.get j
  e_pos : ∀ i, 0 < S.scaling.e.get i
  c_pos : 0 < S.scaling.c
  cost_eq : ∀ i j, S.Q.symMatrix n i j = S.scaling.c * S.scaling.d.get i * P.Q i j * S.scaling.d.get j
  constraints_eq : ∀ i j, S.A.toMatrix m n i j = S.scaling.e.get i * P.A i j * S.scaling.d.get j
  linear_eq : ∀ j, S.q.get j = S.scaling.c * S.scaling.d.get j * P.q j

/-- Finite bounds are scaled with their rows, absent ones are marked. -/
structure ScalesBounds (S : ScaledProgram K n m) (P : PosedProblem K n m) (limit : K) : Prop where
  limit_eq : S.limit = limit
  consistent : P.Consistent limit
  lowerFinite_eq : ∀ i, S.lowerFinite.get i = decide (P.HasLower limit i)
  upperFinite_eq : ∀ i, S.upperFinite.get i = decide (P.HasUpper limit i)
  lower_eq : ∀ i, S.bmin.get i = if P.HasLower limit i then P.lowerAt limit i * S.scaling.e.get i else -limit
  upper_eq : ∀ i, S.bmax.get i = if P.HasUpper limit i then P.upperAt limit i * S.scaling.e.get i else limit

/-- The program is the posed problem in scaled units. -/
structure IsScaling (S : ScaledProgram K n m) (P : PosedProblem K n m) (limit : K) : Prop
    extends ScalesData S P, ScalesBounds S P limit where
  dinv_eq : ∀ j, S.scaling.dinv.get j = (S.scaling.d.get j)⁻¹
  einv_eq : ∀ i, S.scaling.einv.get i = (S.scaling.e.get i)⁻¹

variable {S : ScaledProgram K n m} {P : PosedProblem K n m} {limit : K}

/-! ## What is stored -/

theorem Stores.entry_cost {L : QuadraticProgram K n m} (h : S.Stores L) (i j : Fin n) :
    S.Q.entry i j = S.scaling.c * S.scaling.d.get i * L.Q.entry i j * S.scaling.d.get j := by
  rw [h.cost_pattern.entry_eq (c := fun r => S.scaling.c * (Vec.get S.scaling.d r * S.scaling.d.get j)) fun k hk => by
    rw [h.cost_eq j k hk]
    ring]
  rw [Vec.get_eq_of_lt]
  ring

theorem Stores.entry_constraints {L : QuadraticProgram K n m} (h : S.Stores L) (i : Fin m) (j : Fin n) :
    S.A.entry i j = S.scaling.e.get i * L.A.entry i j * S.scaling.d.get j := by
  rw [h.constraints_pattern.entry_eq (c := fun r => Vec.get S.scaling.e r * S.scaling.d.get j) fun k hk => by
    rw [h.constraints_eq j k hk]
    ring]
  rw [Vec.get_eq_of_lt]
  ring

/-- A program that stores the description of a problem is a scaling of it. -/
theorem Stores.isScaling {problem : ProblemInput K} {L : QuadraticProgram K n m} (h : S.Stores L)
    (hL : NewtonData L.Q L.A n m) (hP : problem.Describes limit L)
    (hcons : (problem.posed n m).Consistent limit) : S.IsScaling (problem.posed n m) limit := by
  have hformed := h.formed hL
  exact
    { cost_wellFormed := hformed.cost
      cost_upper := hformed.upper
      cost_cols := hformed.cost_cols
      constraints_wellFormed := hformed.constraints
      constraints_rows := hformed.constraint_rows
      constraints_cols := hformed.constraint_cols
      d_pos := h.d_pos
      e_pos := h.e_pos
      c_pos := h.c_pos
      cost_eq := fun i j => by
        rw [← hP.cost_eq]
        simp only [SparseMatrix.symMatrix, Matrix.of_apply]
        by_cases hij : i ≤ j
        · rw [if_pos hij, if_pos hij, h.entry_cost]
        · rw [if_neg hij, if_neg hij, h.entry_cost]
          ring
      constraints_eq := fun i j => by
        rw [← hP.constraints_eq]
        exact h.entry_constraints i j
      linear_eq := fun j => by
        rw [h.linear_eq, hP.linear_eq]
        ring
      limit_eq := h.limit_eq.trans hP.limit_eq
      consistent := hcons
      lowerFinite_eq := fun i => by
        rw [h.lowerFinite_eq, hP.lower_eq, hP.limit_eq]
        exact decide_eq_decide.mpr Iff.rfl
      upperFinite_eq := fun i => by
        rw [h.upperFinite_eq, hP.upper_eq, hP.limit_eq]
        exact decide_eq_decide.mpr Iff.rfl
      lower_eq := fun i => by
        rw [h.lower_eq, hP.lower_eq, hP.limit_eq]
        exact ite_congr rfl (fun _ => rfl) fun _ => rfl
      upper_eq := fun i => by
        rw [h.upper_eq, hP.upper_eq, hP.limit_eq]
        exact ite_congr rfl (fun _ => rfl) fun _ => rfl
      dinv_eq := h.dinv_eq
      einv_eq := h.einv_eq }

/-! ## Products in the units of the problem -/

section Unscaled

open scoped Matrix

theorem IsScaling.mulVec_constraints (h : IsScaling S P limit) (x : Fin n → K) :
    (P.A *ᵥ fun j => x j * S.scaling.d.get j) =
      fun i => (S.A.toMatrix m n *ᵥ x) i * S.scaling.einv.get i := by
  ext i
  have he := (h.e_pos i).ne'
  simp only [Matrix.mulVec, dotProduct, h.constraints_eq, h.einv_eq, Finset.sum_mul]
  refine Finset.sum_congr rfl fun j _ => ?_
  field_simp

theorem IsScaling.mulVec_cost (h : IsScaling S P limit) (x : Fin n → K) :
    (P.Q *ᵥ fun j => x j * S.scaling.d.get j) =
      fun i => (S.Q.symMatrix n *ᵥ x) i * S.scaling.dinv.get i * S.scaling.c⁻¹ := by
  ext i
  have hd := (h.d_pos i).ne'
  have hc := h.c_pos.ne'
  simp only [Matrix.mulVec, dotProduct, h.cost_eq, h.dinv_eq, Finset.sum_mul]
  refine Finset.sum_congr rfl fun j _ => ?_
  field_simp

theorem IsScaling.mulVec_transpose (h : IsScaling S P limit) (y : Fin m → K) :
    (P.Aᵀ *ᵥ fun i => y i * S.scaling.e.get i) =
      fun j => ((S.A.toMatrix m n)ᵀ *ᵥ y) j * S.scaling.dinv.get j := by
  ext j
  have hd := (h.d_pos j).ne'
  simp only [Matrix.mulVec, dotProduct, Matrix.transpose_apply, h.constraints_eq, h.dinv_eq, Finset.sum_mul]
  refine Finset.sum_congr rfl fun i _ => ?_
  field_simp

theorem IsScaling.linear_unscaled (h : IsScaling S P limit) (j : Fin n) :
    S.q.get j * S.scaling.dinv.get j * S.scaling.c⁻¹ = P.q j := by
  have hd := (h.d_pos j).ne'
  have hc := h.c_pos.ne'
  rw [h.linear_eq, h.dinv_eq]
  field_simp

theorem IsScaling.dot_linear (h : IsScaling S P limit) (x : Vector K n) :
    Vec.dot S.q x * S.scaling.c⁻¹ = P.q ⬝ᵥ fun j => x.get j * S.scaling.d.get j := by
  rw [Vec.dot_eq_dotProduct, dotProduct, dotProduct, Finset.sum_mul]
  refine Finset.sum_congr rfl fun j _ => ?_
  have hc := h.c_pos.ne'
  rw [h.linear_eq]
  field_simp

end Unscaled

end ScaledProgram

end AugLag
