import AugLag.Proofs.Solver.Convex
import AugLag.Proofs.Solver.Separation
import AugLag.Solver.Basic

/-!
# The estimate of the smallest eigenvalue

The power iteration looks at curvatures of the cost along unit vectors, and they only fall from one vector to the next.
The estimate is therefore never below the smallest eigenvalue, and never above the curvature along the vector that the
iteration starts from (`minEigenvalue_le`, `le_minEigenvalue`). It can stay above the smallest eigenvalue: a start that
happens to be an eigenvector is never left (`minEigenvalue_of_eigenvector`).
-/

namespace AugLag

open scoped Matrix

/-! ## Quadratic forms -/

section Forms

variable {K : Type} [Field K] {n : Nat} {M : Matrix (Fin n) (Fin n) K}

theorem dotProduct_mulVec_comm (hM : Mᵀ = M) (x y : Fin n → K) : x ⬝ᵥ M *ᵥ y = y ⬝ᵥ M *ᵥ x := by
  rw [Matrix.dotProduct_mulVec, ← Matrix.mulVec_transpose, hM, dotProduct_comm]

theorem form_add_smul (hM : Mᵀ = M) (x y : Fin n → K) (t : K) :
    (x + t • y) ⬝ᵥ M *ᵥ (x + t • y) = y ⬝ᵥ M *ᵥ y * (t * t) + 2 * (x ⬝ᵥ M *ᵥ y) * t + x ⬝ᵥ M *ᵥ x := by
  simp only [Matrix.mulVec_add, Matrix.mulVec_smul, add_dotProduct, dotProduct_add, smul_dotProduct, dotProduct_smul,
    smul_eq_mul, dotProduct_mulVec_comm hM y x]
  ring

theorem form_smul (x : Fin n → K) (t : K) : (t • x) ⬝ᵥ M *ᵥ (t • x) = t * t * (x ⬝ᵥ M *ᵥ x) := by
  simp only [Matrix.mulVec_smul, smul_dotProduct, dotProduct_smul, smul_eq_mul]
  ring

variable [LinearOrder K] [IsStrictOrderedRing K]

/-- The inequality of Cauchy and Schwarz for a form that is nowhere negative. -/
theorem PosSemidef.sq_le (hM : PosSemidef M) (hsym : Mᵀ = M) (x y : Fin n → K) :
    (x ⬝ᵥ M *ᵥ y) ^ 2 ≤ (x ⬝ᵥ M *ᵥ x) * (y ⬝ᵥ M *ᵥ y) := by
  have hdiscrim := discrim_le_zero fun t => (hM (x + t • y)).trans_eq (form_add_smul hsym x y t)
  rw [discrim] at hdiscrim
  linarith

theorem dotProduct_self_nonneg (x : Fin n → K) : 0 ≤ x ⬝ᵥ x := Finset.sum_nonneg fun _ _ => mul_self_nonneg _

theorem posSemidef_one : PosSemidef (1 : Matrix (Fin n) (Fin n) K) := by
  intro x
  rw [Matrix.one_mulVec]
  exact dotProduct_self_nonneg x

/-- The curvature along the image of a unit vector is at least the curvature along the vector. -/
theorem PosSemidef.rayleigh_le (hM : PosSemidef M) (hsym : Mᵀ = M) {v : Fin n → K} (hv : v ⬝ᵥ v = 1) :
    (v ⬝ᵥ M *ᵥ v) * ((M *ᵥ v) ⬝ᵥ (M *ᵥ v)) ≤ (M *ᵥ v) ⬝ᵥ M *ᵥ (M *ᵥ v) := by
  have hshort : (v ⬝ᵥ M *ᵥ v) ^ 2 ≤ (M *ᵥ v) ⬝ᵥ (M *ᵥ v) := by
    have hle := posSemidef_one.sq_le Matrix.transpose_one v (M *ᵥ v)
    rwa [Matrix.one_mulVec, Matrix.one_mulVec, hv, one_mul] at hle
  have hlong : ((M *ᵥ v) ⬝ᵥ (M *ᵥ v)) ^ 2 ≤ (v ⬝ᵥ M *ᵥ v) * ((M *ᵥ v) ⬝ᵥ M *ᵥ (M *ᵥ v)) := by
    have hle := hM.sq_le hsym v (M *ᵥ v)
    rwa [dotProduct_mulVec_comm hsym v] at hle
  rcases (hM v).eq_or_lt with hzero | hpos
  · rw [← hzero, zero_mul]
    exact hM _
  · refine le_of_mul_le_mul_left ?_ hpos
    calc (v ⬝ᵥ M *ᵥ v) * ((v ⬝ᵥ M *ᵥ v) * ((M *ᵥ v) ⬝ᵥ (M *ᵥ v)))
        = (v ⬝ᵥ M *ᵥ v) ^ 2 * ((M *ᵥ v) ⬝ᵥ (M *ᵥ v)) := by ring
      _ ≤ ((M *ᵥ v) ⬝ᵥ (M *ᵥ v)) * ((M *ᵥ v) ⬝ᵥ (M *ᵥ v)) :=
          mul_le_mul_of_nonneg_right hshort (dotProduct_self_nonneg _)
      _ = ((M *ᵥ v) ⬝ᵥ (M *ᵥ v)) ^ 2 := (pow_two _).symm
      _ ≤ (v ⬝ᵥ M *ᵥ v) * ((M *ᵥ v) ⬝ᵥ M *ᵥ (M *ᵥ v)) := hlong

/-- The magnitude of an entry, but on the diagonal the entry itself. -/
def reach (M : Matrix (Fin n) (Fin n) K) (i j : Fin n) : K := if i = j then M i j else |M i j|

omit [IsStrictOrderedRing K] in
theorem reach_comm (hsym : Mᵀ = M) (i j : Fin n) : reach M i j = reach M j i := by
  have hij : M i j = M j i := congrFun (congrFun hsym j) i
  unfold reach
  by_cases h : i = j
  · rw [if_pos h, if_pos h.symm, hij]
  · rw [if_neg h, if_neg (Ne.symm h), hij]

theorem term_le_reach (i j : Fin n) (x y : K) (hxy : i = j → x = y) :
    x * (M i j * y) ≤ reach M i j * (x * x + y * y) / 2 := by
  unfold reach
  split
  · next h =>
      rw [hxy h]
      linarith
  · have hterm : x * (M i j * y) ≤ |M i j| * |x * y| := by
      rw [← abs_mul]
      refine le_of_eq_of_le ?_ (le_abs_self _)
      ring
    have hmean : |x * y| ≤ (x * x + y * y) / 2 := by
      rw [abs_le]
      constructor
      · linarith [mul_self_nonneg (x + y)]
      · linarith [mul_self_nonneg (x - y)]
    calc x * (M i j * y) ≤ |M i j| * |x * y| := hterm
      _ ≤ |M i j| * ((x * x + y * y) / 2) := mul_le_mul_of_nonneg_left hmean (abs_nonneg _)
      _ = |M i j| * (x * x + y * y) / 2 := by ring

/-- A form is bounded by the largest sum of a diagonal entry and the magnitudes of the other entries of its row. -/
theorem form_le_of_reach (hsym : Mᵀ = M) {c : K} (hc : ∀ i, ∑ j, reach M i j ≤ c) (x : Fin n → K) :
    x ⬝ᵥ M *ᵥ x ≤ c * (x ⬝ᵥ x) := by
  have hswap : ∑ i, ∑ j, reach M i j * (x j * x j) = ∑ i, ∑ j, reach M i j * (x i * x i) := by
    rw [Finset.sum_comm]
    exact Finset.sum_congr rfl fun i _ => Finset.sum_congr rfl fun j _ => by rw [reach_comm hsym]
  calc x ⬝ᵥ M *ᵥ x = ∑ i, ∑ j, x i * (M i j * x j) := by
        simp only [dotProduct, Matrix.mulVec, Finset.mul_sum]
    _ ≤ ∑ i, ∑ j, reach M i j * (x i * x i + x j * x j) / 2 :=
        Finset.sum_le_sum fun i _ => Finset.sum_le_sum fun j _ => term_le_reach i j _ _ (congrArg x)
    _ = ∑ i, ∑ j, reach M i j * (x i * x i) := by
        simp only [mul_add, add_div, Finset.sum_add_distrib, ← Finset.sum_div, hswap]
        ring
    _ = ∑ i, (∑ j, reach M i j) * (x i * x i) := by simp only [Finset.sum_mul]
    _ ≤ ∑ i, c * (x i * x i) :=
        Finset.sum_le_sum fun i _ => mul_le_mul_of_nonneg_right (hc i) (mul_self_nonneg _)
    _ = c * (x ⬝ᵥ x) := by rw [← Finset.mul_sum, dotProduct]

end Forms

variable {K : Type} [ExactScalar K] {n m : Nat} {Q : SparseMatrix K}

/-! ## The bound on the eigenvalues -/

theorem le_maximum (v : Vector K n) (i : Fin n) : v.get i ≤ Vec.maximum v := by
  have hfold : ∀ (l : List K) (a : K), a ≤ l.foldl Scalar.max a ∧ ∀ b ∈ l, b ≤ l.foldl Scalar.max a := by
    intro l
    induction l with
    | nil => exact fun a => ⟨le_rfl, nofun⟩
    | cons b l ih =>
        intro a
        obtain ⟨hstart, hrest⟩ := ih (Scalar.max a b)
        rw [Scalar.max_eq_max] at hstart hrest
        rw [List.foldl_cons, Scalar.max_eq_max]
        refine ⟨(le_max_left a b).trans hstart, fun b' hb' => ?_⟩
        rcases List.mem_cons.mp hb' with rfl | hmem
        · exact (le_max_right a b').trans hstart
        · exact hrest b' hmem
  refine (hfold v.toList _).2 _ ?_
  rw [Vec.toList_eq_ofFn]
  exact List.mem_ofFn.mpr ⟨i, rfl⟩

/-- What an entry in column `j` adds to the bound of row `i`. -/
def rowShare (i j : Nat) (e : Nat × K) : K :=
  if e.1 = j then (if j = i then e.2 else 0) else if e.1 = i ∨ j = i then |e.2| else 0

theorem get_gershgorinFold (Q : SparseMatrix K) (i : Fin n) :
    ((List.range n).foldl (fun bound j => (Q.column j).foldl (fun bound e =>
        if e.1 = j then Vec.update bound j (· + e.2)
        else Vec.update (Vec.update bound e.1 (· + Scalar.abs e.2)) j (· + Scalar.abs e.2)) bound)
      (Vec.zeros n)).get i = ∑ j : Fin n, ((Q.column j).map (rowShare i j)).sum := by
  have hentry (j : Nat) (bound : Vector K n) (e : Nat × K) :
      (if e.1 = j then Vec.update bound j (· + e.2)
        else Vec.update (Vec.update bound e.1 (· + Scalar.abs e.2)) j (· + Scalar.abs e.2)).get i =
        bound.get i + rowShare i j e := by
    unfold rowShare
    by_cases he : e.1 = j
    · rw [if_pos he, if_pos he, Vec.get_update]
      split <;> simp
    · rw [if_neg he, if_neg he, Vec.get_update, Vec.get_update, Scalar.abs_eq_abs]
      by_cases hj : j = i
      · rw [if_pos hj, if_neg fun heq => he (heq.trans hj.symm), if_pos (.inr hj)]
      · rw [if_neg hj]
        by_cases hi : e.1 = i
        · rw [if_pos hi, if_pos (.inl hi)]
        · rw [if_neg hi, if_neg (not_or.mpr ⟨hi, hj⟩), add_zero]
  rw [SparseMatrix.get_foldl_add _ _ (fun j => ((Q.column j).map (rowShare i j)).sum) i fun bound j _ =>
      SparseMatrix.get_foldl_add _ _ (rowShare i j) i (fun bound e _ => hentry j bound e) bound,
    Vec.get_zeros, zero_add, ← List.map_coe_finRange_eq_range, List.map_map, SparseMatrix.sum_map_finRange]
  rfl

/-- An entry off the diagonal counts in its row. -/
theorem abs_sumAt_le {i j : Nat} (hij : i ≠ j) (entries : List (Nat × K)) :
    |SparseMatrix.sumAt i entries| ≤ (entries.map (rowShare i j)).sum := by
  induction entries with
  | nil => simp
  | cons e entries ih =>
      rw [SparseMatrix.sumAt_cons, List.map_cons, List.sum_cons]
      refine (abs_add_le _ _).trans (add_le_add ?_ ih)
      unfold rowShare
      by_cases hi : e.1 = i
      · rw [if_pos hi, if_neg fun heq => hij (hi.symm.trans heq), if_pos (.inl hi)]
      · rw [if_neg hi, abs_zero]
        by_cases hj : e.1 = j
        · rw [if_pos hj, if_neg hij.symm]
        · rw [if_neg hj, if_neg (not_or.mpr ⟨hi, hij.symm⟩)]

/-- An entry off the diagonal counts in its column, too. -/
theorem sumAt_add_le (i : Fin n) (entries : List (Nat × K)) :
    SparseMatrix.sumAt i entries + ∑ r ∈ Finset.univ.erase i, |SparseMatrix.sumAt r entries| ≤
      (entries.map (rowShare i i)).sum := by
  induction entries with
  | nil => simp
  | cons e entries ih =>
      have hhead : (if e.1 = i then e.2 else 0) + ∑ r ∈ Finset.univ.erase i, |if e.1 = r then e.2 else 0| ≤
          rowShare i i e := by
        unfold rowShare
        by_cases hi : e.1 = i
        · have hzero : ∑ r ∈ Finset.univ.erase i, |if e.1 = r then e.2 else 0| = 0 := by
            refine Finset.sum_eq_zero fun r hr => ?_
            rw [if_neg fun heq => Finset.ne_of_mem_erase hr (Fin.ext (heq.symm.trans hi)), abs_zero]
          rw [hzero, if_pos hi, if_pos hi, if_pos rfl, add_zero]
        · rw [if_neg hi, if_neg hi, if_pos (.inr rfl), zero_add]
          by_cases he : e.1 < n
          · have hmem : (⟨e.1, he⟩ : Fin n) ∈ Finset.univ.erase i :=
              Finset.mem_erase.mpr ⟨fun heq => hi (congrArg Fin.val heq), Finset.mem_univ _⟩
            rw [Finset.sum_eq_single_of_mem _ hmem fun r _ hr => by
              rw [if_neg fun heq => hr (Fin.ext heq.symm), abs_zero], if_pos rfl]
          · have hzero : ∑ r ∈ Finset.univ.erase i, |if e.1 = r then e.2 else 0| = 0 := by
              refine Finset.sum_eq_zero fun r _ => ?_
              rw [if_neg (by omega), abs_zero]
            rw [hzero]
            exact abs_nonneg _
      have htail : ∑ r ∈ Finset.univ.erase i, |SparseMatrix.sumAt r (e :: entries)| ≤
          ∑ r ∈ Finset.univ.erase i, |if e.1 = r then e.2 else 0| +
            ∑ r ∈ Finset.univ.erase i, |SparseMatrix.sumAt r entries| := by
        rw [← Finset.sum_add_distrib]
        refine Finset.sum_le_sum fun r _ => ?_
        rw [SparseMatrix.sumAt_cons]
        exact abs_add_le _ _
      rw [List.map_cons, List.sum_cons, SparseMatrix.sumAt_cons]
      linarith

theorem reach_symMatrix_le (Q : SparseMatrix K) (i : Fin n) :
    ∑ j, reach (Q.symMatrix n) i j ≤ ∑ j : Fin n, ((Q.column j).map (rowShare i j)).sum := by
  have hother : ∀ j ∈ Finset.univ.erase i, reach (Q.symMatrix n) i j ≤ |Q.entry j i| + |Q.entry i j| := by
    intro j hj
    rw [reach, if_neg (Finset.ne_of_mem_erase hj).symm, SparseMatrix.symMatrix, Matrix.of_apply]
    split
    · exact le_add_of_nonneg_left (abs_nonneg _)
    · exact le_add_of_nonneg_right (abs_nonneg _)
  have hself : reach (Q.symMatrix n) i i = Q.entry i i := by
    rw [reach, if_pos rfl, SparseMatrix.symMatrix, Matrix.of_apply, if_pos le_rfl]
  have hcolumns : ∑ j ∈ Finset.univ.erase i, |Q.entry i j| ≤
      ∑ j ∈ Finset.univ.erase i, ((Q.column j).map (rowShare i j)).sum :=
    Finset.sum_le_sum fun j hj =>
      abs_sumAt_le (fun heq => Finset.ne_of_mem_erase hj (Fin.ext heq.symm)) (Q.column j)
  have hcolumn : Q.entry i i + ∑ j ∈ Finset.univ.erase i, |Q.entry j i| ≤ ((Q.column i).map (rowShare i i)).sum :=
    sumAt_add_le i (Q.column i)
  have hothers := Finset.sum_le_sum hother
  rw [Finset.sum_add_distrib] at hothers
  rw [← Finset.add_sum_erase _ _ (Finset.mem_univ i), ← Finset.add_sum_erase _ _ (Finset.mem_univ i), hself]
  linarith

/-- The matrix that the power iteration multiplies with. -/
def shiftedCost (Q : SparseMatrix K) (n : Nat) : Matrix (Fin n) (Fin n) K :=
  gershgorinBound Q n • 1 - Q.symMatrix n

theorem shiftedCost_form (Q : SparseMatrix K) (x : Fin n → K) :
    x ⬝ᵥ shiftedCost Q n *ᵥ x = gershgorinBound Q n * (x ⬝ᵥ x) - x ⬝ᵥ Q.symMatrix n *ᵥ x := by
  rw [shiftedCost, Matrix.sub_mulVec, Matrix.smul_mulVec, Matrix.one_mulVec, dotProduct_sub, dotProduct_smul, smul_eq_mul]

theorem transpose_shiftedCost (Q : SparseMatrix K) (n : Nat) : (shiftedCost Q n)ᵀ = shiftedCost Q n := by
  rw [shiftedCost, Matrix.transpose_sub, Matrix.transpose_smul, Matrix.transpose_one, Q.transpose_symMatrix]

theorem sum_reach_le (Q : SparseMatrix K) (i : Fin n) : ∑ j, reach (Q.symMatrix n) i j ≤ gershgorinBound Q n := by
  apply (reach_symMatrix_le Q i).trans
  rw [← get_gershgorinFold]
  exact le_maximum _ i

/-- The bound leaves no eigenvalue of the cost above it. -/
theorem posSemidef_shiftedCost (Q : SparseMatrix K) (n : Nat) : PosSemidef (shiftedCost Q n) := by
  intro x
  rw [shiftedCost_form]
  exact sub_nonneg.mpr (form_le_of_reach (Q.transpose_symMatrix n) (sum_reach_le Q) x)

/-! ## The power iteration -/

/-- The roots of numbers that are not negative are exact, as those of the real numbers are. -/
def ExactRoots (K : Type) [ExactScalar K] : Prop := ∀ a : K, 0 ≤ a → Scalar.sqrt a * Scalar.sqrt a = a

theorem Sample.exactRoots_real : ExactRoots ℝ := fun _ ha => Real.mul_self_sqrt ha

theorem norm_mul_norm (hroots : ExactRoots K) (v : Vector K n) : Vec.norm v * Vec.norm v = v.get ⬝ᵥ v.get := by
  rw [Vec.norm, Vec.sumSq, Vec.dot_eq_dotProduct]
  exact hroots _ (dotProduct_self_nonneg _)

/-- A vector divided by its norm. -/
def unit (v : Vector K n) : Vector K n := v.map (· / Vec.norm v)

theorem get_unit (v : Vector K n) : (unit v).get = (Vec.norm v)⁻¹ • v.get := by
  ext i
  rw [unit, Vec.get_map, Pi.smul_apply, smul_eq_mul, div_eq_inv_mul]

theorem dotProduct_unit (hroots : ExactRoots K) {v : Vector K n} (hv : Vec.norm v ≠ 0) :
    (unit v).get ⬝ᵥ (unit v).get = 1 := by
  rw [get_unit, smul_dotProduct, dotProduct_smul, smul_eq_mul, smul_eq_mul, ← norm_mul_norm hroots v]
  field_simp

/-- The image of a vector, in whose direction the iteration goes on. -/
def image (Q : SparseMatrix K) (v : Vector K n) : Vector K n := Q.symMulAdd v v (-1) (gershgorinBound Q n)

theorem get_image (hQ : Q.Upper) (hcols : Q.cols = n) (v : Vector K n) :
    (image Q v).get = shiftedCost Q n *ᵥ v.get := by
  ext i
  rw [image, SparseMatrix.get_symMulAdd hQ hcols, shiftedCost, Matrix.sub_mulVec, Matrix.smul_mulVec,
    Matrix.one_mulVec, Pi.sub_apply, Pi.smul_apply, smul_eq_mul]
  ring

/-- The curvature of the shifted cost along a vector. -/
def rayleigh (Q : SparseMatrix K) (v : Vector K n) : K := v.get ⬝ᵥ shiftedCost Q n *ᵥ v.get

theorem rayleigh_unit (Q : SparseMatrix K) {v : Vector K n} (hv : v.get ⬝ᵥ v.get = 1) :
    rayleigh Q v = gershgorinBound Q n - v.get ⬝ᵥ Q.symMatrix n *ᵥ v.get := by
  rw [rayleigh, shiftedCost_form, hv, mul_one]

/-- A step of the iteration either ends it with the curvature along the present vector, or goes on along the image. -/
theorem powerIterate_succ (hQ : Q.Upper) (hcols : Q.cols = n) (steps : Nat) (v : Vector K n) (mu : K) :
    powerIterate Q (gershgorinBound Q n) (steps + 1) v mu = rayleigh Q v ∨
      Vec.norm (image Q v) ≠ 0 ∧ powerIterate Q (gershgorinBound Q n) (steps + 1) v mu =
        powerIterate Q (gershgorinBound Q n) steps (unit (image Q v)) (rayleigh Q v) := by
  have hdot : Vec.dot v (image Q v) = rayleigh Q v := by
    rw [Vec.dot_eq_dotProduct, get_image hQ hcols, rayleigh]
  rw [image] at hdot
  rw [powerIterate]
  simp only [hdot]
  split
  · exact .inl rfl
  · next hgo =>
      refine .inr ⟨fun hzero => hgo ?_, rfl⟩
      rw [image] at hzero
      simp [hzero]

/-- One step of the iteration does not lower the curvature. -/
theorem rayleigh_le_next (hroots : ExactRoots K) (hQ : Q.Upper) (hcols : Q.cols = n) {v : Vector K n}
    (hv : v.get ⬝ᵥ v.get = 1) (hnorm : Vec.norm (image Q v) ≠ 0) : rayleigh Q v ≤ rayleigh Q (unit (image Q v)) := by
  have hsq : Vec.norm (image Q v) * Vec.norm (image Q v) =
      (shiftedCost Q n *ᵥ v.get) ⬝ᵥ (shiftedCost Q n *ᵥ v.get) := by
    rw [norm_mul_norm hroots, get_image hQ hcols]
  have hpos : 0 < Vec.norm (image Q v) * Vec.norm (image Q v) := mul_self_pos.mpr hnorm
  have hle := (posSemidef_shiftedCost Q n).rayleigh_le (transpose_shiftedCost Q n) hv
  rw [← hsq] at hle
  rw [rayleigh, rayleigh, get_unit, get_image hQ hcols, form_smul, ← mul_inv, inv_mul_eq_div]
  exact (le_div_iff₀ hpos).mpr hle

/-- The estimate of the iteration is at least the curvature along its start. -/
theorem rayleigh_le_powerIterate (hroots : ExactRoots K) (hQ : Q.Upper) (hcols : Q.cols = n) (steps : Nat)
    {v : Vector K n} (hv : v.get ⬝ᵥ v.get = 1) (mu : K) :
    rayleigh Q v ≤ powerIterate Q (gershgorinBound Q n) (steps + 1) v mu := by
  induction steps generalizing v mu with
  | zero =>
      rcases powerIterate_succ hQ hcols 0 v mu with heq | ⟨-, heq⟩
      · exact heq.ge
      · exact heq.ge
  | succ steps ih =>
      rcases powerIterate_succ hQ hcols (steps + 1) v mu with heq | ⟨hnorm, heq⟩
      · exact heq.ge
      · rw [heq]
        exact (rayleigh_le_next hroots hQ hcols hv hnorm).trans (ih (dotProduct_unit hroots hnorm) _)

/-- The iteration does not leave an invariant space, so that its estimate obeys a bound on the curvatures there. -/
theorem powerIterate_le (hroots : ExactRoots K) (hQ : Q.Upper) (hcols : Q.cols = n) {V : Submodule K (Fin n → K)}
    (hV : ∀ x ∈ V, Q.symMatrix n *ᵥ x ∈ V) {b : K}
    (hb : ∀ v : Vector K n, v.get ∈ V → v.get ⬝ᵥ v.get = 1 → rayleigh Q v ≤ b) (steps : Nat) {v : Vector K n}
    (hmem : v.get ∈ V) (hv : v.get ⬝ᵥ v.get = 1) (mu : K) :
    powerIterate Q (gershgorinBound Q n) (steps + 1) v mu ≤ b := by
  induction steps generalizing v mu with
  | zero =>
      rcases powerIterate_succ hQ hcols 0 v mu with heq | ⟨-, heq⟩
      · exact heq.trans_le (hb v hmem hv)
      · exact heq.trans_le (hb v hmem hv)
  | succ steps ih =>
      rcases powerIterate_succ hQ hcols (steps + 1) v mu with heq | ⟨hnorm, heq⟩
      · exact heq.trans_le (hb v hmem hv)
      · have hnext : (unit (image Q v)).get ∈ V := by
          rw [get_unit, get_image hQ hcols, shiftedCost, Matrix.sub_mulVec, Matrix.smul_mulVec, Matrix.one_mulVec]
          exact V.smul_mem _ (V.sub_mem (V.smul_mem _ hmem) (hV _ hmem))
        rw [heq]
        exact ih hnext (dotProduct_unit hroots hnorm) _

/-! ## The start -/

theorem Scalar.ratio_eq_div (i n : Nat) : (Scalar.ratio i n : K) = i / n := ExactScalar.exact_ratio i n

/-- The direction in which the iteration starts. -/
def startDirection (K : Type) [ExactScalar K] (n : Nat) : Fin n → K := fun i => 1 + (i.val : K) / n

theorem startDirection_pos (i : Fin n) : 0 < startDirection K n i := by
  rw [startDirection]
  positivity

theorem dotProduct_startDirection_pos (hn : n ≠ 0) : 0 < startDirection K n ⬝ᵥ startDirection K n :=
  Finset.sum_pos (fun i _ => mul_pos (startDirection_pos i) (startDirection_pos i))
    ⟨⟨0, Nat.pos_of_ne_zero hn⟩, Finset.mem_univ _⟩

theorem get_ofFn_ratio (n : Nat) :
    (Vector.ofFn fun i : Fin n => 1 + Scalar.ratio i n : Vector K n).get = startDirection K n := by
  ext i
  rw [Vec.get_ofFn, Scalar.ratio_eq_div, startDirection]

/-- The start is a unit vector in its direction. -/
theorem exists_get_powerStart (hroots : ExactRoots K) (hn : n ≠ 0) :
    ∃ s : K, (powerStart n : Vector K n).get = s • startDirection K n ∧
      s * s * (startDirection K n ⬝ᵥ startDirection K n) = 1 := by
  have hsq := norm_mul_norm hroots (Vector.ofFn fun i : Fin n => 1 + Scalar.ratio i n : Vector K n)
  rw [get_ofFn_ratio] at hsq
  refine ⟨(Vec.norm (Vector.ofFn fun i : Fin n => 1 + Scalar.ratio i n : Vector K n))⁻¹, ?_, ?_⟩
  · ext i
    rw [powerStart, Vec.get_scale, Scalar.recip_eq_inv, get_ofFn_ratio, Pi.smul_apply, smul_eq_mul, mul_comm]
  · rw [← mul_inv, hsq]
    exact inv_mul_cancel₀ (dotProduct_startDirection_pos hn).ne'

/-! ## The estimate -/

theorem minEigenvalue_eq (Q : SparseMatrix K) (hn : n ≠ 0) :
    minEigenvalue Q n = gershgorinBound Q n - powerIterate Q (gershgorinBound Q n) (99 + 1) (powerStart n) 0 := by
  rw [minEigenvalue, if_neg hn]
  rfl

/-- The estimate is not above the curvature along the start. -/
theorem minEigenvalue_le (hroots : ExactRoots K) (hQ : Q.Upper) (hcols : Q.cols = n) (hn : n ≠ 0) :
    minEigenvalue Q n * (startDirection K n ⬝ᵥ startDirection K n) ≤
      startDirection K n ⬝ᵥ Q.symMatrix n *ᵥ startDirection K n := by
  obtain ⟨s, hget, hs⟩ := exists_get_powerStart (K := K) hroots hn
  have hunit : (powerStart n : Vector K n).get ⬝ᵥ (powerStart n : Vector K n).get = 1 := by
    rw [hget, smul_dotProduct, dotProduct_smul, smul_eq_mul, smul_eq_mul, ← mul_assoc, hs]
  have hle := rayleigh_le_powerIterate hroots hQ hcols 99 hunit 0
  rw [rayleigh_unit Q hunit, hget, form_smul] at hle
  have hestimate : minEigenvalue Q n ≤ s * s * (startDirection K n ⬝ᵥ Q.symMatrix n *ᵥ startDirection K n) := by
    rw [minEigenvalue_eq Q hn]
    linarith
  calc minEigenvalue Q n * (startDirection K n ⬝ᵥ startDirection K n)
      ≤ s * s * (startDirection K n ⬝ᵥ Q.symMatrix n *ᵥ startDirection K n) *
          (startDirection K n ⬝ᵥ startDirection K n) :=
        mul_le_mul_of_nonneg_right hestimate (dotProduct_self_nonneg _)
    _ = s * s * (startDirection K n ⬝ᵥ startDirection K n) *
          (startDirection K n ⬝ᵥ Q.symMatrix n *ᵥ startDirection K n) := by ring
    _ = startDirection K n ⬝ᵥ Q.symMatrix n *ᵥ startDirection K n := by rw [hs, one_mul]

/-- The estimate knows nothing of curvatures outside of an invariant space that the start lies in. -/
theorem le_minEigenvalue (hroots : ExactRoots K) (hQ : Q.Upper) (hcols : Q.cols = n) (hn : n ≠ 0)
    {V : Submodule K (Fin n → K)} (hV : ∀ x ∈ V, Q.symMatrix n *ᵥ x ∈ V) (hstart : startDirection K n ∈ V) {a : K}
    (ha : ∀ x ∈ V, a * (x ⬝ᵥ x) ≤ x ⬝ᵥ Q.symMatrix n *ᵥ x) : a ≤ minEigenvalue Q n := by
  obtain ⟨s, hget, hs⟩ := exists_get_powerStart (K := K) hroots hn
  have hunit : (powerStart n : Vector K n).get ⬝ᵥ (powerStart n : Vector K n).get = 1 := by
    rw [hget, smul_dotProduct, dotProduct_smul, smul_eq_mul, smul_eq_mul, ← mul_assoc, hs]
  have hb : ∀ v : Vector K n, v.get ∈ V → v.get ⬝ᵥ v.get = 1 → rayleigh Q v ≤ gershgorinBound Q n - a := by
    intro v hmem hv
    have hform := ha _ hmem
    rw [hv, mul_one] at hform
    rw [rayleigh_unit Q hv]
    linarith
  have hle := powerIterate_le hroots hQ hcols hV hb 99 (hget ▸ V.smul_mem s hstart) hunit 0
  rw [minEigenvalue_eq Q hn]
  linarith

/-- If the start happens to be an eigenvector, the estimate is its eigenvalue, whatever the other eigenvalues are. -/
theorem minEigenvalue_of_eigenvector (hroots : ExactRoots K) (hQ : Q.Upper) (hcols : Q.cols = n) (hn : n ≠ 0) {a : K}
    (h : Q.symMatrix n *ᵥ startDirection K n = a • startDirection K n) : minEigenvalue Q n = a := by
  refine le_antisymm ?_ ?_
  · have hle := minEigenvalue_le hroots hQ hcols hn
    rw [h, dotProduct_smul, smul_eq_mul] at hle
    exact le_of_mul_le_mul_right hle (dotProduct_startDirection_pos hn)
  · refine le_minEigenvalue hroots hQ hcols hn (V := K ∙ startDirection K n) (fun x hx => ?_)
      (Submodule.mem_span_singleton_self _) fun x hx => ?_
    · obtain ⟨t, rfl⟩ := Submodule.mem_span_singleton.mp hx
      rw [Matrix.mulVec_smul, h]
      exact Submodule.smul_mem _ _ (Submodule.smul_mem _ _ (Submodule.mem_span_singleton_self _))
    · obtain ⟨t, rfl⟩ := Submodule.mem_span_singleton.mp hx
      rw [form_smul, h, smul_dotProduct, dotProduct_smul, dotProduct_smul, smul_eq_mul, smul_eq_mul, smul_eq_mul]
      exact (by ring : _ = _).le

end AugLag
