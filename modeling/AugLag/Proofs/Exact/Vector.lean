import AugLag.Proofs.Exact.Scalar
import AugLag.Vec.Norm
import Mathlib.Data.Matrix.Mul

/-!
# Vectors in exact arithmetic

A vector stands for the function of its elements. Sums are then inner products, since nothing is lost that
would have to be compensated, and the maximum norms are maxima of magnitudes.
-/

namespace AugLag

variable {K : Type} [ExactScalar K] {n : Nat}

/-- The largest magnitude among the components. -/
def maxNorm (v : Fin n → K) : K := Finset.univ.fold max 0 fun i => |v i|

theorem maxNorm_le_iff {v : Fin n → K} {c : K} : maxNorm v ≤ c ↔ 0 ≤ c ∧ ∀ i, |v i| ≤ c := by
  simp [maxNorm, Finset.fold_max_le]

theorem maxNorm_nonneg (v : Fin n → K) : 0 ≤ maxNorm v := (maxNorm_le_iff.mp le_rfl).1

theorem maxNorm_zero : maxNorm (0 : Fin n → K) = 0 :=
  le_antisymm (maxNorm_le_iff.mpr ⟨le_rfl, fun _ => abs_zero.le⟩) (maxNorm_nonneg 0)

theorem maxNorm_mul_left {c : K} (hc : 0 ≤ c) (v : Fin n → K) :
    maxNorm (fun i => c * v i) = c * maxNorm v := by
  rcases hc.eq_or_lt with rfl | hpos
  · refine le_antisymm (maxNorm_le_iff.mpr ⟨by simp, by simp⟩) ?_
    simpa using maxNorm_nonneg fun i => 0 * v i
  · refine eq_of_forall_ge_iff fun b => ?_
    rw [mul_comm c, ← le_div_iff₀ hpos, maxNorm_le_iff, maxNorm_le_iff]
    simp only [abs_mul, abs_of_pos hpos, le_div_iff₀ hpos, zero_mul, mul_comm c]

theorem maxNorm_mul_right (v : Fin n → K) {c : K} (hc : 0 ≤ c) :
    maxNorm v * c = maxNorm fun i => v i * c := by
  rw [mul_comm, ← maxNorm_mul_left hc]
  exact congrArg maxNorm (funext fun i => mul_comm _ _)

theorem abs_le_maxNorm (v : Fin n → K) (i : Fin n) : |v i| ≤ maxNorm v := (maxNorm_le_iff.mp le_rfl).2 i

theorem abs_dotProduct_le (v w : Fin n → K) : |v ⬝ᵥ w| ≤ (∑ i, |v i|) * maxNorm w := by
  calc |v ⬝ᵥ w| ≤ ∑ i, |v i * w i| := Finset.abs_sum_le_sum_abs _ _
    _ = ∑ i, |v i| * |w i| := Finset.sum_congr rfl fun i _ => abs_mul _ _
    _ ≤ ∑ i, |v i| * maxNorm w :=
        Finset.sum_le_sum fun i _ => mul_le_mul_of_nonneg_left (abs_le_maxNorm w i) (abs_nonneg _)
    _ = (∑ i, |v i|) * maxNorm w := (Finset.sum_mul ..).symm

namespace Vec

/-! ## Elements -/

theorem get_eq_getElem {α : Type} (v : Vector α n) (i : Fin n) : v.get i = v[i.val] := rfl

@[simp] theorem get_scale (v : Vector K n) (c : K) (i : Fin n) : (scale v c).get i = v.get i * c := by
  simp [scale, get_eq_getElem]

@[simp] theorem get_hadamard (v w : Vector K n) (i : Fin n) : (hadamard v w).get i = v.get i * w.get i := by
  simp [hadamard, get_eq_getElem]

@[simp] theorem get_recip (v : Vector K n) (i : Fin n) : (recip v).get i = (v.get i)⁻¹ := by
  simp [recip, get_eq_getElem]

@[simp] theorem get_fill {α : Type} [Scalar α] (c : α) (i : Fin n) : (fill n c).get i = c := by
  simp [fill, get_eq_getElem]

@[simp] theorem get_zeros (i : Fin n) : (zeros n : Vector K n).get i = 0 := get_fill 0 i

@[simp] theorem get_clamp (v : Vector K n) (lo hi : K) (i : Fin n) :
    (clamp v lo hi).get i = Scalar.clamp (v.get i) lo hi := by
  simp [clamp, get_eq_getElem]

@[simp] theorem get_combine (a : K) (x : Vector K n) (b : K) (y : Vector K n) (i : Fin n) :
    (combine a x b y).get i = a * x.get i + b * y.get i := by
  simp [combine, get_eq_getElem]

@[simp] theorem get_ofFn {α : Type} (f : Fin n → α) (i : Fin n) : (Vector.ofFn f).get i = f i := by
  simp [get_eq_getElem]

@[simp] theorem get_zipWith {α β γ : Type} (f : α → β → γ) (v : Vector α n) (w : Vector β n) (i : Fin n) :
    (Vector.zipWith f v w).get i = f (v.get i) (w.get i) := by
  simp [get_eq_getElem]

@[simp] theorem get_map {α β : Type} (f : α → β) (v : Vector α n) (i : Fin n) :
    (v.map f).get i = f (v.get i) := by
  simp [get_eq_getElem]

@[simp] theorem get_mapIdx {α β : Type} (f : Nat → α → β) (v : Vector α n) (i : Fin n) :
    (v.mapIdx f).get i = f i (v.get i) := by
  simp [get_eq_getElem]

theorem ext_get {α : Type} {v w : Vector α n} (h : ∀ i, v.get i = w.get i) : v = w := by
  ext i hi
  exact h ⟨i, hi⟩

theorem toList_eq_ofFn {α : Type} (v : Vector α n) : v.toList = List.ofFn v.get := by
  refine List.ext_getElem (by simp) fun i h₁ h₂ => ?_
  simp [get_eq_getElem]

theorem toArray_eq_ofFn {α : Type} (v : Vector α n) : v.toArray = Array.ofFn v.get := by
  refine Array.ext (by simp) fun i h₁ h₂ => ?_
  simp [get_eq_getElem]

theorem get_eq_of_lt {α : Type} [Scalar α] (v : Vector α n) (i : Fin n) : get v i = v.get i := by
  simp [get, get_eq_getElem]

theorem get_eq_zero_of_le (v : Vector K n) {i : Nat} (h : n ≤ i) : get v i = 0 := by
  simp [get, h]

/-- An update touches one element, and none outside of the vector. -/
theorem get_update {α : Type} [Scalar α] (v : Vector α n) (k : Nat) (f : α → α) (i : Fin n) :
    (update v k f).get i = if k = i then f (v.get i) else v.get i := by
  simp [update, get_eq_getElem, Array.getElem_modify]

/-! ## Sums -/

theorem foldl_compensate (terms : List K) (acc : K × K) :
    terms.foldl compensate acc = (acc.1 + terms.sum, acc.2) := by
  induction terms generalizing acc with
  | nil => simp
  | cons v terms ih =>
      have hstep : compensate acc v = (acc.1 + v, acc.2) := by
        unfold compensate
        split <;> simp
      rw [List.foldl_cons, ih, hstep, List.sum_cons, add_assoc]

theorem compensatedSum_eq_sum (terms : List K) : compensatedSum terms = terms.sum := by
  simp [compensatedSum, foldl_compensate]

theorem dot_eq_dotProduct (v w : Vector K n) : dot v w = v.get ⬝ᵥ w.get := by
  rw [dot, compensatedSum_eq_sum, toList_eq_ofFn, List.sum_ofFn]
  simp [dotProduct]

/-! ## Norms -/

theorem foldl_max_le_iff (terms : List K) (b c : K) :
    terms.foldl (fun m x => Scalar.max m (Scalar.abs x)) b ≤ c ↔ b ≤ c ∧ ∀ x ∈ terms, |x| ≤ c := by
  induction terms generalizing b with
  | nil => simp
  | cons x terms ih =>
      rw [List.foldl_cons, ih, Scalar.max_eq_max, Scalar.abs_eq_abs, max_le_iff, List.forall_mem_cons, and_assoc]

theorem maxAbs_toList (v : Vector K n) : maxAbs v.toList = maxNorm v.get := by
  refine eq_of_forall_ge_iff fun c => ?_
  rw [maxAbs, foldl_max_le_iff, maxNorm_le_iff, toList_eq_ofFn]
  simp [List.mem_ofFn]

theorem normInf_eq_maxNorm (v : Vector K n) : normInf v = maxNorm v.get := by
  have hany : v.any Scalar.isNaN = false := by
    rw [show (Scalar.isNaN : K → Bool) = fun _ => false from funext Scalar.isNaN_eq_false, ← Vector.any_toArray]
    exact Array.any_eq_false.mpr fun _ _ => Bool.false_ne_true
  rw [normInf, hany, if_neg Bool.false_ne_true, maxAbs_toList]

theorem normInfScaled_eq_maxNorm (v w : Vector K n) :
    normInfScaled v w = maxNorm fun i => v.get i * w.get i := by
  rw [normInfScaled, maxAbs_toList, funext (get_zipWith (· * ·) v w)]

end Vec
end AugLag
