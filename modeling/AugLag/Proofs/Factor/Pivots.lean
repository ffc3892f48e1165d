import Mathlib.LinearAlgebra.Matrix.NonsingularInverse
import Mathlib.LinearAlgebra.Matrix.Nondegenerate
import Mathlib.LinearAlgebra.Matrix.Block
import Mathlib.LinearAlgebra.FiniteDimensional.Lemmas
import Mathlib.Tactic

/-!
# Triangular factors and pivots

A symmetric matrix `a = ℓ d ℓᵀ` with a unit lower triangular `ℓ` shows in its pivots `d` what it does to vectors.
To every pivot belongs a vector that ends with a one at its place, and that the matrix maps to zeros before this
place and to the pivot there. Elimination may stop early, so the factors are sequences that are used up to some row.
-/

namespace AugLag

open scoped Matrix

variable {K : Type} [Field K] {N : Nat}

/-- Ones on the diagonal, and zeros above it. -/
structure UnitLower (ℓ : Nat → Nat → K) : Prop where
  one : ∀ i, ℓ i i = 1
  zero : ∀ i t, i < t → ℓ i t = 0

/-- The first `k` rows and columns are the product of the factors. -/
def Eliminated (a ℓ : Nat → Nat → K) (d : Nat → K) (k : Nat) : Prop :=
  ∀ i < k, ∀ j < k, a i j = ∑ t ∈ Finset.range k, ℓ i t * d t * ℓ j t

/-- The leading rows and columns of an infinite table. -/
def leading (N : Nat) (a : Nat → Nat → K) : Matrix (Fin N) (Fin N) K := .of fun i j => a i j

/-! ## Sums along rows of a triangular factor -/

/-- Terms behind the diagonal do not count. -/
theorem UnitLower.sum_range {ℓ : Nat → Nat → K} (h : UnitLower ℓ) (f : Nat → K) {i k : Nat} (hik : i < k) :
    ∑ t ∈ Finset.range k, ℓ i t * f t = (∑ t ∈ Finset.range i, ℓ i t * f t) + f i := by
  have hsub : Finset.range (i + 1) ⊆ Finset.range k := Finset.range_subset_range.mpr hik
  rw [← Finset.sum_subset hsub fun t _ ht => ?_, Finset.sum_range_succ, h.one, one_mul]
  rw [Finset.mem_range, not_lt] at ht
  rw [h.zero i t ht, zero_mul]

theorem Eliminated.entry {a ℓ : Nat → Nat → K} {d : Nat → K} {k : Nat} (h : Eliminated a ℓ d k) (hℓ : UnitLower ℓ)
    {i j : Nat} (hi : i < k) (hj : j < k) :
    a i j = (∑ t ∈ Finset.range i, ℓ i t * (d t * ℓ j t)) + d i * ℓ j i := by
  rw [h i hi j hj, ← hℓ.sum_range (fun t => d t * ℓ j t) hi]
  exact Finset.sum_congr rfl fun t _ => mul_assoc _ _ _

/-- Elimination can be checked entry by entry on and above the diagonal. -/
theorem eliminated_of_entry {a ℓ : Nat → Nat → K} {d : Nat → K} {k : Nat} (hℓ : UnitLower ℓ)
    (hsymm : ∀ i j, a i j = a j i)
    (h : ∀ j < k, ∀ i ≤ j, a i j = (∑ t ∈ Finset.range i, ℓ i t * (d t * ℓ j t)) + d i * ℓ j i) :
    Eliminated a ℓ d k := by
  have hupper : ∀ i j, i ≤ j → j < k → a i j = ∑ t ∈ Finset.range k, ℓ i t * d t * ℓ j t := by
    intro i j hij hj
    rw [h j hj i hij, ← hℓ.sum_range (fun t => d t * ℓ j t) (hij.trans_lt hj)]
    exact Finset.sum_congr rfl fun t _ => (mul_assoc _ _ _).symm
  intro i hi j hj
  rcases le_total i j with hij | hji
  · exact hupper i j hij hj
  · rw [hsymm, hupper j i hji hi]
    refine Finset.sum_congr rfl fun t _ => ?_
    ring

theorem Eliminated.mono {a ℓ : Nat → Nat → K} {d : Nat → K} {k l : Nat} (h : Eliminated a ℓ d l) (hℓ : UnitLower ℓ)
    (hkl : k ≤ l) : Eliminated a ℓ d k := by
  intro i hi j hj
  have hshort := hℓ.sum_range (fun t => d t * ℓ j t) hi
  simp only [← mul_assoc] at hshort
  rw [hshort, h.entry hℓ (hi.trans_le hkl) (hj.trans_le hkl)]
  simp only [mul_assoc]

/-- The factors of a matrix are unique. -/
theorem Eliminated.unique {a ℓ ℓ' : Nat → Nat → K} {d d' : Nat → K} {k : Nat} (h : Eliminated a ℓ d k)
    (h' : Eliminated a ℓ' d' k) (hℓ : UnitLower ℓ) (hℓ' : UnitLower ℓ') (hd : ∀ t < k, d t ≠ 0) :
    ∀ t < k, d t = d' t ∧ ∀ i < k, ℓ i t = ℓ' i t := by
  intro t
  induction t using Nat.strong_induction_on with
  | h t ih =>
      intro ht
      have hentry : ∀ j < k, d t * ℓ j t = d' t * ℓ' j t := by
        intro j hj
        have heq := (h.entry hℓ ht hj).symm.trans (h'.entry hℓ' ht hj)
        have hsum : ∑ s ∈ Finset.range t, ℓ t s * (d s * ℓ j s) = ∑ s ∈ Finset.range t, ℓ' t s * (d' s * ℓ' j s) := by
          refine Finset.sum_congr rfl fun s hs => ?_
          rw [Finset.mem_range] at hs
          obtain ⟨hds, hℓs⟩ := ih s hs (hs.trans ht)
          rw [hds, hℓs t ht, hℓs j hj]
        rw [hsum] at heq
        exact add_left_cancel heq
      have hdt : d t = d' t := by
        have hpivot := hentry t ht
        rwa [hℓ.one, hℓ'.one, mul_one, mul_one] at hpivot
      refine ⟨hdt, fun i hi => mul_left_cancel₀ (hd t ht) ?_⟩
      rw [hentry i hi, hdt]

/-! ## The vectors of the pivots -/

theorem UnitLower.det_leading {ℓ : Nat → Nat → K} (h : UnitLower ℓ) (N : Nat) : (leading N ℓ).det = 1 := by
  have hlower : (leading N ℓ).IsLowerTriangular := fun i t hit => h.zero i t hit
  rw [Matrix.det_of_isLowerTriangular _ hlower]
  exact Finset.prod_eq_one fun i _ => h.one i

/-- No other vector than zero is orthogonal to all columns of the factor. -/
theorem UnitLower.eq_zero {ℓ : Nat → Nat → K} (h : UnitLower ℓ) {z : Fin N → K} (hz : (leading N ℓ)ᵀ *ᵥ z = 0) :
    z = 0 := by
  refine Matrix.eq_zero_of_mulVec_eq_zero ?_ hz
  rw [Matrix.det_transpose, h.det_leading]
  exact one_ne_zero

/-- A matrix maps this vector to zeros before place `k` and to `pivot` there, and the vector ends with a one there. -/
structure PivotVector (M : Matrix (Fin N) (Fin N) K) (k : Fin N) (pivot : K) (v : Fin N → K) : Prop where
  one : v k = 1
  zero : ∀ i, k < i → v i = 0
  image_zero : ∀ i, i < k → (M *ᵥ v) i = 0
  image_pivot : (M *ᵥ v) k = pivot

/-- Only place `k` counts in a product of the image with a vector that ends there. -/
theorem PivotVector.dotProduct_eq {M : Matrix (Fin N) (Fin N) K} {k : Fin N} {pivot : K} {v : Fin N → K}
    (h : PivotVector M k pivot v) {u : Fin N → K} (hu : ∀ i, k < i → u i = 0) : u ⬝ᵥ M *ᵥ v = u k * pivot := by
  rw [dotProduct, Finset.sum_eq_single k, h.image_pivot]
  · intro i _ hi
    rcases lt_or_gt_of_ne hi with hlt | hgt
    · rw [h.image_zero i hlt, mul_zero]
    · rw [hu i hgt, zero_mul]
  · intro hk
    exact absurd (Finset.mem_univ k) hk

theorem UnitLower.exists_vector {ℓ : Nat → Nat → K} (h : UnitLower ℓ) (k : Fin N) :
    ∃ v : Fin N → K, v k = 1 ∧ (∀ i, k < i → v i = 0) ∧
      ∀ t ≤ k, ∑ j : Fin N, ℓ j t * v j = if t = k then 1 else 0 := by
  have hunit : IsUnit (leading (k + 1) ℓ)ᵀ.det := by
    rw [Matrix.det_transpose, h.det_leading]
    exact isUnit_one
  -- The vector solves a triangular system with the leading rows, and goes on with zeros.
  let last : Fin (k + 1) := Fin.last k
  let w : Fin (k + 1) → K := (leading (k + 1) ℓ)ᵀ⁻¹ *ᵥ Pi.single last 1
  have hw : (leading (k + 1) ℓ)ᵀ *ᵥ w = Pi.single last 1 := by
    rw [Matrix.mulVec_mulVec, Matrix.mul_nonsing_inv _ hunit, Matrix.one_mulVec]
  let v : Fin N → K := fun i => if hi : (i : Nat) < k + 1 then w ⟨i, hi⟩ else 0
  have hsum : ∀ t ≤ k, ∑ j : Fin N, ℓ j t * v j = if t = k then 1 else 0 := by
    intro t ht
    have hsolve := congrFun hw ⟨t, Nat.lt_succ_of_le ht⟩
    have hext : ∑ j : Fin N, ℓ j t * v j =
        ∑ j ∈ Finset.range N, if hj : j < k + 1 then ℓ j t * w ⟨j, hj⟩ else 0 := by
      rw [Finset.sum_range]
      refine Finset.sum_congr rfl fun j _ => ?_
      by_cases hj : (j : Nat) < k + 1
      · rw [dif_pos hj, show v j = w ⟨j, hj⟩ from dif_pos hj]
      · rw [dif_neg hj, show v j = 0 from dif_neg hj, mul_zero]
    have hcut : ∑ j ∈ Finset.range N, (if hj : j < k + 1 then ℓ j t * w ⟨j, hj⟩ else 0) =
        ∑ j : Fin (k + 1), ℓ j t * w j := by
      rw [← Finset.sum_subset (Finset.range_subset_range.mpr k.isLt) fun j _ hj => ?_, Finset.sum_range]
      · exact Finset.sum_congr rfl fun j _ => dif_pos j.isLt
      · rw [Finset.mem_range] at hj
        exact dif_neg hj
    rw [hext, hcut]
    refine Eq.trans hsolve ?_
    rw [Pi.single_apply]
    simp only [last, Fin.ext_iff, Fin.val_last]
  refine ⟨v, ?_, fun i hi => dif_neg (by have : (k : Nat) < i := hi; omega), hsum⟩
  have hk := hsum k le_rfl
  rw [if_pos rfl, Finset.sum_eq_single k, h.one, one_mul] at hk
  · exact hk
  · intro j _ hj
    rcases lt_or_gt_of_ne hj with hlt | hgt
    · rw [h.zero j k hlt, zero_mul]
    · rw [show v j = 0 from dif_neg (by have : (k : Nat) < j := hgt; omega), mul_zero]
  · intro hmem
    exact absurd (Finset.mem_univ k) hmem

/-- As soon as a row is eliminated its pivot has a vector. -/
theorem Eliminated.exists_pivotVector {a ℓ : Nat → Nat → K} {d : Nat → K} {k : Fin N} (h : Eliminated a ℓ d (k + 1))
    (hℓ : UnitLower ℓ) : ∃ v, PivotVector (leading N a) k (d k) v := by
  obtain ⟨v, hone, hzero, hsum⟩ := hℓ.exists_vector k
  have himage : ∀ i ≤ k, (leading N a *ᵥ v) i = ℓ i k * d k := by
    intro i hi
    have hterm : ∀ j : Fin N, a i j * v j = ∑ t ∈ Finset.range (k + 1), ℓ i t * d t * (ℓ j t * v j) := by
      intro j
      by_cases hj : (j : Nat) < k + 1
      · rw [h i (Nat.lt_succ_of_le hi) j hj, Finset.sum_mul]
        exact Finset.sum_congr rfl fun t _ => mul_assoc _ _ _
      · rw [hzero j (by show (k : Nat) < j; omega)]
        simp
    calc (leading N a *ᵥ v) i = ∑ j : Fin N, a i j * v j := rfl
      _ = ∑ t ∈ Finset.range (k + 1), ℓ i t * d t * ∑ j : Fin N, ℓ j t * v j := by
          rw [Finset.sum_congr rfl fun j _ => hterm j, Finset.sum_comm]
          exact Finset.sum_congr rfl fun t _ => (Finset.mul_sum _ _ _).symm
      _ = ℓ i k * d k := by
          rw [Finset.sum_eq_single_of_mem (k : Nat) (Finset.self_mem_range_succ _) fun t ht htk => ?_, hsum k le_rfl,
            if_pos rfl, mul_one]
          have htk' : t < k := by
            rw [Finset.mem_range] at ht
            omega
          have := hsum ⟨t, htk'.trans k.isLt⟩ (show t ≤ k from htk'.le)
          rw [if_neg fun heq => htk (congrArg Fin.val heq)] at this
          rw [this, mul_zero]
  refine ⟨v, hone, hzero, fun i hi => ?_, ?_⟩
  · rw [himage i hi.le, hℓ.zero i k hi, zero_mul]
  · rw [himage k le_rfl, hℓ.one, one_mul]

end AugLag
